import SymbolicMemory.Proofs.Simplified

/-! # The order of expressions is total

An expression is spelled as a list of numbers, from the root on: the rank of the node, its own
numbers, and then its operands. A name is spelled by its bytes, with a mark for its end. No spelling
is the start of another, so expressions are compared as their spellings are, place by place, and all
laws of the order are those of lists. That names are compared by bytes is a property of their
encoding: the first byte of a character tells how many follow, and larger characters have larger
bytes at the first place where they differ.
-/

namespace SymbolicMemory

section Places

variable {α : Type} {cmp : α → α → Ordering}

theorem compareLex_append_left [Std.ReflCmp cmp] (start x y : List α) :
    List.compareLex cmp (start ++ x) (start ++ y) = List.compareLex cmp x y := by
  induction start with
  | nil => rfl
  | cons a rest ih => simp [List.compareLex_cons_cons, Std.ReflCmp.compare_self, ih]

/-- Numbers in a positional notation are compared from the highest place on. -/
theorem compare_add_mul {b r s : Nat} (hr : r < b) (hs : s < b) (p q : Nat) :
    compare (r + b * p) (s + b * q) = (compare p q).then (compare r s) := by
  have apart : ∀ {r s p q : Nat}, r < b → p < q → r + b * p < s + b * q := by
    intro r s p q hr less
    calc
      r + b * p < b * (p + 1) := by rw [Nat.mul_succ]; omega
      _ ≤ b * q := Nat.mul_le_mul_left b less
      _ ≤ s + b * q := Nat.le_add_left _ _
  rcases Nat.lt_trichotomy p q with less | rfl | more
  · rw [Nat.compare_eq_lt.mpr less, Nat.compare_eq_lt.mpr (apart hr less)]
    rfl
  · rw [Nat.compare_eq_eq.mpr rfl]
    simp [Nat.compare_eq_ite_lt]
  · rw [Nat.compare_eq_gt.mpr more, Nat.compare_eq_gt.mpr (apart hs more)]
    rfl

theorem compare_natCast (m n : Nat) : compare (m : Int) n = compare m n := by
  simp [compare, compareOfLessAndEq]

theorem compare_toNat (m n : UInt64) : compare (m.toNat : Int) n.toNat = compare m n := by
  rw [compare_natCast, UInt64.compare_eq_toNat_compare_toNat]

end Places

namespace Text

/-- The bytes that a text is stored as. -/
def bytes (s : String) : List UInt8 := s.toUTF8.data.toList

/-- How many bytes of a character come behind the first one. -/
def tailCount (n : Nat) : Nat :=
  if n ≤ 127 then 0 else if n ≤ 2047 then 1 else if n ≤ 65535 then 2 else 3

/-- The first byte of a character: its highest bits, and a mark for how many bytes follow. -/
def leadByte (n : Nat) : Nat :=
  if n ≤ 127 then n
  else if n ≤ 2047 then n / 64 + 192
  else if n ≤ 65535 then n / 4096 + 224
  else n / 262144 + 240

/-- The last `count` bytes of a character, with six bits in each. -/
def tailBytes : (count : Nat) → (n : Nat) → List UInt8
  | 0, _ => []
  | count + 1, n => UInt8.ofNat (n / 64 ^ count % 64 + 128) :: tailBytes count n

theorem toNat_lt (c : Char) : c.toNat < 0x110000 := Nat.lt_succ_of_le c.toNat_le_max

theorem encode_eq (c : Char) : String.utf8EncodeChar c =
    UInt8.ofNat (leadByte c.toNat) :: tailBytes (tailCount c.toNat) c.toNat := by
  have small := toNat_lt c
  rw [String.utf8EncodeChar.eq_1]
  unfold leadByte tailCount Char.toNat
  unfold Char.toNat at small
  split_ifs <;> simp only [tailBytes, Nat.div_one, Nat.pow_zero, Nat.reducePow] <;> congr 2 <;> omega

theorem leadByte_lt {n : Nat} (small : n < 0x110000) : leadByte n < 256 := by
  unfold leadByte
  split_ifs <;> omega

/-- A larger character has a larger first byte, or else as many bytes and a larger rest. -/
theorem leadByte_cases {m n : Nat} (less : m < n) :
    leadByte m < leadByte n ∨ leadByte m = leadByte n ∧ tailCount m = tailCount n ∧
      m % 64 ^ tailCount m < n % 64 ^ tailCount n := by
  unfold leadByte tailCount
  split_ifs <;> simp only [Nat.reducePow, Nat.mod_one, true_and] <;> omega

theorem compare_ofNat {m n : Nat} (hm : m < 256) (hn : n < 256) :
    compare (UInt8.ofNat m) (UInt8.ofNat n) = compare m n := by
  rw [UInt8.compare_eq_toNat_compare_toNat, UInt8.toNat_ofNat_of_lt' hm, UInt8.toNat_ofNat_of_lt' hn]

theorem compareLex_tailBytes (count m n : Nat) (x y : List UInt8) :
    List.compareLex compare (tailBytes count m ++ x) (tailBytes count n ++ y) =
      (compare (m % 64 ^ count) (n % 64 ^ count)).then (List.compareLex compare x y) := by
  induction count with
  | zero => simp [tailBytes, Nat.mod_one]
  | succ count ih =>
      have digit : ∀ k : Nat, k / 64 ^ count % 64 + 128 < 256 := by
        intro k
        have := Nat.mod_lt (k / 64 ^ count) (show 0 < 64 by decide)
        omega
      have below : ∀ k : Nat, k % 64 ^ count < 64 ^ count := fun k => Nat.mod_lt _ (Nat.pow_pos (by decide))
      simp only [tailBytes, List.cons_append, List.compareLex_cons_cons, ih, compare_ofNat (digit m) (digit n),
        Nat.mod_pow_succ, compare_add_mul (below m) (below n), Ordering.then_assoc]
      simp [Nat.compare_eq_ite_lt]

/-- Characters are ordered as the bytes that they are stored as, whatever comes behind them. -/
theorem compareLex_encode (c d : Char) (x y : List UInt8) :
    List.compareLex compare (String.utf8EncodeChar c ++ x) (String.utf8EncodeChar d ++ y) =
      (compare c d).then (List.compareLex compare x y) := by
  have ascending : ∀ {c d : Char} {x y : List UInt8}, c < d →
      List.compareLex compare (String.utf8EncodeChar c ++ x) (String.utf8EncodeChar d ++ y) = .lt := by
    intro c d x y less
    simp only [encode_eq, List.cons_append, List.compareLex_cons_cons,
      compare_ofNat (leadByte_lt (toNat_lt c)) (leadByte_lt (toNat_lt d))]
    rcases leadByte_cases (show c.toNat < d.toNat from less) with lead | ⟨lead, count, tail⟩
    · rw [Nat.compare_eq_lt.mpr lead]
      rfl
    · rw [lead, ← count] at *
      rw [compareLex_tailBytes, Nat.compare_eq_lt.mpr tail, Std.compare_self]
      rfl
  rcases lt_trichotomy c d with less | rfl | more
  · rw [ascending less, compare_lt_iff_lt.mpr less]
    rfl
  · rw [compareLex_append_left, Std.compare_self]
    rfl
  · rw [@Std.OrientedCmp.eq_swap _ (List.compareLex compare), ascending more, compare_gt_iff_gt.mpr more]
    rfl

theorem bytes_eq (s : String) : bytes s = s.toList.flatMap String.utf8EncodeChar := by
  rw [bytes, String.toUTF8, ← String.utf8Encode_toList, List.utf8Encode, List.toList_data_toByteArray]

theorem compareLex_flatMap_encode (cs ds : List Char) :
    List.compareLex compare (cs.flatMap String.utf8EncodeChar) (ds.flatMap String.utf8EncodeChar) =
      List.compareLex compare cs ds := by
  induction cs generalizing ds with
  | nil =>
      cases ds with
      | nil => rfl
      | cons d ds => simp [encode_eq, List.compareLex_nil_cons]
  | cons c cs ih =>
      cases ds with
      | nil => simp [encode_eq, List.compareLex_cons_nil]
      | cons d ds => simp only [List.flatMap_cons, compareLex_encode, List.compareLex_cons_cons, ih]

theorem compareLex_of_lt {cs ds : List Char} (less : cs < ds) : List.compareLex compare cs ds = .lt := by
  induction cs generalizing ds with
  | nil =>
      cases ds with
      | nil => exact absurd less (List.not_lt_nil [])
      | cons d ds => exact List.compareLex_nil_cons
  | cons c cs ih =>
      cases ds with
      | nil => exact absurd less (List.not_lt_nil _)
      | cons d ds =>
          rw [List.compareLex_cons_cons]
          rcases List.cons_lt_cons_iff.mp less with first | ⟨rfl, rest⟩
          · rw [compare_lt_iff_lt.mpr first]
            rfl
          · rw [Std.compare_self, ih rest]
            rfl

/-- Texts are ordered as the bytes that they are stored as. -/
theorem compare_eq_bytes (s t : String) : compare s t = List.compareLex compare (bytes s) (bytes t) := by
  rw [bytes_eq, bytes_eq, compareLex_flatMap_encode]
  rcases lt_trichotomy s t with less | rfl | more
  · rw [compare_lt_iff_lt.mpr less, compareLex_of_lt (String.lt_iff.mp less)]
  · rw [compare_eq_iff_eq.mpr rfl, @Std.ReflCmp.compare_self _ (List.compareLex compare)]
  · rw [compare_gt_iff_gt.mpr more, @Std.OrientedCmp.eq_swap _ (List.compareLex compare),
      compareLex_of_lt (String.lt_iff.mp more)]
    rfl

/-- The bytes of a text as numbers from one on, and a zero for its end. -/
def spelling (s : String) : List Int := (bytes s).map (fun b => (b.toNat : Int) + 1) ++ [0]

theorem compareLex_marked (bs cs : List UInt8) (x y : List Int) :
    List.compareLex compare (bs.map (fun b => (b.toNat : Int) + 1) ++ 0 :: x)
        (cs.map (fun b => (b.toNat : Int) + 1) ++ 0 :: y) =
      (List.compareLex compare bs cs).then (List.compareLex compare x y) := by
  have mark : ∀ b : UInt8, compare (0 : Int) ((b.toNat : Int) + 1) = .lt := by
    intro b
    rw [compare_lt_iff_lt]
    omega
  have byte : ∀ b c : UInt8, compare ((b.toNat : Int) + 1) ((c.toNat : Int) + 1) = compare b c := by
    intro b c
    rw [UInt8.compare_eq_toNat_compare_toNat, ← compare_natCast]
    simp [compare, compareOfLessAndEq]
  induction bs generalizing cs with
  | nil =>
      cases cs with
      | nil => simp [List.compareLex_cons_cons, List.compareLex_nil_nil]
      | cons c cs => simp [List.compareLex_cons_cons, List.compareLex_nil_cons, mark]
  | cons b bs ih =>
      cases cs with
      | nil =>
          have : compare ((b.toNat : Int) + 1) 0 = .gt := by
            rw [compare_gt_iff_gt]
            omega
          simp [List.compareLex_cons_cons, List.compareLex_cons_nil, this]
      | cons c cs => simp [List.compareLex_cons_cons, byte, ih, Ordering.then_assoc]

theorem compareLex_spelling (s t : String) (x y : List Int) :
    List.compareLex compare (spelling s ++ x) (spelling t ++ y) =
      (compare s t).then (List.compareLex compare x y) := by
  simp only [spelling, List.append_assoc, List.singleton_append, compareLex_marked, compare_eq_bytes]

end Text

namespace Expr

/-- An expression spelled out: the rank of its root, the numbers and the name at the root, and then
    its operands. -/
def spelling : Expr → List Int
  | const _ w => [(Kind.const.rank : Int), w.width.toNat, w.value.toNat]
  | var _ v => (Kind.var.rank : Int) :: Text.spelling v.name ++ [(v.width.toNat : Int)]
  | concat _ msb lsb => (Kind.concat.rank : Int) :: msb.spelling ++ lsb.spelling
  | extract _ source offset width =>
    (Kind.extract.rank : Int) :: offset.toNat :: width.toNat :: source.spelling
  | not _ source => (Kind.not.rank : Int) :: source.spelling
  | zext _ source width => (Kind.zext.rank : Int) :: width.toNat :: source.spelling
  | binary _ op lhs rhs => (Kind.binary.rank : Int) :: op.code :: lhs.spelling ++ rhs.spelling

theorem spelling_eq_cons (e : Expr) : ∃ rest, e.spelling = (e.kind.rank : Int) :: rest := by
  cases e <;> exact ⟨_, rfl⟩

/-- Spelled-out expressions are compared as the expressions are, and then by what comes behind. -/
theorem compareLex_spelling (a b : Expr) (x y : List Int) :
    List.compareLex compare (a.spelling ++ x) (b.spelling ++ y) =
      (a.order b).then (List.compareLex compare x y) := by
  fun_induction Expr.order a b generalizing x y with
  | case1 => exact compareLex_append_left _ _ _
  | case2 tag a tag' b =>
      simp [spelling, Word.order, List.compareLex_cons_cons, compare_toNat, Ordering.then_assoc]
  | case3 tag a tag' b =>
      simp [spelling, Var.order, List.compareLex_cons_cons, Text.compareLex_spelling, compare_toNat,
        Ordering.then_assoc]
  | case4 tag a b tag' c d apart ih ih' =>
      simp [spelling, List.compareLex_cons_cons, ih, ih', Ordering.then_assoc]
  | case5 tag a i n tag' b j m apart ih =>
      simp [spelling, List.compareLex_cons_cons, ih, compare_toNat, Ordering.then_assoc]
  | case6 tag a tag' b apart ih => simp [spelling, List.compareLex_cons_cons, ih]
  | case7 tag a n tag' b m apart ih =>
      simp [spelling, List.compareLex_cons_cons, ih, compare_toNat, Ordering.then_assoc]
  | case8 tag op a b tag' op' c d apart ih ih' =>
      simp [spelling, List.compareLex_cons_cons, ih, ih', Ordering.then_assoc]
  | case9 a b =>
      have apart : a.kind.rank ≠ b.kind.rank := by
        cases a <;> cases b <;> grind [kind, Kind.rank]
      have ranks : compare a.kind.rank b.kind.rank ≠ .eq := mt Nat.compare_eq_eq.mp apart
      obtain ⟨p, hp⟩ := spelling_eq_cons a
      obtain ⟨q, hq⟩ := spelling_eq_cons b
      rw [hp, hq, List.cons_append, List.cons_append, List.compareLex_cons_cons, compare_natCast]
      cases h : compare a.kind.rank b.kind.rank <;> simp_all

theorem order_eq_spelling (a b : Expr) : a.order b = List.compareLex compare a.spelling b.spelling := by
  have h := compareLex_spelling a b [] []
  simpa [List.compareLex_nil_nil] using h.symm

instance : Std.TransCmp Expr.order where
  eq_swap := by
    intro a b
    rw [order_eq_spelling, order_eq_spelling]
    exact Std.OrientedCmp.eq_swap
  isLE_trans := by
    intro a b c
    rw [order_eq_spelling, order_eq_spelling, order_eq_spelling]
    exact Std.TransCmp.isLE_trans

theorem order_eq_iff {a b : Expr} : a.order b = .eq ↔ a.erase = b.erase := ⟨erase_of_order, order_of_erase⟩

theorem order_var (tag tag' : Tag) (u v : Var) : (var tag u).order (var tag' v) = u.order v := by
  rw [order_eq_spelling]
  simp [spelling, Var.order, List.compareLex_cons_cons, List.compareLex_nil_nil, Text.compareLex_spelling,
    compare_toNat]

/-- Expressions of any shape are totally ordered. Only expressions that differ in nothing but their
    tags compare equal, and the names of variables are compared byte by byte. -/
theorem order_total (a b c : Expr) :
    (a.order b = .eq ↔ a.erase = b.erase) ∧
      b.order a = (a.order b).swap ∧
      ((a.order b).isLE → (b.order c).isLE → (a.order c).isLE) ∧
      ∀ (tag tag' : Tag) (u v : Var),
        (var tag u).order (var tag' v) =
          (List.compareLex compare (Text.bytes u.name) (Text.bytes v.name)).then (compare u.width v.width) := by
  refine ⟨order_eq_iff, Std.OrientedCmp.eq_swap, Std.TransCmp.isLE_trans, ?_⟩
  intro tag tag' u v
  rw [order_var, Var.order, Text.compare_eq_bytes]

/-- Three expressions without a meaning, over names of three and of four bytes. -/
theorem order_total_ill_formed :
    let small := var none ⟨"\uffff", 8⟩
    let large := binary none (.unassigned 99 (by decide)) (var none ⟨"😀", 8⟩) small
    let other := binary none (.unassigned 99 (by decide)) (var (some 1) ⟨"😀", 8⟩) (zext none small 4)
    (small.order large).isLE ∧ (large.order other).isLE ∧ (small.order other).isLE ∧
      (var none ⟨"😀", 8⟩).order small = .gt := by
  intro small large other
  have first : (small.order large).isLE := by decide
  have second : (large.order other).isLE := by decide
  exact ⟨first, second, (order_total small large other).2.2.1 first second, by decide⟩

end Expr

end SymbolicMemory
