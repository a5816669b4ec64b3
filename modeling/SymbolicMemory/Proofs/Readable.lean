import SymbolicMemory.Proofs.TotalOrder

/-! # Printed expressions can be read in one way only

The text of an expression starts with a bracket and a word that tells the kind of its root or the
operator there. Numbers end at the first character that is no digit, and names at the first blank. So
a text that starts with that of an expression starts with that of no other shape, whatever comes
behind, and texts are equal exactly where the order of expressions sees no difference.
-/

namespace SymbolicMemory

namespace Text

/-- Texts that end at the first occurrence of a character are the same if they are with anything
    behind them. -/
theorem append_stop_inj {c : Char} {s t x y : List Char} (hs : c ∉ s) (ht : c ∉ t)
    (same : s ++ c :: x = t ++ c :: y) : s = t ∧ x = y := by
  induction s generalizing t with
  | nil =>
      cases t with
      | nil => exact ⟨rfl, (List.cons.inj same).2⟩
      | cons d t => exact absurd (List.cons.inj same).1 (List.ne_of_not_mem_cons ht)
  | cons d s ih =>
      cases t with
      | nil => exact absurd (List.cons.inj same).1.symm (List.ne_of_not_mem_cons hs)
      | cons d' t =>
          obtain ⟨rfl, rest⟩ := List.cons.inj same
          obtain ⟨rfl, rfl⟩ := ih (List.not_mem_of_not_mem_cons hs) (List.not_mem_of_not_mem_cons ht) rest
          exact ⟨rfl, rfl⟩

theorem notMem_repr {c : Char} (other : c.isDigit = false) (n : Nat) : c ∉ n.repr.toList := by
  rw [Nat.repr_eq_ofList_toDigits, String.toList_ofList]
  intro digit
  rw [Nat.isDigit_of_mem_toDigits (by decide) (by decide) digit] at other
  cases other

theorem decimal_stop_inj {c : Char} (other : c.isDigit = false) {m n : UInt64} {x y : List Char}
    (same : (decimal m).toList ++ c :: x = (decimal n).toList ++ c :: y) : m = n ∧ x = y := by
  obtain ⟨digits, rest⟩ := append_stop_inj (notMem_repr other _) (notMem_repr other _) same
  exact ⟨Names.decimal_inj (String.toList_inj.mp digits), rest⟩

theorem decimalInt_eq_repr (i : Int) : decimalInt i = i.repr := by
  cases i <;> rfl

theorem blank_notMem_decimalInt (i : Int) : ' ' ∉ (decimalInt i).toList := by
  cases i with
  | ofNat n => exact notMem_repr rfl n
  | negSucc n =>
      rw [decimalInt, String.toList_append]
      exact List.not_mem_append (by decide) (notMem_repr rfl (n + 1))

end Text

namespace Expr

/-- What the text of a node starts with. -/
inductive Head where
  | const
  | var
  | concat
  | extract
  | not
  | zext
  | binary (op : Op)
  deriving DecidableEq

namespace Head

def name : Head → String
  | const => "const"
  | var => "var"
  | concat => "concat"
  | extract => "extract"
  | not => "not"
  | zext => "zext"
  | binary op => op.name

/-- All heads but those of operators without a name. -/
def named : List Head :=
  [const, var, concat, extract, not, zext] ++
    [.add, .sub, .mul, .udiv, .urem, .and, .or, .xor, .shl, .lshr, .eq, .ne, .ult, .ule, .ugt, .uge].map binary

theorem mem_named (h : Head) : h ∈ named ∨ ∃ code free, h = binary (.unassigned code free) := by
  cases h with
  | binary op =>
      cases op with
      | unassigned code free => exact .inr ⟨code, free, rfl⟩
      | _ => exact .inl (by decide)
  | _ => exact .inl (by decide)

theorem nodup_names : (named.map name).Nodup := by decide

theorem unassigned_name {h : Head} (mem : h ∈ named) (code : Int) (free : ¬ OpCode.Assigned code) :
    h.name ≠ (binary (.unassigned code free)).name := by
  have starts : ∀ h ∈ named, h.name.toList.head? ≠ some 'B' := by decide
  intro same
  apply starts h mem
  rw [same, name, Op.name, String.toList_append, String.toList_append]
  rfl

theorem name_inj {h h' : Head} (same : h.name = h'.name) : h = h' := by
  rcases mem_named h with mem | ⟨code, free, rfl⟩
  · rcases mem_named h' with mem' | ⟨code', free', rfl⟩
    · exact List.inj_on_of_nodup_map nodup_names mem mem' same
    · exact absurd same (unassigned_name mem code' free')
  · rcases mem_named h' with mem' | ⟨code', free', rfl⟩
    · exact absurd same.symm (unassigned_name mem' code free)
    · simp only [name, Op.name, String.append_right_inj, String.append_left_inj, Text.decimalInt_eq_repr,
        Int.repr_inj] at same
      cases same
      rfl

theorem blank_notMem_name (h : Head) : ' ' ∉ h.name.toList := by
  rcases mem_named h with mem | ⟨code, free, rfl⟩
  · have : ∀ h ∈ named, ' ' ∉ h.name.toList := by decide
    exact this h mem
  · rw [name, Op.name, String.toList_append, String.toList_append]
    simp [Text.blank_notMem_decimalInt]

end Head

/-- What the text of an expression starts with. -/
def head : Expr → Head
  | const .. => .const
  | var .. => .var
  | concat .. => .concat
  | extract .. => .extract
  | not .. => .not
  | zext .. => .zext
  | binary _ op _ _ => .binary op

/-- The text behind the head. -/
def fields : Expr → List Char
  | const _ w => (Text.decimal w.value).toList ++ ' ' :: ((Text.decimal w.width).toList ++ [')'])
  | var _ v => v.name.toList ++ ' ' :: ((Text.decimal v.width).toList ++ [')'])
  | concat _ msb lsb => msb.text.toList ++ ' ' :: (lsb.text.toList ++ [')'])
  | extract _ source offset width =>
    source.text.toList ++ ' ' :: ((Text.decimal offset).toList ++ ' ' :: ((Text.decimal width).toList ++ [')']))
  | not _ source => source.text.toList ++ [')']
  | zext _ source width => source.text.toList ++ ' ' :: ((Text.decimal width).toList ++ [')'])
  | binary _ _ lhs rhs => lhs.text.toList ++ ' ' :: (rhs.text.toList ++ [')'])

theorem text_toList (e : Expr) : e.text.toList = '(' :: (e.head.name.toList ++ ' ' :: e.fields) := by
  cases e <;> simp [text, head, Head.name, fields]

theorem fields_of_text {a b : Expr} {x y : List Char} (same : a.text.toList ++ x = b.text.toList ++ y) :
    a.head = b.head ∧ a.fields ++ x = b.fields ++ y := by
  simp only [text_toList, List.cons_append, List.append_assoc, List.cons.injEq, true_and] at same
  obtain ⟨heads, rest⟩ := Text.append_stop_inj a.head.blank_notMem_name b.head.blank_notMem_name same
  exact ⟨Head.name_inj (String.toList_inj.mp heads), rest⟩

/-- No name in an expression has a blank. -/
def Unbroken (e : Expr) : Prop := ∀ v ∈ e.occurrences, ' ' ∉ v.name.toList

/-- A text that starts with that of an expression starts with that of no other shape. -/
def Legible (e : Expr) : Prop := ∀ (e' : Expr) (x y : List Char), e'.Unbroken →
  e.text.toList ++ x = e'.text.toList ++ y → e.erase = e'.erase ∧ x = y

/-- Two expressions with a blank between them and a bracket behind. -/
theorem Legible.pair {a b a' b' : Expr} (first : a.Legible) (second : b.Legible) (ha : a'.Unbroken)
    (hb : b'.Unbroken) {x y : List Char}
    (same : a.text.toList ++ ' ' :: (b.text.toList ++ ')' :: x) =
      a'.text.toList ++ ' ' :: (b'.text.toList ++ ')' :: y)) :
    a.erase = a'.erase ∧ b.erase = b'.erase ∧ x = y := by
  obtain ⟨firsts, rest⟩ := first _ _ _ ha same
  obtain ⟨seconds, rest⟩ := second _ _ _ hb (List.cons.inj rest).2
  exact ⟨firsts, seconds, (List.cons.inj rest).2⟩

theorem legible (e : Expr) (unbroken : e.Unbroken) : e.Legible := by
  induction e with
  | const tag w =>
      intro e' x y _ same
      obtain ⟨heads, rest⟩ := fields_of_text same
      cases e' with
      | const tag' w' =>
          simp only [fields, List.append_assoc, List.cons_append, List.nil_append] at rest
          obtain ⟨values, rest⟩ := Text.decimal_stop_inj rfl rest
          obtain ⟨widths, rest⟩ := Text.decimal_stop_inj rfl rest
          exact ⟨by cases w; cases w'; simp_all [erase], rest⟩
      | _ => cases heads
  | var tag v =>
      intro e' x y unbroken' same
      obtain ⟨heads, rest⟩ := fields_of_text same
      cases e' with
      | var tag' v' =>
          simp only [fields, List.append_assoc, List.cons_append, List.nil_append] at rest
          have plain := unbroken v List.mem_cons_self
          have plain' := unbroken' v' List.mem_cons_self
          obtain ⟨names, rest⟩ := Text.append_stop_inj plain plain' rest
          obtain ⟨widths, rest⟩ := Text.decimal_stop_inj rfl rest
          exact ⟨by cases v; cases v'; simp_all [erase, String.toList_inj], rest⟩
      | _ => cases heads
  | concat tag msb lsb high low =>
      obtain ⟨upper, lower⟩ := List.forall_mem_append.mp unbroken
      intro e' x y unbroken' same
      obtain ⟨heads, rest⟩ := fields_of_text same
      cases e' with
      | concat tag' msb' lsb' =>
          obtain ⟨upper', lower'⟩ := List.forall_mem_append.mp unbroken'
          simp only [fields, List.append_assoc, List.cons_append, List.nil_append] at rest
          obtain ⟨highs, lows, rest⟩ := (high upper).pair (low lower) upper' lower' rest
          exact ⟨by rw [erase, erase, highs, lows], rest⟩
      | _ => cases heads
  | extract tag source offset width ih =>
      intro e' x y unbroken' same
      obtain ⟨heads, rest⟩ := fields_of_text same
      cases e' with
      | extract tag' source' offset' width' =>
          simp only [fields, List.append_assoc, List.cons_append, List.nil_append] at rest
          obtain ⟨sources, rest⟩ := ih unbroken source' _ _ unbroken' rest
          obtain ⟨offsets, rest⟩ := Text.decimal_stop_inj rfl (List.cons.inj rest).2
          obtain ⟨widths, rest⟩ := Text.decimal_stop_inj rfl rest
          exact ⟨by rw [erase, erase, sources, offsets, widths], rest⟩
      | _ => cases heads
  | not tag source ih =>
      intro e' x y unbroken' same
      obtain ⟨heads, rest⟩ := fields_of_text same
      cases e' with
      | not tag' source' =>
          simp only [fields, List.append_assoc, List.cons_append, List.nil_append] at rest
          obtain ⟨sources, rest⟩ := ih unbroken source' _ _ unbroken' rest
          exact ⟨by rw [erase, erase, sources], (List.cons.inj rest).2⟩
      | _ => cases heads
  | zext tag source width ih =>
      intro e' x y unbroken' same
      obtain ⟨heads, rest⟩ := fields_of_text same
      cases e' with
      | zext tag' source' width' =>
          simp only [fields, List.append_assoc, List.cons_append, List.nil_append] at rest
          obtain ⟨sources, rest⟩ := ih unbroken source' _ _ unbroken' rest
          obtain ⟨widths, rest⟩ := Text.decimal_stop_inj rfl (List.cons.inj rest).2
          exact ⟨by rw [erase, erase, sources, widths], rest⟩
      | _ => cases heads
  | binary tag op lhs rhs left right =>
      obtain ⟨inLeft, inRight⟩ := List.forall_mem_append.mp unbroken
      intro e' x y unbroken' same
      obtain ⟨heads, rest⟩ := fields_of_text same
      cases e' with
      | binary tag' op' lhs' rhs' =>
          obtain ⟨inLeft', inRight'⟩ := List.forall_mem_append.mp unbroken'
          cases heads
          simp only [fields, List.append_assoc, List.cons_append, List.nil_append] at rest
          obtain ⟨lefts, rights, rest⟩ := (left inLeft).pair (right inRight) inLeft' inRight' rest
          exact ⟨by rw [erase, erase, lefts, rights], rest⟩
      | _ => cases heads

theorem text_erase (e : Expr) : e.erase.text = e.text := by
  induction e <;> simp_all [erase, text]

/-- Expressions of any shape print alike exactly if they compare equal, as long as no name in them has
    a blank. Brackets in names do no harm. -/
theorem text_eq_iff_order_eq {a b : Expr} (ha : ∀ v ∈ a.occurrences, ' ' ∉ v.name.toList)
    (hb : ∀ v ∈ b.occurrences, ' ' ∉ v.name.toList) : a.text = b.text ↔ a.order b = .eq := by
  rw [order_eq_iff]
  constructor
  · intro same
    exact (legible a ha b [] [] hb (by rw [same])).1
  · intro shape
    rw [← text_erase a, ← text_erase b, shape]

/-- Over names that hold brackets and a word of the format, tags make no difference to the text, and
    the numbers of two operators without a name do. -/
theorem text_eq_iff_order_eq_bracketed :
    let x := var none ⟨")(var", 8⟩
    let y := extract none (var (some 3) ⟨"BinaryOp<99>", 8⟩) 18446744073709551615 0
    let a := binary none (.unassigned 99 (by decide)) x y
    let twin := binary (some 7) (.unassigned 99 (by decide)) x y
    let other := binary none (.unassigned (-99) (by decide)) x y
    a.text = twin.text ∧ a.text ≠ other.text := by
  intro x y a twin other
  have alike : a.text = twin.text ↔ a.order twin = .eq := text_eq_iff_order_eq (by decide) (by decide)
  have differ : a.text = other.text ↔ a.order other = .eq := text_eq_iff_order_eq (by decide) (by decide)
  exact ⟨alike.mpr (by decide), fun same => absurd (differ.mp same) (by decide)⟩

end Expr

end SymbolicMemory
