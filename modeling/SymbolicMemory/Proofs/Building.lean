import SymbolicMemory.Expr.Build
import SymbolicMemory.Proofs.Slices

/-! # Operators keep their meaning

Applying an operator folds constants, drops neutral operands, moves constants to one side
and rewrites sums and equalities across each other. Each of these steps is sound modulo
two to the power of the width, at every width: the expression that comes out stands for
the operator's result on what the operands stand for, and building it never fails.
-/

namespace SymbolicMemory

namespace Op

/-- Operators whose operands may trade places. -/
def isCommutative : Op → Bool
  | add | mul | and | or | xor | eq => true
  | _ => false

theorem meaning_comm {op : Op} (commutes : op.isCommutative = true) (n x y : Nat) :
    op.meaning n x y = op.meaning n y x := by
  cases op with
  | add => exact congrArg BitVec.toNat (BitVec.add_comm _ _)
  | mul => exact congrArg BitVec.toNat (BitVec.mul_comm _ _)
  | and => exact congrArg BitVec.toNat (BitVec.and_comm _ _)
  | or => exact congrArg BitVec.toNat (BitVec.or_comm _ _)
  | xor => exact congrArg BitVec.toNat (BitVec.xor_comm _ _)
  | eq => exact congrArg Bool.toNat BEq.comm
  | _ => cases commutes

end Op

namespace Expr

/-- Building succeeds with an operator applied to two operands. -/
def Applies (op : Op) (lhs rhs : Expr) (built : Except Fault Expr) : Prop :=
  Builds built (op.resultWidth lhs.width) (lhs.occurrences ++ rhs.occurrences)
    (fun ρ => op.meaning lhs.width.toNat (lhs.meaning ρ) (rhs.meaning ρ))

/-- A pair of well-formed operands of one width. -/
structure Operands (lhs rhs : Expr) : Prop where
  left : lhs.WellFormed
  right : rhs.WellFormed
  same : lhs.width = rhs.width

namespace Operands

variable {lhs rhs : Expr} (h : Operands lhs rhs)

include h

theorem swap : Operands rhs lhs := ⟨h.right, h.left, h.same.symm⟩

theorem left_lt (ρ : Valuation) : lhs.meaning ρ < 2 ^ lhs.width.toNat := meaning_lt ρ h.left

theorem right_lt (ρ : Valuation) : rhs.meaning ρ < 2 ^ lhs.width.toNat :=
  h.same ▸ meaning_lt ρ h.right

/-- The plain node. -/
theorem node {op : Op} (known : op.Known) : Applies op lhs rhs (.ok (binary none op lhs rhs)) :=
  (denotes_self (e := binary none op lhs rhs) ⟨known, h.left, h.right, h.same⟩).builds

/-- The left operand, where the right one changes nothing. -/
theorem keepLeft {op : Op} (width : op.resultWidth lhs.width = lhs.width)
    (neutral : ∀ ρ, op.meaning lhs.width.toNat (lhs.meaning ρ) (rhs.meaning ρ) = lhs.meaning ρ) :
    Applies op lhs rhs (.ok lhs) := by
  unfold Applies
  rw [width]
  exact (((denotes_self h.left).mono (List.subset_append_left _ _)).value_eq
    fun ρ => (neutral ρ).symm).builds

/-- The right operand, where the left one changes nothing. -/
theorem keepRight {op : Op} (width : op.resultWidth lhs.width = rhs.width)
    (neutral : ∀ ρ, op.meaning lhs.width.toNat (lhs.meaning ρ) (rhs.meaning ρ) = rhs.meaning ρ) :
    Applies op lhs rhs (.ok rhs) := by
  unfold Applies
  rw [width]
  exact (((denotes_self h.right).mono (List.subset_append_right _ _)).value_eq
    fun ρ => (neutral ρ).symm).builds

omit h in
/-- An answer that does not depend on the variables. -/
theorem answer {op : Op} (compare : op.isCompare = true) (b : Bool)
    (known : ∀ ρ, op.meaning lhs.width.toNat (lhs.meaning ρ) (rhs.meaning ρ) = b.toNat) :
    Applies op lhs rhs (.ok (ofBool b)) := by
  have width : op.resultWidth lhs.width = 1 := by simp [Op.resultWidth, compare]
  unfold Applies ofBool
  rw [width, Word.ofBool_eq]
  exact ((denotes_number (by decide) (by decide) b.toNat_lt none _).value_eq
    fun ρ => (known ρ).symm).builds

end Operands

/-- An operator on the operands in the other order is its mirror image on them. -/
theorem Applies.swap {op op' : Op} {lhs rhs : Expr} {built : Except Fault Expr}
    (h : Applies op rhs lhs built) (same : lhs.width = rhs.width)
    (width : ∀ w, op'.resultWidth w = op.resultWidth w)
    (mirror : ∀ n x y, op.meaning n y x = op'.meaning n x y) : Applies op' lhs rhs built := by
  unfold Applies
  rw [same, width]
  refine (h.mono ?_).value_eq fun ρ => mirror _ _ _
  exact List.append_subset.mpr ⟨List.subset_append_right _ _, List.subset_append_left _ _⟩

/-- Putting a constant first does not matter to a commutative operator. -/
theorem constFirst_operands (op : Op) {lhs rhs : Expr} (operands : Operands lhs rhs)
    (commutes : op.isCommutative = true) :
    ∃ l r, constFirst lhs rhs = (l, r) ∧ Operands l r ∧
      ∀ built, Applies op l r built → Applies op lhs rhs built := by
  unfold constFirst
  split
  · exact ⟨rhs, lhs, rfl, operands.swap, fun _ h =>
      h.swap operands.same (fun _ => rfl) fun _ _ _ => Op.meaning_comm commutes _ _ _⟩
  · exact ⟨lhs, rhs, rfl, operands, fun _ h => h⟩

/-- Putting a constant last does not matter to a commutative operator. -/
theorem constLast_operands (op : Op) {lhs rhs : Expr} (operands : Operands lhs rhs)
    (commutes : op.isCommutative = true) :
    ∃ l r, constLast lhs rhs = (l, r) ∧ Operands l r ∧
      ∀ built, Applies op l r built → Applies op lhs rhs built := by
  unfold constLast
  split
  · exact ⟨rhs, lhs, rfl, operands.swap, fun _ h =>
      h.swap operands.same (fun _ => rfl) fun _ _ _ => Op.meaning_comm commutes _ _ _⟩
  · exact ⟨lhs, rhs, rfl, operands, fun _ h => h⟩

/-- On one bit some operators are others. -/
theorem Applies.of_one_bit {op op' : Op} {lhs rhs : Expr} {built : Except Fault Expr}
    (h : Applies op lhs rhs built) (operands : Operands lhs rhs) (narrow : lhs.width = 1)
    (width : op.resultWidth 1 = op'.resultWidth 1)
    (same : ∀ {x y : Nat}, x < 2 ^ 1 → y < 2 ^ 1 → op.meaning 1 x y = op'.meaning 1 x y) :
    Applies op' lhs rhs built := by
  have left := operands.left_lt
  have right := operands.right_lt
  unfold Applies at h ⊢
  rw [narrow] at h left right ⊢
  rw [← width]
  exact h.value_eq fun ρ => same (left ρ) (right ρ)

theorem xorOf_applies {lhs rhs : Expr} (operands : Operands lhs rhs) :
    Applies .xor lhs rhs (.ok (xorOf lhs rhs)) := by
  obtain ⟨l, r, order, operands, lift⟩ := constFirst_operands .xor operands rfl
  unfold xorOf
  rw [order]
  apply lift
  split
  · next tag c r' pair =>
    cases pair
    split
    · next zero =>
      refine operands.keepRight operands.same fun ρ => ?_
      rw [Op.meaning_xor (operands.left_lt ρ) (operands.right_lt ρ), meaning, zero,
        UInt64.toNat_zero, Nat.zero_xor]
    · exact operands.node (.inl rfl)
  · next l' r' _ pair =>
    cases pair
    exact operands.node (.inl rfl)

theorem allOnes_toNat {c : Word} (masked : c.Masked) (ones : c.isAllOnes = true) :
    c.value.toNat = 2 ^ c.width.toNat - 1 := by
  rw [beq_iff_eq.mp ones]
  exact mask_toNat masked.2.1

theorem andOf_applies {lhs rhs : Expr} (operands : Operands lhs rhs) :
    Applies .and lhs rhs (.ok (andOf lhs rhs)) := by
  obtain ⟨l, r, order, operands, lift⟩ := constLast_operands .and operands rfl
  unfold andOf
  rw [order]
  apply lift
  split
  · next l' tag c pair =>
    cases pair
    have apart := fun ρ => Op.meaning_and (operands.left_lt ρ) (operands.right_lt ρ)
    split
    · next ones =>
      refine operands.keepLeft rfl fun ρ => ?_
      rw [apart, meaning, allOnes_toNat operands.right ones, ← show l.width = c.width from operands.same,
        Nat.and_two_pow_sub_one_eq_mod, Nat.mod_eq_of_lt (operands.left_lt ρ)]
    split
    · next zero =>
      refine operands.keepRight operands.same fun ρ => ?_
      rw [apart, meaning, zero, UInt64.toNat_zero, Nat.and_zero]
    · exact operands.node (.inl rfl)
  · next l' r' _ pair =>
    cases pair
    exact operands.node (.inl rfl)

theorem orOf_applies {lhs rhs : Expr} (operands : Operands lhs rhs) :
    Applies .or lhs rhs (.ok (orOf lhs rhs)) := by
  obtain ⟨l, r, order, operands, lift⟩ := constLast_operands .or operands rfl
  unfold orOf
  rw [order]
  apply lift
  split
  · next l' tag c pair =>
    cases pair
    have apart := fun ρ => Op.meaning_or (operands.left_lt ρ) (operands.right_lt ρ)
    split
    · next ones =>
      refine operands.keepRight operands.same fun ρ => ?_
      -- A disjunction is at least its right operand, here the greatest number of the width.
      have most : (const tag c).meaning ρ = 2 ^ l.width.toNat - 1 := by
        rw [operands.same]
        exact allOnes_toNat operands.right ones
      have upper := Nat.or_lt_two_pow (operands.left_lt ρ) (operands.right_lt ρ)
      have lower := Nat.right_le_or (n := l.meaning ρ) (m := (const tag c).meaning ρ)
      rw [apart]
      omega
    split
    · next zero =>
      refine operands.keepLeft rfl fun ρ => ?_
      rw [apart, meaning, zero, UInt64.toNat_zero, Nat.or_zero]
    · exact operands.node (.inl rfl)
  · next l' r' _ pair =>
    cases pair
    exact operands.node (.inl rfl)

theorem shiftOf_applies {op : Op} (shift : op = .shl ∨ op = .lshr) {lhs rhs : Expr}
    (operands : Operands lhs rhs) : Applies op lhs rhs (.ok (shiftOf op lhs rhs)) := by
  have known : op.Known := by rcases shift with rfl | rfl <;> exact .inl rfl
  unfold shiftOf
  split
  · next tag c =>
    split
    · next zero =>
      rcases shift with rfl | rfl
      · refine operands.keepLeft rfl fun ρ => ?_
        rw [Op.meaning_shl (operands.left_lt ρ) (operands.right_lt ρ), meaning, zero,
          UInt64.toNat_zero, Nat.pow_zero, Nat.mul_one, Nat.mod_eq_of_lt (operands.left_lt ρ)]
      · refine operands.keepLeft rfl fun ρ => ?_
        rw [Op.meaning_lshr (operands.left_lt ρ) (operands.right_lt ρ), meaning, zero,
          UInt64.toNat_zero, Nat.pow_zero, Nat.div_one]
    · exact operands.node known
  · exact operands.node known

/-- Two constants make the word of the operator's result. -/
theorem Operands.result (op : Op) {tag tag' : Tag} {a b : Word}
    (operands : Operands (const tag a) (const tag' b)) (tag'' : Tag) :
    Applies op (const tag a) (const tag' b) (.ok (const tag'' (Word.result op a b))) :=
  ((denotes_const (Word.result_masked op b operands.left) tag'' _).value_eq
    fun _ => Word.value_result op b operands.left).builds

theorem addConst_applies (tag : Tag) {c : Word} {e : Expr} (operands : Operands (const tag c) e) :
    Applies .add (const tag c) e (addConst tag c e) := by
  fun_induction addConst tag c e with
  | case1 tag c e zero =>
      refine operands.keepRight operands.same fun ρ => ?_
      rw [Op.meaning_add, meaning, zero, UInt64.toNat_zero, Nat.zero_add,
        Nat.mod_eq_of_lt (operands.right_lt ρ)]
  | case2 tag c nonzero tag' b =>
      rw [Word.add_eq operands.left]
      exact operands.result .add none
  | case3 tag c nonzero tag' tag'' y z ih =>
      obtain ⟨-, hy, hz, inner⟩ := operands.right
      have same : c.width = y.width := operands.same
      have sum := Word.value_result .add y operands.left
      have widths : (Word.result .add c y).width = z.width := same.trans inner
      rw [Word.add_eq operands.left]
      simp only [bind, Except.bind, checkWidths, widths, if_true]
      refine (ih _ ⟨Word.result_masked .add y operands.left, hz, widths⟩).value_eq fun ρ => ?_
      simp only [meaning, sum, Op.meaning_add, Expr.width, widths, ← inner, ← same]
      rw [Nat.mod_add_mod, Nat.add_mod_mod, Nat.add_assoc]
  | case4 tag c e nonzero other sum => exact operands.node (.inl rfl)

private theorem difference_eq_iff {m c y z : Nat} (hc : c < m) (hy : y < m) (hz : z < m) :
    (m - y + c) % m = z ↔ c = (y + z) % m := by
  have difference : (m - y + c) % m = if y ≤ c then c - y else m - y + c := by
    split
    · rw [show m - y + c = c - y + m by omega, Nat.add_mod_right, Nat.mod_eq_of_lt (by omega)]
    · exact Nat.mod_eq_of_lt (by omega)
  have sum : (y + z) % m = if y + z < m then y + z else y + z - m := by
    split
    · next small => exact Nat.mod_eq_of_lt small
    · rw [Nat.mod_eq_sub_mod (by omega), Nat.mod_eq_of_lt (by omega)]
  rw [difference, sum]
  split <;> split <;> omega

private theorem eq_one_bit {x : Nat} (hx : x < 2 ^ 1) :
    Op.eq.meaning 1 1 x = x ∧ Op.eq.meaning 1 0 (Op.eq.meaning 1 0 x) = x := by
  obtain rfl | rfl : x = 0 ∨ x = 1 := by omega
  all_goals decide

theorem eq_of_isTrue {w : Word} (masked : w.Masked) (h : w.isTrue = true) : w = Word.ofBool true := by
  obtain ⟨value, width⟩ := w
  simp only [Word.isTrue, Bool.and_eq_true, beq_iff_eq, bne_iff_ne, ne_eq] at h
  obtain ⟨rfl, nonzero⟩ := h
  have fits : value.toNat < 2 ^ 1 := masked.2.2
  have positive : value.toNat ≠ 0 := fun zero => nonzero (UInt64.toNat_inj.mp zero)
  have one : value = 1 := UInt64.toNat_inj.mp (show value.toNat = 1 by omega)
  rw [one]
  rfl

theorem eq_of_isFalse {w : Word} (h : w.isFalse = true) : w = Word.ofBool false := by
  obtain ⟨value, width⟩ := w
  simp only [Word.isFalse, Bool.and_eq_true, beq_iff_eq] at h
  obtain ⟨rfl, rfl⟩ := h
  rfl

theorem isFalse_iff {e : Expr} : e.isFalse = true ↔ ∃ tag, e = const tag (Word.ofBool false) := by
  constructor
  · intro h
    cases e with
    | const tag w => exact ⟨tag, congrArg (const tag) (eq_of_isFalse h)⟩
    | _ => cases h
  · rintro ⟨tag, rfl⟩
    rfl

/-- A constant survives being cut and extended again when it has no bits to lose. -/
theorem extend_cut_eq_iff {c : Word} {width : UInt64} (le : width ≤ 64)
    (narrow : width.toNat ≤ c.width.toNat) :
    c = Word.ofNat ((Word.ofNat (c.value.toNat % 2 ^ width.toNat) width).value.toNat
        % 2 ^ c.width.toNat) c.width ↔ c.value.toNat % 2 ^ width.toNat = c.value.toNat := by
  have cut : c.value.toNat % 2 ^ width.toNat < 2 ^ width.toNat := Nat.mod_lt _ (Nat.two_pow_pos _)
  have small := Nat.lt_of_lt_of_le cut (two_pow_toNat_le le)
  have fits := Nat.lt_of_lt_of_le cut (Nat.pow_le_pow_right (by decide) narrow)
  rw [Word.value_ofNat small, Nat.mod_eq_of_lt fits]
  constructor
  · intro same
    rw [← Word.value_ofNat small c.width, ← same]
  · intro same
    rw [same, Word.ofNat_toNat]

/-- A constant that a zero extension can take is compared below the extension. -/
theorem eq_zext {source : Expr} (hs : source.WellFormed) (ρ : Valuation) {n c : Nat}
    (wider : source.width.toNat ≤ n) (hc : c < 2 ^ n) :
    Op.eq.meaning n c (source.meaning ρ) =
      if c % 2 ^ source.width.toNat = c then
        Op.eq.meaning source.width.toNat (c % 2 ^ source.width.toNat) (source.meaning ρ)
      else 0 := by
  have small := meaning_lt ρ hs
  have fits : source.meaning ρ < 2 ^ n :=
    Nat.lt_of_lt_of_le small (Nat.pow_le_pow_right (by decide) wider)
  rw [Op.meaning_eq hc fits]
  split
  · next cut => rw [Op.meaning_eq (Nat.mod_lt _ (Nat.two_pow_pos _)) small, cut]
  · next cut =>
    have apart : c ≠ source.meaning ρ := fun same => cut (Nat.mod_eq_of_lt (same ▸ small))
    simp only [apart, decide_false, Bool.toNat_false]

theorem eqConst_applies (tag : Tag) {c : Word} {e : Expr} (operands : Operands (const tag c) e) :
    Applies .eq (const tag c) e (eqConst tag c e) := by
  fun_induction eqConst tag c e with
  | case1 tag c tag' b =>
      rw [Word.eq_eq operands.left operands.right operands.same]
      exact operands.result .eq none
  | case2 tag c tag' lhs rhs holds =>
      obtain rfl := eq_of_isTrue operands.left holds
      exact operands.keepRight rfl fun ρ => (eq_one_bit (operands.right_lt ρ)).1
  | case3 tag c tag' lhs rhs fails both =>
      obtain ⟨no, lhs_no⟩ := Bool.and_eq_true_iff.mp both
      obtain rfl := eq_of_isFalse no
      obtain ⟨tag'', rfl⟩ := isFalse_iff.mp lhs_no
      obtain ⟨-, hl, hr, inner⟩ := operands.right
      have narrow : (1 : UInt64) = rhs.width := inner
      refine Denotes.builds ⟨hr, narrow.symm, List.Subset.refl _, fun ρ => ?_⟩
      have bit := meaning_lt ρ hr
      rw [← narrow] at bit
      exact (eq_one_bit bit).2.symm
  | case4 tag c tag' lhs rhs fails other => exact operands.node (.inr rfl)
  | case5 tag c tag' tag'' y z ih =>
      obtain ⟨-, hy, hz, inner⟩ := operands.right
      have same : c.width = y.width := operands.same
      have widths : (Word.result .sub c y).width = z.width := same.trans inner
      have rest : Operands (const none (Word.result .sub c y)) z :=
        ⟨Word.result_masked .sub y operands.left, hz, widths⟩
      rw [Word.fold_eq (.inl rfl) operands.left hy same]
      simp only [bind, Except.bind, checkWidths, widths, if_true]
      refine (ih _ rest).value_eq fun ρ => ?_
      have hc : c.value.toNat < 2 ^ c.width.toNat := operands.left.2.2
      have hy' : y.value.toNat < 2 ^ c.width.toNat := same ▸ hy.2.2
      rw [Op.meaning_eq (rest.left_lt ρ) (rest.right_lt ρ),
        Op.meaning_eq (operands.left_lt ρ) (operands.right_lt ρ)]
      simp only [meaning, Word.value_result .sub y operands.left, Op.meaning_sub hy', Op.meaning_add,
        Expr.width, ← same, difference_eq_iff hc hy' (rest.right_lt ρ)]
  | case6 tag c tag' source width ih =>
      obtain ⟨hs, wider, le⟩ := operands.right
      have same : c.width = width := operands.same
      have bounds := width_bounds hs
      have narrow : source.width.toNat ≤ c.width.toNat :=
        same ▸ Nat.le_of_lt (UInt64.lt_iff_toNat_lt.mp wider)
      have value := fun ρ => eq_zext hs ρ narrow operands.left.2.2
      rw [Word.resize_eq c bounds.1 bounds.2]
      simp only [bind, Except.bind]
      rw [Word.resize_eq _ operands.left.1 operands.left.2.1]
      simp only [extend_cut_eq_iff bounds.2 narrow]
      split
      · next fits =>
        have cut : (Word.ofNat (c.value.toNat % 2 ^ source.width.toNat) source.width).Masked :=
          Word.ofNat_masked bounds.1 bounds.2 (Nat.mod_lt _ (Nat.two_pow_pos _))
        have number : (Word.ofNat (c.value.toNat % 2 ^ source.width.toNat) source.width).value.toNat =
            c.value.toNat % 2 ^ source.width.toNat :=
          Word.value_ofNat (Nat.lt_of_le_of_lt (Nat.mod_le _ _) c.value.toNat_lt) _
        refine (ih _ ⟨cut, hs, rfl⟩).value_eq fun ρ => ?_
        simp only [meaning, Expr.width, value ρ, if_pos fits, Word.width_ofNat, number]
      · next fits =>
        exact Operands.answer rfl false fun ρ => (value ρ).trans (if_neg fits)
  | case7 tag c e => exact operands.node (.inr rfl)

theorem addOf_applies {lhs rhs : Expr} (operands : Operands lhs rhs) :
    Applies .add lhs rhs (addOf lhs rhs) := by
  obtain ⟨l, r, order, operands, lift⟩ := constFirst_operands .add operands rfl
  unfold addOf
  rw [order]
  apply lift
  dsimp only
  split
  · next narrow =>
    exact (xorOf_applies operands).of_one_bit operands narrow rfl
      fun hx hy => (Word.meaning_one_bit hx hy).1.symm
  split
  · exact addConst_applies _ operands
  · exact operands.node (.inl rfl)

theorem subOf_applies {lhs rhs : Expr} (operands : Operands lhs rhs) :
    Applies .sub lhs rhs (subOf lhs rhs) := by
  have bounds := width_bounds operands.left
  unfold subOf
  split
  · next alike =>
    have zero := denotes_number bounds.1 bounds.2 (Nat.two_pow_pos _) none
      (lhs.occurrences ++ rhs.occurrences)
    rw [constant, Word.make_eq bounds.1 bounds.2, UInt64.toNat_zero, Nat.zero_mod]
    refine (zero.value_eq fun ρ => ?_).builds
    have hy := operands.right_lt ρ
    rw [Op.meaning_sub hy, meaning_of_alike alike, Nat.sub_add_cancel (Nat.le_of_lt hy), Nat.mod_self]
  split
  · next narrow =>
    exact (xorOf_applies operands).of_one_bit operands narrow rfl
      fun hx hy => (Word.meaning_one_bit hx hy).2.1.symm
  split
  · next tag c _ =>
    have same : lhs.width = c.width := operands.same
    have masked : c.Masked := operands.right
    have zero : (Word.ofNat 0 c.width).Masked :=
      Word.ofNat_masked masked.1 masked.2.1 (Nat.two_pow_pos _)
    have opposite := Word.result_masked .sub c zero
    rw [Word.make_eq masked.1 masked.2.1, UInt64.toNat_zero, Nat.zero_mod]
    simp only [bind, Except.bind]
    rw [Word.sub_eq zero masked rfl]
    have value : (Word.result .sub (Word.ofNat 0 c.width) c).value.toNat =
        (2 ^ c.width.toNat - c.value.toNat) % 2 ^ c.width.toNat :=
      (Word.value_result .sub c zero).trans (Op.meaning_sub masked.2.2)
    have added := addConst_applies none ⟨opposite, operands.left, same.symm⟩
    unfold Applies
    rw [show Op.sub.resultWidth lhs.width = c.width from same, same]
    refine (added.mono (List.subset_append_left _ _)).value_eq fun ρ => ?_
    simp only [Op.meaning_add, Op.meaning_sub masked.2.2, meaning, value, Expr.width]
    exact Nat.mod_add_mod _ _ _
  · exact operands.node (.inl rfl)

theorem mulOf_applies {lhs rhs : Expr} (operands : Operands lhs rhs) :
    Applies .mul lhs rhs (.ok (mulOf lhs rhs)) := by
  obtain ⟨l, r, order, operands, lift⟩ := constFirst_operands .mul operands rfl
  unfold mulOf
  rw [order]
  apply lift
  dsimp only
  split
  · next narrow =>
    exact (andOf_applies operands).of_one_bit operands narrow rfl
      fun hx hy => (Word.meaning_one_bit hx hy).2.2.symm
  split
  · next tag c _ =>
    split
    · next one =>
      refine operands.keepRight operands.same fun ρ => ?_
      rw [Op.meaning_mul, meaning, one, UInt64.toNat_one, Nat.one_mul,
        Nat.mod_eq_of_lt (operands.right_lt ρ)]
    split
    · next zero =>
      refine operands.keepLeft rfl fun ρ => ?_
      rw [Op.meaning_mul, meaning, zero, UInt64.toNat_zero, Nat.zero_mul, Nat.zero_mod]
    · exact operands.node (.inl rfl)
  · exact operands.node (.inl rfl)

theorem eqOf_applies {lhs rhs : Expr} (operands : Operands lhs rhs) :
    Applies .eq lhs rhs (eqOf lhs rhs) := by
  obtain ⟨l, r, order, operands, lift⟩ := constFirst_operands .eq operands rfl
  unfold eqOf
  rw [order]
  apply lift
  split
  · next tag c r' pair =>
    cases pair
    exact eqConst_applies tag operands
  · next l' r' _ pair =>
    cases pair
    split
    · next alike =>
      refine Operands.answer rfl true fun ρ => ?_
      rw [Op.meaning_eq (operands.left_lt ρ) (operands.right_lt ρ), meaning_of_alike alike]
      simp
    · exact operands.node (.inr rfl)

theorem ultOf_applies {lhs rhs : Expr} (operands : Operands lhs rhs) :
    Applies .ult lhs rhs (.ok (ultOf lhs rhs)) := by
  unfold ultOf
  split
  · next alike =>
    refine Operands.answer rfl false fun ρ => ?_
    rw [Op.meaning_ult (operands.left_lt ρ) (operands.right_lt ρ), meaning_of_alike alike]
    simp
  · exact operands.node (.inr rfl)

theorem eq_const_of_word? {e : Expr} {w : Word} (h : e.word? = some w) : ∃ tag, e = const tag w := by
  cases e with
  | const tag w' => exact ⟨tag, congrArg (const tag) (Option.some.inj h)⟩
  | _ => cases h

theorem uleOf_applies {lhs rhs : Expr} (operands : Operands lhs rhs) :
    Applies .ule lhs rhs (.ok (uleOf lhs rhs)) := by
  unfold uleOf
  split
  · next settled =>
    refine Operands.answer rfl true fun ρ => ?_
    have le : lhs.meaning ρ ≤ rhs.meaning ρ := by
      simp only [Bool.or_eq_true, Option.any_eq_true, beq_iff_eq] at settled
      rcases settled with (⟨w, isWord, zero⟩ | ⟨w, isWord, ones⟩) | alike
      · obtain ⟨tag, rfl⟩ := eq_const_of_word? isWord
        rw [meaning, zero]
        exact Nat.zero_le _
      · obtain ⟨tag, rfl⟩ := eq_const_of_word? isWord
        have upper := operands.left_lt ρ
        rw [operands.same] at upper
        rw [meaning, allOnes_toNat operands.right ones]
        exact Nat.le_sub_one_of_lt upper
      · exact Nat.le_of_eq (meaning_of_alike alike ρ)
    rw [Op.meaning_ule (operands.left_lt ρ) (operands.right_lt ρ), decide_eq_true le]
  · exact operands.node (.inr rfl)

/-- A disequality is built as an equality compared with the one-bit zero. -/
theorem ne_applies {lhs rhs : Expr} (operands : Operands lhs rhs) :
    Applies .ne lhs rhs (do
      let equal ← eqOf lhs rhs
      checkWidths .eq 1 equal.width
      eqConst none (Word.ofBool false) equal) := by
  obtain ⟨equal, done, denotes⟩ := eqOf_applies operands
  have one : equal.width = 1 := denotes.width_eq
  have negated := eqConst_applies none (c := Word.ofBool false)
    ⟨by decide, denotes.wellFormed, one.symm⟩
  rw [done]
  simp only [bind, Except.bind, checkWidths, one, if_true]
  refine (negated.mono denotes.vars_subset).value_eq fun ρ => ?_
  have hx := operands.left_lt ρ
  have hy := operands.right_lt ρ
  rw [denotes.meaning_eq, Op.meaning_eq hx hy, Op.meaning_ne hx hy]
  simp only [ne_eq, decide_not]
  cases decide (lhs.meaning ρ = rhs.meaning ρ) <;> rfl

theorem folded_eq (tag tag' : Tag) (a b : Word) (f : Word.Folded) :
    ∃ tag'', folded (const tag a) (const tag' b) f = const tag'' (f.resolve a b) := by
  cases f with
  | lhs => exact ⟨tag, rfl⟩
  | rhs => exact ⟨tag', rfl⟩
  | word w => exact ⟨none, rfl⟩

theorem combine_applies {op : Op} (known : op.Known) {lhs rhs : Expr} (operands : Operands lhs rhs) :
    Applies op lhs rhs (combine op lhs rhs) := by
  unfold combine
  split
  · next tag a tag' b =>
    have word := Word.fold_eq known operands.left operands.right operands.same
    cases fold : Word.fold op a b with
    | error fault =>
        rw [fold] at word
        cases word
    | ok f =>
        rw [fold] at word
        obtain ⟨tag'', made⟩ := folded_eq tag tag' a b f
        have resolved : f.resolve a b = Word.result op a b := Except.ok.inj word
        rw [Except.map, made, resolved]
        exact operands.result op tag''
  · split
    · exact addOf_applies operands
    · exact subOf_applies operands
    · exact mulOf_applies operands
    · exact operands.node known
    · exact operands.node known
    · exact andOf_applies operands
    · exact orOf_applies operands
    · exact xorOf_applies operands
    · exact shiftOf_applies (.inl rfl) operands
    · exact shiftOf_applies (.inr rfl) operands
    · exact eqOf_applies operands
    · exact ne_applies operands
    · exact ultOf_applies operands
    · exact (ultOf_applies operands.swap).swap operands.same (fun _ => rfl) fun _ _ _ => rfl
    · exact uleOf_applies operands
    · exact (uleOf_applies operands.swap).swap operands.same (fun _ => rfl) fun _ _ _ => rfl
    · rcases known with h | h <;> cases h

theorem apply_applies {op : Op} (known : op.Known) {lhs rhs : Expr} (operands : Operands lhs rhs) :
    Applies op lhs rhs (apply op lhs rhs) := by
  rw [apply, checkWidths, if_pos operands.same]
  exact combine_applies known operands

/-- Applying a known operator to operands of one width never fails. The expression built is
    well-formed, of one bit for a comparison and of the operands' width otherwise, and it
    evaluates to the operator's result on the bit vectors that the operands evaluate to. -/
theorem apply_keeps_meaning {op : Op} (known : op.Known) {lhs rhs : Expr} (left : lhs.WellFormed)
    (right : rhs.WellFormed) (same : lhs.width = rhs.width) :
    Computes₂ (apply op lhs rhs) (if op.isCompare then 1 else lhs.width) lhs rhs (fun x y =>
      if op.isCompare then
        (op.comparison (BitVec.ofNat lhs.width.toNat x) (BitVec.ofNat lhs.width.toNat y)).toNat
      else (op.arithmetic (BitVec.ofNat lhs.width.toNat x) (BitVec.ofNat lhs.width.toNat y)).toNat) :=
  Builds.computes₂ left right (apply_applies known ⟨left, right, same⟩)

/-- A constant moves across a sum and then below a zero extension. -/
theorem apply_keeps_meaning_across_sum :
    let x : Expr := var none ⟨"x", 8⟩
    let sum : Expr := binary none .add (const none ⟨65535, 16⟩) (zext none x 16)
    sum.WellFormed ∧
      Computes₂ (apply .eq sum (const none ⟨6, 16⟩)) 1 sum (const none ⟨6, 16⟩)
        (fun x y => (BitVec.ofNat 16 x == BitVec.ofNat 16 y).toNat) :=
  ⟨by decide, apply_keeps_meaning (.inr rfl) (by decide) (by decide) rfl⟩

end Expr

end SymbolicMemory
