import SymbolicMemory.Proofs.Building

/-! # Conditions

A condition is a well-formed expression of one bit. Conjunctions and disjunctions are built
without a fault and hold where their parts do, also where the parts are taken apart again.
-/

namespace SymbolicMemory

/-- Every listed constraint stands for truth. -/
def Holds (ρ : Valuation) (constraints : List Expr) : Prop := ∀ c ∈ constraints, c.meaning ρ = 1

namespace Expr

/-- A well-formed one-bit expression. -/
structure Condition (c : Expr) : Prop where
  wellFormed : c.WellFormed
  one_bit : c.width = 1

instance (c : Expr) : Decidable c.Condition :=
  decidable_of_iff (c.WellFormed ∧ c.width = 1) ⟨fun h => ⟨h.1, h.2⟩, fun h => ⟨h.1, h.2⟩⟩

theorem Condition.meaning_cases {c : Expr} (h : c.Condition) (ρ : Valuation) :
    c.meaning ρ = 0 ∨ c.meaning ρ = 1 := by
  have small := meaning_lt ρ h.wellFormed
  rw [h.one_bit] at small
  have bit : c.meaning ρ < 2 := small
  omega

theorem Condition.value_isFalse {c : Expr} (h : c.Condition) (ρ : Valuation) :
    (c.value ρ).isFalse = true ↔ c.meaning ρ = 0 := by
  have zero : (c.value ρ).value = 0 ↔ c.meaning ρ = 0 := by
    rw [← UInt64.toNat_inj, value_toNat ρ h.wellFormed, UInt64.toNat_zero]
  rw [Word.isFalse, Bool.and_eq_true, beq_iff_eq, beq_iff_eq, zero]
  exact and_iff_right h.one_bit

/-- Evaluation to the bit that is set. -/
theorem Condition.eval_true_iff {c : Expr} (h : c.Condition) {a : Assignment} (binds : a.Binds c) :
    c.eval a = .ok (Word.ofBool true) ↔ c.meaning a.valuation = 1 := by
  rw [eval_eq h.wellFormed binds, value, h.one_bit, Except.ok.injEq]
  rcases h.meaning_cases a.valuation with bit | bit <;> rw [bit] <;> decide

/-- A condition over some variables that holds where it is stated to. -/
structure States (e : Expr) (vars : List Var) (holds : Valuation → Prop) : Prop where
  condition : e.Condition
  vars_subset : e.occurrences ⊆ vars
  holds_iff : ∀ ρ, e.meaning ρ = 1 ↔ holds ρ

/-- Building succeeds, with a condition that holds where it is stated to. -/
def BuildsWhen (built : Except Fault Expr) (vars : List Var) (holds : Valuation → Prop) : Prop :=
  ∃ e, built = .ok e ∧ e.States vars holds

theorem BuildsWhen.congr {built : Except Fault Expr} {vars vars' : List Var}
    {holds holds' : Valuation → Prop} (h : BuildsWhen built vars holds) (sub : vars ⊆ vars')
    (same : ∀ ρ, holds ρ ↔ holds' ρ) : BuildsWhen built vars' holds' := by
  obtain ⟨e, done, states⟩ := h
  exact ⟨e, done, states.condition, List.Subset.trans states.vars_subset sub,
    fun ρ => (states.holds_iff ρ).trans (same ρ)⟩

/-- A comparison of well-formed operands. -/
theorem Operands.compare_when {op : Op} {lhs rhs : Expr} (operands : Operands lhs rhs)
    (compare : op.isCompare = true) :
    BuildsWhen (apply op lhs rhs) (lhs.occurrences ++ rhs.occurrences) (fun ρ =>
      op.meaning lhs.width.toNat (lhs.meaning ρ) (rhs.meaning ρ) = 1) := by
  obtain ⟨e, built, denotes⟩ := apply_applies (.inr compare) operands
  have one_bit : e.width = 1 := by
    rw [denotes.width_eq, Op.resultWidth, if_pos compare]
  refine ⟨e, built, ⟨denotes.wellFormed, one_bit⟩, denotes.vars_subset, fun ρ => ?_⟩
  rw [denotes.meaning_eq]

/-- A comparison to a constant, which is cut to the width of the other operand. -/
theorem constant_when (op : Op) (compare : op.isCompare = true) {e : Expr} (wf : e.WellFormed)
    (x : UInt64) :
    BuildsWhen (do apply op e (← constant x e.width)) e.occurrences (fun ρ =>
      op.meaning e.width.toNat (e.meaning ρ) (x.toNat % 2 ^ e.width.toNat) = 1) := by
  have bounds := width_bounds wf
  have fits : x.toNat % 2 ^ e.width.toNat < 2 ^ e.width.toNat := Nat.mod_lt _ (Nat.two_pow_pos _)
  have number := denotes_number bounds.1 bounds.2 fits none e.occurrences
  have made : constant x e.width = .ok (const none (Word.ofNat (x.toNat % 2 ^ e.width.toNat) e.width)) := by
    rw [constant, Word.make_eq bounds.1 bounds.2]
    rfl
  have operands : Operands e (const none (Word.ofNat (x.toNat % 2 ^ e.width.toNat) e.width)) :=
    ⟨wf, number.wellFormed, number.width_eq.symm⟩
  rw [made]
  refine (operands.compare_when compare).congr ?_ fun ρ => ?_
  · exact List.append_subset.mpr ⟨List.Subset.refl _, number.vars_subset⟩
  · rw [number.meaning_eq]

theorem Operands.eq_when {lhs rhs : Expr} (operands : Operands lhs rhs) :
    BuildsWhen (apply .eq lhs rhs) (lhs.occurrences ++ rhs.occurrences)
      (fun ρ => lhs.meaning ρ = rhs.meaning ρ) := by
  refine (operands.compare_when rfl).congr (List.Subset.refl _) fun ρ => ?_
  rw [Op.meaning_eq (operands.left_lt ρ) (operands.right_lt ρ)]
  by_cases same : lhs.meaning ρ = rhs.meaning ρ <;> simp [same]

section Connectives

variable {lhs rhs : Expr} (left : lhs.Condition) (right : rhs.Condition)

include left right

theorem Condition.operands : Operands lhs rhs :=
  ⟨left.wellFormed, right.wellFormed, left.one_bit.trans right.one_bit.symm⟩

theorem Condition.and_meaning (ρ : Valuation) :
    Op.and.meaning lhs.width.toNat (lhs.meaning ρ) (rhs.meaning ρ) = 1 ↔
      lhs.meaning ρ = 1 ∧ rhs.meaning ρ = 1 := by
  have operands := left.operands right
  rw [Op.meaning_and (operands.left_lt ρ) (operands.right_lt ρ)]
  rcases left.meaning_cases ρ with l | l <;> rcases right.meaning_cases ρ with r | r <;>
    rw [l, r] <;> decide

theorem Condition.and_when :
    BuildsWhen (apply .and lhs rhs) (lhs.occurrences ++ rhs.occurrences)
      (fun ρ => lhs.meaning ρ = 1 ∧ rhs.meaning ρ = 1) := by
  have known : Op.and.Known := .inl rfl
  obtain ⟨e, built, denotes⟩ := apply_applies known (left.operands right)
  refine ⟨e, built, ⟨denotes.wellFormed, denotes.width_eq.trans left.one_bit⟩, denotes.vars_subset,
    fun ρ => ?_⟩
  rw [denotes.meaning_eq, left.and_meaning right]

theorem Condition.or_when :
    BuildsWhen (apply .or lhs rhs) (lhs.occurrences ++ rhs.occurrences)
      (fun ρ => lhs.meaning ρ = 1 ∨ rhs.meaning ρ = 1) := by
  have known : Op.or.Known := .inl rfl
  have operands := left.operands right
  obtain ⟨e, built, denotes⟩ := apply_applies known operands
  refine ⟨e, built, ⟨denotes.wellFormed, denotes.width_eq.trans left.one_bit⟩, denotes.vars_subset,
    fun ρ => ?_⟩
  rw [denotes.meaning_eq, Op.meaning_or (operands.left_lt ρ) (operands.right_lt ρ)]
  rcases left.meaning_cases ρ with l | l <;> rcases right.meaning_cases ρ with r | r <;>
    simp only [l, r] <;> decide

end Connectives

/-- The conjunction of conditions after the first. -/
theorem foldlM_and_when {start : Expr} (first : start.Condition) {es : List Expr}
    (conditions : ∀ c ∈ es, c.Condition) :
    BuildsWhen (es.foldlM (apply .and) start) ((start :: es).flatMap occurrences)
      (fun ρ => Holds ρ (start :: es)) := by
  induction es generalizing start with
  | nil => exact ⟨start, rfl, first, by simp, fun ρ => by simp [Holds]⟩
  | cons c es ih =>
      obtain ⟨here, later⟩ := List.forall_mem_cons.mp conditions
      obtain ⟨both, built, states⟩ := first.and_when here
      obtain ⟨e, builtAll, statesAll⟩ := ih states.condition later
      refine ⟨e, ?_, statesAll.condition, ?_, fun ρ => ?_⟩
      · rw [List.foldlM_cons, built]
        exact builtAll
      · refine List.Subset.trans statesAll.vars_subset ?_
        simp only [List.flatMap_cons, ← List.append_assoc]
        exact List.append_subset.mpr ⟨List.subset_append_of_subset_left _ states.vars_subset,
          List.subset_append_right _ _⟩
      · simp only [statesAll.holds_iff, Holds, List.forall_mem_cons, states.holds_iff, and_assoc]

theorem all_when {es : List Expr} (conditions : ∀ c ∈ es, c.Condition) :
    BuildsWhen (all es) (es.flatMap occurrences) (fun ρ => Holds ρ es) := by
  have truth : (ofBool true).Condition := by decide
  refine (foldlM_and_when truth conditions).congr (List.Subset.refl _) fun ρ => ?_
  exact List.forall_mem_cons.trans (and_iff_right rfl)

theorem any_when {es : List Expr} (conditions : ∀ c ∈ es, c.Condition) :
    BuildsWhen (any es) (es.flatMap occurrences) (fun ρ => ∃ c ∈ es, c.meaning ρ = 1) := by
  cases es with
  | nil =>
      refine ⟨ofBool false, rfl, by decide, List.nil_subset _, fun ρ => ?_⟩
      simp [ofBool, meaning, Word.ofBool]
  | cons start es =>
      rw [any]
      induction es generalizing start with
      | nil =>
          exact ⟨start, rfl, (List.forall_mem_cons.mp conditions).1, by simp, fun ρ => by simp⟩
      | cons c es ih =>
          obtain ⟨first, rest⟩ := List.forall_mem_cons.mp conditions
          obtain ⟨here, later⟩ := List.forall_mem_cons.mp rest
          obtain ⟨either, built, states⟩ := first.or_when here
          obtain ⟨e, builtAny, statesAny⟩ :=
            ih either (List.forall_mem_cons.mpr ⟨states.condition, later⟩)
          refine ⟨e, ?_, statesAny.condition, ?_, fun ρ => ?_⟩
          · rw [List.foldlM_cons, built]
            exact builtAny
          · refine List.Subset.trans statesAny.vars_subset ?_
            simp only [List.flatMap_cons, ← List.append_assoc]
            exact List.append_subset.mpr ⟨List.subset_append_of_subset_left _ states.vars_subset,
              List.subset_append_right _ _⟩
          · simp only [statesAny.holds_iff, List.mem_cons, exists_eq_or_imp, states.holds_iff, or_assoc]

/-- Anything but a conjunction is not taken apart. -/
theorem conjuncts_alone {e : Expr} (other : ∀ tag lhs rhs, e ≠ .binary tag .and lhs rhs) :
    e.conjuncts = [e] := by
  unfold Expr.conjuncts
  split
  · exact absurd rfl (other _ _ _)
  · rfl

/-- A condition is taken apart into conditions that hold together where it holds. -/
theorem Condition.conjuncts {e : Expr} (condition : e.Condition) :
    (∀ c ∈ e.conjuncts, c.Condition) ∧ ∀ ρ, Holds ρ e.conjuncts ↔ e.meaning ρ = 1 := by
  induction e using Expr.conjuncts.induct with
  | case1 tag lhs rhs bit ihl ihr =>
      obtain ⟨_, left, right, same⟩ := condition.wellFormed
      have leftBit : lhs.Condition := ⟨left, bit⟩
      have rightBit : rhs.Condition := ⟨right, same.symm.trans bit⟩
      obtain ⟨leftParts, leftHolds⟩ := ihl leftBit
      obtain ⟨rightParts, rightHolds⟩ := ihr rightBit
      rw [Expr.conjuncts, if_pos bit]
      refine ⟨List.forall_mem_append.mpr ⟨leftParts, rightParts⟩, fun ρ => ?_⟩
      rw [Holds, List.forall_mem_append, meaning, leftBit.and_meaning rightBit]
      exact and_congr (leftHolds ρ) (rightHolds ρ)
  | case2 tag lhs rhs wide =>
      rw [Expr.conjuncts, if_neg wide]
      exact ⟨by simpa using condition, fun ρ => by simp [Holds]⟩
  | case3 e other =>
      rw [conjuncts_alone other]
      exact ⟨by simpa using condition, fun ρ => by simp [Holds]⟩

theorem conjuncts_vars {e c : Expr} (member : c ∈ e.conjuncts) : c.occurrences ⊆ e.occurrences := by
  induction e using Expr.conjuncts.induct with
  | case1 tag lhs rhs bit ihl ihr =>
      rw [Expr.conjuncts, if_pos bit] at member
      rcases List.mem_append.mp member with left | right
      · exact List.subset_append_of_subset_left _ (ihl left)
      · exact List.subset_append_of_subset_right _ (ihr right)
  | case2 tag lhs rhs wide =>
      rw [Expr.conjuncts, if_neg wide] at member
      rw [List.mem_singleton.mp member]
      exact List.Subset.refl _
  | case3 e other =>
      rw [conjuncts_alone other] at member
      rw [List.mem_singleton.mp member]
      exact List.Subset.refl _

end Expr

end SymbolicMemory
