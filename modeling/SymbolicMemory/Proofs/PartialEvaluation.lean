import SymbolicMemory.Proofs.Meaning

/-! # Partial evaluation

Under a partial assignment, evaluation answers only what every completion of the assignment
agrees on, and it is silent only about an expression with an open variable.
-/

namespace SymbolicMemory

namespace Assignment

/-- The valuation completes the assignment. -/
def Agrees (a : Assignment) (ρ : Valuation) : Prop := ∀ name x, a name = some x → ρ name = x

theorem set_same (a : Assignment) (name : String) (x : UInt64) : a.set name x name = some x :=
  if_pos rfl

theorem set_other (a : Assignment) {name other : String} (apart : other ≠ name) (x : UInt64) :
    a.set name x other = a other :=
  if_neg apart

theorem agrees_valuation (a : Assignment) : a.Agrees a.valuation := by
  intro name x known
  rw [valuation, known, Option.getD_some]

theorem Agrees.set {a : Assignment} {ρ : Valuation} (agrees : a.Agrees ρ) {name : String}
    {x : UInt64} (value : ρ name = x) : (a.set name x).Agrees ρ := by
  intro other y known
  by_cases same : other = name
  · rw [same, set_same] at known
    rw [same, value, Option.some.inj known]
  · rw [set_other a same] at known
    exact agrees other y known

end Assignment

namespace Expr

/-- An answer under a partial assignment: the value under every completion, or none because a
    variable is open. -/
def Settles (a : Assignment) (e : Expr) : Option Word → Prop
  | some w => ∀ ρ, a.Agrees ρ → w = e.value ρ
  | none => ∃ v ∈ e.occurrences, a v.name = none

/-- An open operand leaves the whole expression open. -/
theorem Settles.of_open {a : Assignment} {source e : Expr} (isOpen : source.Settles a none)
    (vars : source.occurrences ⊆ e.occurrences) : e.Settles a none := by
  obtain ⟨v, member, unset⟩ := isOpen
  exact ⟨v, vars member, unset⟩

/-- An operand that decides a conjunction or disjunction alone is its result. -/
theorem meaning_of_decides {op : Op} {lhs : Expr} {x : Nat} (hx : x < 2 ^ lhs.width.toNat)
    (h : decides op lhs (Word.ofNat x lhs.width) = true) :
    op.resultWidth lhs.width = lhs.width ∧ ∀ y < 2 ^ lhs.width.toNat,
      op.meaning lhs.width.toNat x y = x ∧ op.meaning lhs.width.toNat y x = x := by
  have one : lhs.width = 1 := by
    cases op with
    | and | or => exact beq_iff_eq.mp (Bool.and_eq_true_iff.mp h).2
    | _ => cases h
  rw [one] at hx h ⊢
  have bits : ∀ {n : Nat}, n < 2 ^ 1 → n = 0 ∨ n = 1 := by omega
  refine ⟨ite_self 1, fun y hy => ?_⟩
  rcases bits hx with rfl | rfl <;> rcases bits hy with rfl | rfl <;>
    cases op <;> simp_all [decides, Word.isFalse, Word.isTrue, Word.ofNat] <;> decide

theorem binary_absorbed {tag : Tag} {op : Op} {lhs rhs : Expr} {ρ : Valuation} {x : Nat}
    (width : op.resultWidth lhs.width = lhs.width)
    (absorbed : op.meaning lhs.width.toNat (lhs.meaning ρ) (rhs.meaning ρ) = x) :
    (binary tag op lhs rhs).value ρ = Word.ofNat x lhs.width := by
  have node : (binary tag op lhs rhs).value ρ =
      Word.ofNat (op.meaning lhs.width.toNat (lhs.meaning ρ) (rhs.meaning ρ))
        (op.resultWidth lhs.width) := rfl
  rw [node, absorbed, width]

/-- An answer that is computed from settled operands is settled. -/
theorem settles_some {a : Assignment} {e : Expr} {built : Except Fault Word}
    (h : ∀ ρ, a.Agrees ρ → built = .ok (e.value ρ)) :
    ∃ r, built.map some = .ok r ∧ e.Settles a r := by
  have now := h a.valuation a.agrees_valuation
  refine ⟨some (e.value a.valuation), by rw [now]; rfl, fun ρ agrees => ?_⟩
  exact Except.ok.inj (now.symm.trans (h ρ agrees))

/-- An answer that is computed from one operand, if that is settled. -/
theorem settles_of_source {a : Assignment} {source e : Expr} (compute : Word → Except Fault Word)
    (settled : ∃ inner, source.evalPartial a = .ok inner ∧ source.Settles a inner)
    (computes : ∀ ρ, compute (source.value ρ) = .ok (e.value ρ))
    (vars : source.occurrences ⊆ e.occurrences) :
    ∃ r, (match source.evalPartial a with
      | .error fault => Except.error fault
      | .ok none => Except.ok none
      | .ok (some w) => (compute w).map some) = .ok r ∧ e.Settles a r := by
  obtain ⟨inner, evaluated, settles⟩ := settled
  rw [evaluated]
  cases inner with
  | none => exact ⟨none, rfl, settles.of_open vars⟩
  | some w => exact settles_some fun ρ agrees => settles ρ agrees ▸ computes ρ

/-- Partial evaluation never fails, and its answers are right. -/
theorem evalPartial_settles (a : Assignment) {e : Expr} (wf : e.WellFormed) :
    ∃ r, e.evalPartial a = .ok r ∧ e.Settles a r := by
  induction e with
  | const tag w => exact ⟨_, rfl, fun ρ _ => (Word.ofNat_toNat w).symm⟩
  | var tag v =>
      simp only [evalPartial]
      cases known : a v.name with
      | none => exact ⟨none, rfl, v, List.mem_singleton.mpr rfl, known⟩
      | some x => exact settles_some fun ρ agrees => agrees v.name x known ▸ make_value ρ wf
  | concat tag msb lsb ihm ihl =>
      obtain ⟨high, highEval, highSettles⟩ := ihm wf.1
      obtain ⟨low, lowEval, lowSettles⟩ := ihl wf.2.1
      simp only [evalPartial, highEval, lowEval]
      cases high with
      | none => exact ⟨none, rfl, highSettles.of_open (List.subset_append_left _ _)⟩
      | some h =>
          cases low with
          | none => exact ⟨none, rfl, lowSettles.of_open (List.subset_append_right _ _)⟩
          | some l =>
              exact settles_some fun ρ agrees => by
                rw [highSettles ρ agrees, lowSettles ρ agrees, concat_value ρ wf]
  | extract tag source offset width ih =>
      rw [evalPartial]
      exact settles_of_source (·.extract offset width) (ih wf.1) (fun ρ => extract_value ρ wf)
        (List.Subset.refl _)
  | not tag source ih =>
      rw [evalPartial]
      exact settles_of_source Word.not (ih wf) (fun ρ => not_value ρ wf) (List.Subset.refl _)
  | zext tag source width ih =>
      rw [evalPartial]
      exact settles_of_source (·.resize width) (ih wf.1) (fun ρ => zext_value ρ wf)
        (List.Subset.refl _)
  | binary tag op lhs rhs ihl ihr =>
      obtain ⟨left, leftEval, leftSettles⟩ := ihl wf.2.1
      obtain ⟨right, rightEval, rightSettles⟩ := ihr wf.2.2.1
      have rightLt := fun ρ => wf.2.2.2 ▸ meaning_lt ρ wf.2.2.1
      simp only [evalPartial, leftEval, rightEval]
      split
      · next decided =>
        obtain ⟨l, rfl, decides⟩ := (Option.any_eq_true _ _).mp decided
        refine ⟨_, rfl, fun ρ agrees => ?_⟩
        rw [leftSettles ρ agrees] at decides ⊢
        obtain ⟨width, absorbs⟩ := meaning_of_decides (meaning_lt ρ wf.2.1) decides
        exact (binary_absorbed width (absorbs _ (rightLt ρ)).1).symm
      split
      · next decided =>
        obtain ⟨r, rfl, decides⟩ := (Option.any_eq_true _ _).mp decided
        refine ⟨_, rfl, fun ρ agrees => ?_⟩
        rw [rightSettles ρ agrees] at decides ⊢
        rw [value, ← wf.2.2.2] at decides ⊢
        obtain ⟨width, absorbs⟩ := meaning_of_decides (rightLt ρ) decides
        exact (binary_absorbed width (absorbs _ (meaning_lt ρ wf.2.1)).2).symm
      cases left with
      | none => exact ⟨none, rfl, leftSettles.of_open (List.subset_append_left _ _)⟩
      | some l =>
          cases right with
          | none => exact ⟨none, rfl, rightSettles.of_open (List.subset_append_right _ _)⟩
          | some r =>
              exact settles_some fun ρ agrees => by
                rw [leftSettles ρ agrees, rightSettles ρ agrees, binary_value ρ wf]

end Expr

end SymbolicMemory
