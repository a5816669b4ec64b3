import Mathlib
import SymbolicMemory.Proofs.Values

/-! # The extremes of a value

A solver that is right about some valuations decides what a value is in them: whether it is anything
at all, whether it is one thing only, and what is the least and the greatest. The two searches
come to an end whatever solutions the solver picks, and nothing wraps around on the way.
-/

namespace SymbolicMemory

namespace Value

/-- What the expression is in the admissible solutions of the constraints. -/
def attainable (v : Value) (admissible : Valuation → Prop) : Set UInt64 :=
  {x | ∃ ρ, admissible ρ ∧ (∀ c ∈ v.constraints, c.eval (.total ρ) = .ok (.ofBool true)) ∧
    v.expr.eval (.total ρ) = .ok ⟨x, v.expr.width⟩}

/-- A question about some values: it is answered as stated if there are any, it is found out if there
    are none, or the solver fails. -/
def Decides {α : Type} (question : Run α) (solver : Solver) (values : Set UInt64) (answers : α → Prop) : Prop :=
  ∀ session, (values.Nonempty ∧ ∃ a left, question session = .ok a left ∧ answers a) ∨
    (values = ∅ ∧ ∃ left, question session = .error (.error .unsat) left) ∨
    ∃ f left, question session = .error f left ∧ solver.Reports f

theorem Decides.answered {α : Type} {question : Run α} {solver : Solver} {values : Set UInt64} {answers : α → Prop}
    (decides : Decides question solver values answers) (some_ : values.Nonempty)
    (steady : ∀ f, ¬ solver.Reports f) (session : Session) :
    ∃ a left, question session = .ok a left ∧ answers a := by
  rcases decides session with ⟨_, answered⟩ | ⟨none_, _⟩ | ⟨f, _, _, reports⟩
  · exact answered
  · exact absurd none_ some_.ne_empty
  · exact absurd reports (steady f)

variable {v : Value} {solver : Solver} {known : List Var} {admissible : Valuation → Prop}

theorem Posed.mem_attainable (posed : v.Posed solver known admissible) (x : UInt64) :
    x ∈ v.attainable admissible ↔ v.Can admissible x := by
  apply exists_congr
  intro ρ
  rw [Exhaustive.holds_iff posed.conditions, Exhaustive.eval_total_iff posed.wellFormed]

theorem Posed.decides {α : Type} {question : Run α} {returns answers : α → Prop}
    (posed : v.Posed solver known admissible)
    (right : Ensures question returns (v.Fails solver admissible))
    (answered : ∀ a, returns a → (v.attainable admissible).Nonempty ∧ answers a) :
    Decides question solver (v.attainable admissible) answers := by
  intro session
  have here := right session
  cases result : question session with
  | ok a left =>
      rw [result] at here
      obtain ⟨some_, answers⟩ := answered a here
      exact .inl ⟨some_, a, left, rfl, answers⟩
  | error f left =>
      rw [result] at here
      rcases here with reports | ⟨rfl, none_⟩
      · exact .inr (.inr ⟨f, left, rfl, reports⟩)
      · refine .inr (.inl ⟨?_, left, rfl⟩)
        simpa [Set.eq_empty_iff_forall_notMem, posed.mem_attainable] using none_

section Questions

variable (posed : v.Posed solver known admissible) (symbolic : v.isSymbolic = true)

include posed symbolic

theorem any_decides : Decides v.any solver (v.attainable admissible) (· ∈ v.attainable admissible) := by
  refine posed.decides (any_right posed symbolic) fun x can => ?_
  rw [← posed.mem_attainable] at can
  exact ⟨⟨x, can⟩, can⟩

theorem min_decides : Decides v.min solver (v.attainable admissible) (IsLeast (v.attainable admissible)) := by
  refine posed.decides (min_right posed symbolic) fun least ⟨can, below⟩ => ?_
  simp only [← posed.mem_attainable] at can below
  exact ⟨⟨least, can⟩, can, below⟩

theorem max_decides : Decides v.max solver (v.attainable admissible) (IsGreatest (v.attainable admissible)) := by
  refine posed.decides (max_right posed symbolic) fun greatest ⟨can, above⟩ => ?_
  simp only [← posed.mem_attainable] at can above
  exact ⟨⟨greatest, can⟩, can, above⟩

theorem isUnique_decides : Decides v.isUnique solver (v.attainable admissible)
    (fun b => b = true ↔ (v.attainable admissible).ncard = 1) := by
  refine posed.decides (isUnique_right posed symbolic) fun b right => ?_
  simp only [← posed.mem_attainable] at right
  cases b with
  | true =>
      obtain ⟨x, only⟩ := right
      have single : v.attainable admissible = {x} := Set.ext only
      simp [single]
  | false =>
      obtain ⟨x, y, isX, isY, apart⟩ := right
      refine ⟨⟨x, isX⟩, ?_⟩
      simp only [Bool.false_eq_true, false_iff, Set.ncard_eq_one, not_exists]
      intro z single
      rw [single, Set.mem_singleton_iff] at isX isY
      exact apart (isY.trans isX.symm)

omit symbolic in
theorem searches_end {value : UInt64} (can : v.Can admissible value) (session : Session) :
    (v.leastFrom? 0 value session).isSome ∧ (v.greatestFrom? value (mask v.width) session).isSome := by
  obtain ⟨_, least, _⟩ := leastFrom?_right posed 0 value can (fun _ _ => UInt64.zero_le) session
  obtain ⟨_, greatest, _⟩ :=
    greatestFrom?_right posed value (mask v.width) can (fun _ => Can.le_mask posed) (mask_lt posed) session
  rw [least, greatest]
  exact ⟨rfl, rfl⟩

end Questions

/-- With a solver that is right, the questions about a value are decided: what it can be at all, what is
    the least and what the greatest, and whether it can be one thing only. Both searches end, and
    no step of a search wraps around. -/
theorem extremes_exact (solver_eq : v.solver = some solver) (symbolic : v.isSymbolic = true)
    (wf : v.expr.WellFormed) (conditions : ∀ c ∈ v.constraints, c.Condition)
    (one : Vars.OneWidth ((v.expr :: v.constraints).flatMap Expr.occurrences))
    (right : solver.Right ((v.expr :: v.constraints).flatMap Expr.occurrences) admissible) :
    Decides v.any solver (v.attainable admissible) (· ∈ v.attainable admissible) ∧
    Decides v.min solver (v.attainable admissible) (IsLeast (v.attainable admissible)) ∧
    Decides v.max solver (v.attainable admissible) (IsGreatest (v.attainable admissible)) ∧
    Decides v.isUnique solver (v.attainable admissible)
      (fun b => b = true ↔ (v.attainable admissible).ncard = 1) ∧
    (∀ session value left, v.any session = .ok value left →
      (v.leastFrom? 0 value left).isSome ∧ (v.greatestFrom? value (mask v.width) left).isSome) ∧
    ∀ lo hi : UInt64, lo < hi → (hi - lo).toNat = hi.toNat - lo.toNat ∧
      (middle lo hi).toNat = lo.toNat + (hi.toNat - lo.toNat) / 2 ∧
      (middle lo hi + 1).toNat = (middle lo hi).toNat + 1 := by
  have posed : v.Posed solver _ admissible := ⟨solver_eq, right, one, wf, conditions, List.Subset.refl _⟩
  refine ⟨any_decides posed symbolic, min_decides posed symbolic, max_decides posed symbolic,
    isUnique_decides posed symbolic, fun session value left found => ?_, fun lo hi less => ?_⟩
  · have can := any_right posed symbolic session
    rw [found] at can
    exact searches_end posed can left
  · exact ⟨UInt64.toNat_sub_of_le _ _ (UInt64.le_of_lt less), middle_toNat less, middle_succ_toNat less⟩

end Value

namespace Solver

/-- A solver that tries some values in turn, each for all variables at once. -/
def trying (candidates : List UInt64) : Solver where
  solve _ constraints vars :=
    .ok ((candidates.find? fun x => constraints.all fun c => c.meaning (fun _ => x) = 1).map
      fun x => vars.map fun _ => x)

theorem trying_right (candidates : List UInt64) (known : List Var) :
    (trying candidates).Right known fun ρ => ∃ x ∈ candidates, ρ = fun _ => x := by
  intro calls constraints vars _ _ _
  cases found : candidates.find? fun x => constraints.all fun c => c.meaning (fun _ => x) = 1 with
  | some x =>
      refine .inl ⟨fun _ => x, ?_, ⟨x, List.mem_of_find?_eq_some found, rfl⟩, ?_⟩
      · simp only [trying, found, Option.map_some]
      · simpa [Holds] using List.find?_some found
  | none =>
      refine .inr (.inl ⟨?_, ?_⟩)
      · simp only [trying, found, Option.map_none]
      · rintro _ ⟨x, member, rfl⟩ holds
        exact List.find?_eq_none.mp found x member (by simpa [Holds] using holds)

theorem trying_never_reports (candidates : List UInt64) (f : Failure) : ¬ (trying candidates).Reports f := by
  rintro ⟨e, ⟨_, _, _, failed, _⟩ | ⟨_, _, _, _, _, offered, _⟩⟩
  · cases failed
  · cases offered

end Solver

/-- The greatest numbers there are, tried out of order. -/
theorem Value.extremes_exact_near_top :
    let candidates : List UInt64 := [18446744073709551614, 18446744073709551615, 18446744073709551613]
    let v : Value := ⟨some (.trying candidates), [], .var none ⟨"x", 64⟩⟩
    (∃ left, v.min {} = .ok 18446744073709551613 left) ∧ (∃ left, v.max {} = .ok 18446744073709551615 left) ∧
      ∃ left, v.isUnique {} = .ok false left := by
  intro candidates v
  have wf : v.expr.WellFormed := by decide
  have right := Solver.trying_right candidates ((v.expr :: v.constraints).flatMap Expr.occurrences)
  obtain ⟨_, min_, max_, unique, _⟩ := extremes_exact (v := v) rfl rfl wf (by simp [v]) (by decide) right
  have values : v.attainable (fun ρ => ∃ x ∈ candidates, ρ = fun _ => x) = {x | x ∈ candidates} := by
    ext x
    simp only [attainable, Set.mem_ofPred_eq, Exhaustive.eval_total_iff wf]
    constructor
    · rintro ⟨_, ⟨y, member, rfl⟩, _, value⟩
      have same : y = x := UInt64.toNat_inj.mp ((Nat.mod_eq_of_lt y.toNat_lt).symm.trans value)
      exact same ▸ member
    · intro member
      exact ⟨_, ⟨x, member, rfl⟩, by simp [v], Nat.mod_eq_of_lt x.toNat_lt⟩
  rw [values] at min_ max_ unique
  have some_ : {x | x ∈ candidates}.Nonempty := ⟨18446744073709551614, by simp [candidates]⟩
  have steady := Solver.trying_never_reports candidates
  obtain ⟨least, left, foundMin, isLeast⟩ := min_.answered some_ steady {}
  obtain ⟨greatest, left', foundMax, isGreatest⟩ := max_.answered some_ steady {}
  obtain ⟨b, left'', foundUnique, isUnique⟩ := unique.answered some_ steady {}
  have low : IsLeast {x | x ∈ candidates} 18446744073709551613 := by
    refine ⟨by simp [candidates], fun x member => ?_⟩
    simp only [candidates, Set.mem_ofPred_eq, List.mem_cons, List.not_mem_nil, or_false] at member
    rcases member with rfl | rfl | rfl <;> simp
  have high : IsGreatest {x | x ∈ candidates} 18446744073709551615 := by
    refine ⟨by simp [candidates], fun x member => ?_⟩
    simp only [candidates, Set.mem_ofPred_eq, List.mem_cons, List.not_mem_nil, or_false] at member
    rcases member with rfl | rfl | rfl <;> simp
  have three : {x | x ∈ candidates}.ncard = 3 := by
    rw [← List.coe_toFinset, Set.ncard_coe_finset]
    decide
  obtain rfl : least = 18446744073709551613 := UInt64.le_antisymm (isLeast.2 low.1) (low.2 isLeast.1)
  obtain rfl : greatest = 18446744073709551615 :=
    UInt64.le_antisymm (high.2 isGreatest.1) (isGreatest.2 high.1)
  obtain rfl : b = false := by simpa [three] using isUnique
  exact ⟨⟨left, foundMin⟩, ⟨left', foundMax⟩, ⟨left'', foundUnique⟩⟩

end SymbolicMemory
