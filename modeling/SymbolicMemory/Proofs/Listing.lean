import Mathlib
import SymbolicMemory.Proofs.Concretization

/-! # Listing what a value can be

Distinct values of an expression are listed in two ways: an exhaustive search gathers them all at
once, and any other solver is asked for one after the other, with those it gave before ruled out.
Both lists are as long as the limit allows and the values suffice, so they agree wherever the
limit leaves room for all of them.
-/

namespace SymbolicMemory

/-- Distinct members of a set: as many as there is room for, or else all of them. -/
structure Fills (room : Nat) (possible : Set UInt64) (values : List UInt64) : Prop where
  distinct : values.Nodup
  members : ∀ x ∈ values, x ∈ possible
  complete : values.length = room ∨ values.length < room ∧ ∀ x ∈ possible, x ∈ values

namespace Fills

variable {room : Nat} {possible : Set UInt64} {values : List UInt64}

theorem nil (empty : ∀ x, x ∉ possible) : Fills (room + 1) possible [] where
  distinct := .nil
  members := by simp
  complete := .inr ⟨Nat.succ_pos room, fun x member => absurd member (empty x)⟩

theorem cons {x : UInt64} (member : x ∈ possible)
    (rest : Fills room {y | y ∈ possible ∧ y ≠ x} values) : Fills (room + 1) possible (x :: values) where
  distinct := List.nodup_cons.mpr ⟨fun again => (rest.members x again).2 rfl, rest.distinct⟩
  members := by
    simp only [List.mem_cons, forall_eq_or_imp]
    exact ⟨member, fun y listed => (rest.members y listed).1⟩
  complete := by
    simp only [List.length_cons, List.mem_cons]
    rcases rest.complete with full | ⟨less, all⟩
    · exact .inl (by omega)
    · refine .inr ⟨by omega, fun y possible => ?_⟩
      by_cases same : y = x
      · exact .inl same
      · exact .inr (all y ⟨possible, same⟩)

theorem ncard_values (distinct : values.Nodup) : {x | x ∈ values}.ncard = values.length := by
  rw [← List.toFinset_card_of_nodup distinct, ← Set.ncard_coe_finset, List.coe_toFinset]

theorem length_eq (fills : Fills room possible values) : values.length = min room possible.ncard := by
  have count := ncard_values fills.distinct
  have sub : {x | x ∈ values} ⊆ possible := fills.members
  rcases fills.complete with full | ⟨less, all⟩
  · have fewer := Set.ncard_le_ncard sub
    omega
  · rw [sub.antisymm all] at count
    omega

theorem mem_iff (fills : Fills room possible values) (enough : possible.ncard ≤ room) (x : UInt64) :
    x ∈ values ↔ x ∈ possible := by
  have count := ncard_values fills.distinct
  have sub : {x | x ∈ values} ⊆ possible := fills.members
  rcases fills.complete with full | ⟨_, all⟩
  · have same : {x | x ∈ values} = possible := Set.eq_of_subset_of_ncard_le sub (by omega)
    exact Set.ext_iff.mp same x
  · exact ⟨fills.members x, all x⟩

/-- What a search lists below a limit. -/
theorem of_limit {limit : Int} (positive : 0 < limit) (ascending : values.Pairwise (· < ·))
    (listed : values.length < limit ∧ (∀ x, x ∈ values ↔ x ∈ possible) ∨
      values.length = limit ∧ ∀ x ∈ values, x ∈ possible) : Fills limit.toNat possible values where
  distinct := ascending.imp UInt64.ne_of_lt
  members := by
    rcases listed with ⟨_, all⟩ | ⟨_, members⟩
    · exact fun x => (all x).mp
    · exact members
  complete := by
    rcases listed with ⟨less, all⟩ | ⟨full, _⟩
    · exact .inr ⟨by omega, fun x => (all x).mpr⟩
    · exact .inl (by omega)

end Fills

namespace Exhaustive

/-- Enumeration lists, in ascending order, as many feasible values as the limit allows and as there
    are; where it gives no list, it has run out of steps. -/
theorem enumerate_exact (s : Exhaustive) {constraints : List Expr} {e : Expr} {limit : Int}
    (positive : 0 < limit) (conditions : ∀ c ∈ constraints, c.Condition) (wf : e.WellFormed)
    (one : Vars.OneWidth ((e :: constraints).flatMap Expr.occurrences)) :
    (∀ values, s.enumerate constraints e limit = .ok values →
      values.Pairwise (· < ·) ∧
      values.length = min limit (s.Feasible constraints e).ncard ∧
      (∀ x ∈ values, x ∈ s.Feasible constraints e) ∧
      ((s.Feasible constraints e).ncard ≤ limit → ∀ x, x ∈ values ↔ x ∈ s.Feasible constraints e)) ∧
    ∀ f, s.enumerate constraints e limit = .error f → ∃ e, f = .error e ∧ e.root = .solverResourceLimit := by
  rcases s.enumerate_cases positive conditions wf one with ⟨values, found, ascending, listed⟩ | ⟨f, failed, harmless⟩
  · rw [found]
    refine ⟨fun values same => ?_, fun _ same => by cases same⟩
    cases same
    have fills := Fills.of_limit positive ascending listed
    have length := fills.length_eq
    refine ⟨ascending, by omega, fills.members, fun enough => fills.mem_iff (by omega)⟩
  · rw [failed]
    refine ⟨fun _ same => (by cases same), fun _ same => ?_⟩
    cases same
    cases f with
    | error e => exact ⟨e, rfl, s.enumerate_limited failed e rfl⟩
    | fault fault => exact absurd rfl (harmless fault)

/-- Half of `x` where `x = y + 1`: the first value that is tried for `x` gives a half that only
    the next one bears out. -/
theorem enumerate_exact_halved :
    let x : Expr := .var none ⟨"x", 8⟩
    let y : Expr := .var none ⟨"y", 8⟩
    let half : Expr := .binary none .lshr x (.const none ⟨1, 8⟩)
    let next : Expr := .binary none .eq x (.binary none .add (.const none ⟨1, 8⟩) y)
    let s := (bound {} "x" 0 3).bound "y" 0 1
    s.enumerate [next] half 5 = .ok [0, 1] ∧ (s.Feasible [next] half).ncard = 2 ∧
      ∀ z, z ∈ [0, 1] ↔ z ∈ s.Feasible [next] half := by
  intro x y half next s
  have listed : s.enumerate [next] half 5 = .ok [0, 1] := by cbv
  have right := s.enumerate_exact (by decide : (0 : Int) < 5) (by decide : ∀ c ∈ [next], c.Condition)
    (by decide : half.WellFormed) (by decide)
  obtain ⟨_, length, _, all⟩ := right.1 _ listed
  have two : (s.Feasible [next] half).ncard = 2 := by
    simp only [List.length_cons, List.length_nil] at length
    omega
  exact ⟨listed, two, all (by omega)⟩

theorem oneWidth_of_enumerate {s : Exhaustive} {constraints : List Expr} {e : Expr} {limit : Int}
    {values : List UInt64} (positive : 0 < limit) (listed : s.enumerate constraints e limit = .ok values) :
    Vars.OneWidth ((e :: constraints).flatMap Expr.occurrences) := by
  cases found : Vars.find (e :: constraints) with
  | ok vars => exact Vars.oneWidth_of_find found
  | error fault =>
      rw [enumerate, if_neg (by omega), found] at listed
      cases listed

end Exhaustive

namespace Value

variable {v : Value}

theorem under_under (v : Value) (first second : List Expr) :
    (v.under first).under second = v.under (first ++ second) := by
  simp [under]

/-- Ruling out one value after the other yields distinct values until none is left. -/
theorem othersThan_fills {solver : Solver} {known : List Var} {admissible : Valuation → Prop} (room : Nat)
    {ruledOut : List Expr} (posed : (v.under ruledOut).Posed solver known admissible) :
    Ensures (v.othersThan room ruledOut) (Fills room {x | (v.under ruledOut).Can admissible x})
      solver.Reports := by
  induction room generalizing ruledOut with
  | zero => exact .pure ⟨.nil, by simp, .inl rfl⟩
  | succ room ih =>
      rw [othersThan]
      refine (solve_right posed).bind fun answer answers => ?_
      cases answer with
      | none => exact .pure (.nil answers)
      | some x =>
          have differs := differs_right posed answers
          refine Ensures.bind (differs.mono (fun _ h => h) fun _ no => no.elim) fun c ⟨more, narrowed⟩ => ?_
          rw [under_under] at more narrowed
          refine (ih more).bind fun rest fills => .pure (Fills.cons answers ?_)
          simp only [narrowed] at fills
          exact fills

/-- Without enumeration, values are found one by one. -/
theorem anyN_fills {solver : Solver} {known : List Var} {admissible : Valuation → Prop}
    (posed : v.Posed solver known admissible) (symbolic : v.isSymbolic = true) (alone : solver.enumerate = none)
    {limit : Int} (positive : 0 < limit) :
    Ensures (v.anyN limit) (Fills limit.toNat {x | v.Can admissible x}) solver.Reports := by
  have here : (v.under []).Posed solver known admissible := by rwa [under_nil]
  have fills := othersThan_fills limit.toNat here
  rw [under_nil] at fills
  have unaided : v.solver.bind Solver.enumerate = none := by rw [posed.solver_eq, Option.bind_some, alone]
  rw [anyN_unaided symbolic positive unaided]
  exact fills

end Value

namespace Exhaustive

/-- Values listed by the search itself, and values found by its answers alone: both lists are as long
    as the limit allows and the values suffice, and with room for all of them they agree. -/
theorem anyN_paths_agree (s : Exhaustive) {constraints : List Expr} {e : Expr} (symbolic : e.isConst = false)
    (wf : e.WellFormed) (conditions : ∀ c ∈ constraints, c.Condition) {limit : Int} (positive : 0 < limit)
    {listed found : List UInt64} {session session' left left' : Session}
    (direct : Value.anyN ⟨some s.solver, constraints, e⟩ limit session = .ok listed left)
    (wrapped : Value.anyN ⟨some s.solver.withoutEnumerate, constraints, e⟩ limit session' = .ok found left') :
    listed.Nodup ∧ found.Nodup ∧
      listed.length = min limit (s.Feasible constraints e).ncard ∧
      found.length = min limit (s.Feasible constraints e).ncard ∧
      (∀ x ∈ listed, x ∈ s.Feasible constraints e) ∧ (∀ x ∈ found, x ∈ s.Feasible constraints e) ∧
      ((s.Feasible constraints e).ncard ≤ limit → ∀ x, x ∈ listed ↔ x ∈ found) := by
  let v : Value := ⟨some s.solver, constraints, e⟩
  have isSymbolic : v.isSymbolic = true := by rw [Value.isSymbolic, symbolic]; rfl
  have one : Vars.OneWidth ((e :: constraints).flatMap Expr.occurrences) := by
    have answered := Session.ask_ensures "enumerate" (fun _ => s.enumerate constraints e limit) session
    rw [← Value.anyN_enumerated (v := v) isSymbolic positive rfl, direct] at answered
    exact oneWidth_of_enumerate positive answered.choose_spec
  have asks : Concretizer.Asks s v := ⟨⟨rfl, isSymbolic, wf, conditions⟩, one⟩
  have first : Fills limit.toNat (s.Feasible constraints e) listed := by
    have right := Concretizer.anyN_right asks positive session
    rw [direct] at right
    exact .of_limit positive right.1 right.2
  have second : Fills limit.toNat (s.Feasible constraints e) found := by
    let w : Value := ⟨some s.solver.withoutEnumerate, constraints, e⟩
    have posed : w.Posed s.solver.withoutEnumerate _ _ :=
      ⟨rfl, s.right one, one, wf, conditions, List.Subset.refl _⟩
    have right := Value.anyN_fills posed isSymbolic rfl positive session'
    rw [wrapped] at right
    have same : s.Feasible constraints e = {x | w.Can (s.Within ((e :: constraints).flatMap Expr.occurrences)) x} :=
      Set.ext asks.mem_possible
    exact same ▸ right
  have lengths := And.intro first.length_eq second.length_eq
  refine ⟨first.distinct, second.distinct, by omega, by omega, first.members, second.members, ?_⟩
  intro enough x
  rw [first.mem_iff (by omega), second.mem_iff (by omega)]

/-- A sum that wraps around for the greater values of its variable. -/
def wrappingSum : Expr := .binary none .add (.const none ⟨250, 8⟩) (.zext none (.var none ⟨"x", 4⟩) 8)

/-- One list is in ascending order and the other in the order of the search, and each constraint that
    rules out a value of the sum is one on the variable. -/
theorem anyN_paths_agree_sum :
    (∃ left, Value.anyN ⟨some (bound {} "x" 5 7).solver, [], wrappingSum⟩ 3 {} = .ok [0, 1, 255] left) ∧
      (∃ left, Value.anyN ⟨some (bound {} "x" 5 7).solver.withoutEnumerate, [], wrappingSum⟩ 3 {} =
        .ok [255, 0, 1] left) ∧
      3 ≤ ((bound {} "x" 5 7).Feasible [] wrappingSum).ncard ∧
      ∀ z ∈ [255, 0, 1], z ∈ (bound {} "x" 5 7).Feasible [] wrappingSum := by
  obtain ⟨left, direct⟩ := ok_of_returned? (show returned?
    (Value.anyN ⟨some (bound {} "x" 5 7).solver, [], wrappingSum⟩ 3 {}) = some [0, 1, 255] by cbv)
  obtain ⟨left', wrapped⟩ := ok_of_returned? (show returned?
    (Value.anyN ⟨some (bound {} "x" 5 7).solver.withoutEnumerate, [], wrappingSum⟩ 3 {}) = some [255, 0, 1] by cbv)
  obtain ⟨_, _, length, _, _, members, _⟩ := anyN_paths_agree (bound {} "x" 5 7) rfl
    (by decide : wrappingSum.WellFormed) (by simp) (by decide) direct wrapped
  simp only [List.length_cons, List.length_nil] at length
  exact ⟨⟨left, direct⟩, ⟨left', wrapped⟩, by omega, members⟩

end Exhaustive

end SymbolicMemory
