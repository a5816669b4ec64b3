import SymbolicMemory.Proofs.Enumeration

/-! # How constraints are listed does not matter

Two lists with the same members up to tags, in any order and with any repetitions, lead to one and
the same search. Partial evaluation sorts the members of both lists in the same way into failing,
settled and open ones, so at every node the same branch is cut off or the same variable is tried
next. The two searches therefore run in step: they try the same values in the same order, and
their budget runs out at the same point.
-/

namespace SymbolicMemory

theorem Expr.evalPartial_erase (a : Assignment) (e : Expr) : e.erase.evalPartial a = e.evalPartial a := by
  have decides_erase : ∀ (op : Op) (lhs : Expr), decides op lhs.erase = decides op lhs := by
    intro op lhs
    funext w
    simp only [decides, width_erase]
  induction e <;> simp_all [erase, evalPartial]

/-- Lists of well-formed constraints with the same members up to tags. -/
structure Relisted (constraints constraints' : List Expr) : Prop where
  same : ∀ e, e ∈ constraints.map Expr.erase ↔ e ∈ constraints'.map Expr.erase
  wellFormed : ∀ c ∈ constraints, c.WellFormed

namespace Relisted

variable {constraints constraints' : List Expr} (h : Relisted constraints constraints')

include h

theorem exists_mem {c : Expr} (member : c ∈ constraints) : ∃ d ∈ constraints', d.erase = c.erase := by
  simpa using (h.same c.erase).mp (List.mem_map_of_mem member)

theorem symm : Relisted constraints' constraints where
  same e := (h.same e).symm
  wellFormed c member := by
    obtain ⟨d, listed, shape⟩ := List.mem_map.mp ((h.same c.erase).mpr (List.mem_map_of_mem member))
    rw [← Expr.wellFormed_erase, ← shape, Expr.wellFormed_erase]
    exact h.wellFormed d listed

theorem any_imp {test : Expr → Bool} (blind : ∀ c, test c.erase = test c)
    (found : constraints.any test = true) : constraints'.any test = true := by
  obtain ⟨c, member, holds⟩ := List.any_eq_true.mp found
  obtain ⟨d, listed, shape⟩ := h.exists_mem member
  refine List.any_eq_true.mpr ⟨d, listed, ?_⟩
  rw [← blind, shape, blind, holds]

/-- A test that is blind to tags finds a member in both lists or in none. -/
theorem any_eq {test : Expr → Bool} (blind : ∀ c, test c.erase = test c) :
    constraints.any test = constraints'.any test :=
  Bool.eq_iff_iff.mpr ⟨h.any_imp blind, h.symm.any_imp blind⟩

theorem filter {test : Expr → Bool} (blind : ∀ c, test c.erase = test c) :
    Relisted (constraints.filter test) (constraints'.filter test) where
  same e := by
    have kept : ∀ list : List Expr, e ∈ (list.filter test).map Expr.erase ↔
        e ∈ list.map Expr.erase ∧ test e = true := by
      intro list
      simp only [List.mem_map, List.mem_filter]
      constructor
      · rintro ⟨c, ⟨member, holds⟩, rfl⟩
        exact ⟨⟨c, member, rfl⟩, by rw [blind, holds]⟩
      · rintro ⟨⟨c, member, rfl⟩, holds⟩
        exact ⟨c, ⟨member, by rw [← blind, holds]⟩, rfl⟩
    rw [kept, kept, h.same]
  wellFormed c member := h.wellFormed c (List.mem_filter.mp member).1

theorem nil_or_cons : (constraints = [] ∧ constraints' = []) ∨
    ∃ c rest c' rest', constraints = c :: rest ∧ constraints' = c' :: rest' := by
  cases constraints with
  | nil =>
      left
      simpa [List.eq_nil_iff_forall_not_mem] using h.same
  | cons c rest =>
      right
      obtain ⟨d, listed, _⟩ := h.exists_mem List.mem_cons_self
      obtain ⟨c', rest', rfl⟩ := List.exists_cons_of_ne_nil (List.ne_nil_of_mem listed)
      exact ⟨c, rest, c', rest', rfl, rfl⟩

theorem mem_occurrences_iff (v : Var) :
    v ∈ constraints.flatMap Expr.occurrences ↔ v ∈ constraints'.flatMap Expr.occurrences := by
  have bare : ∀ list : List Expr, list.flatMap Expr.occurrences =
      (list.map Expr.erase).flatMap Expr.occurrences := by
    intro list
    simp [List.flatMap_map, Expr.occurrences_erase]
  rw [bare, bare constraints', List.mem_flatMap, List.mem_flatMap]
  simp only [h.same]

end Relisted

namespace Vars

theorem Sorted.nodup {vars : List Var} (sorted : Sorted vars) : vars.Nodup := by
  apply sorted.imp
  rintro u _ less rfl
  rw [Std.compare_self] at less
  cases less

/-- Sorted lists of the same variables are equal. -/
theorem Sorted.ext {vars vars' : List Var} (sorted : Sorted vars) (sorted' : Sorted vars')
    (same : ∀ v, v ∈ vars ↔ v ∈ vars') : vars = vars' := by
  have perm := (List.perm_ext_iff_of_nodup sorted.nodup sorted'.nodup).mpr same
  refine perm.eq_of_pairwise (fun u v _ _ less greater => ?_) sorted sorted'
  rw [Std.OrientedCmp.gt_of_lt less] at greater
  cases greater

theorem find_congr {es es' : List Expr} (one : OneWidth (es.flatMap Expr.occurrences))
    (same : ∀ v, v ∈ es.flatMap Expr.occurrences ↔ v ∈ es'.flatMap Expr.occurrences) :
    find es = find es' := by
  obtain ⟨vars, found, members⟩ := find_ok one
  obtain ⟨vars', found', members'⟩ := find_ok fun u hu v hv => one u ((same u).mpr hu) v ((same v).mpr hv)
  have equal : vars = vars' := by
    apply Sorted.ext (find_spec found).1 (find_spec found').1
    intro v
    rw [members, members', same]
  rw [found, found', equal]

end Vars

namespace Exhaustive

/-- Whether a constraint is known to fail. -/
def refuted (a : Assignment) (c : Expr) : Bool :=
  match c.evalPartial a with
  | .ok (some w) => w.isFalse
  | _ => false

/-- Whether nothing is known about a constraint. -/
def isOpen (a : Assignment) (c : Expr) : Bool :=
  match c.evalPartial a with
  | .ok none => true
  | _ => false

theorem refuted_erase (a : Assignment) (c : Expr) : refuted a c.erase = refuted a c := by
  rw [refuted, refuted, Expr.evalPartial_erase]

theorem isOpen_erase (a : Assignment) (c : Expr) : isOpen a c.erase = isOpen a c := by
  rw [isOpen, isOpen, Expr.evalPartial_erase]

/-- What is left of well-formed constraints depends on each of them by itself. -/
theorem undecided_eq (a : Assignment) {constraints : List Expr} (wf : ∀ c ∈ constraints, c.WellFormed) :
    undecided a constraints =
      .ok (if constraints.any (refuted a) then none else some (constraints.filter (isOpen a))) := by
  induction constraints with
  | nil => rfl
  | cons c rest ih =>
      obtain ⟨here, later⟩ := List.forall_mem_cons.mp wf
      obtain ⟨answer, answered, _⟩ := Expr.evalPartial_settles a here
      cases answer with
      | none =>
          have fails : refuted a c = false := by simp only [refuted, answered]
          have kept : isOpen a c = true := by simp only [isOpen, answered]
          simp only [undecided, answered, ih later, List.any_cons, fails, Bool.false_or,
            List.filter_cons_of_pos kept]
          split <;> rfl
      | some w =>
          have fails : refuted a c = w.isFalse := by simp only [refuted, answered]
          have dropped : isOpen a c ≠ true := by simp [isOpen, answered]
          simp only [undecided, answered, ih later, List.any_cons, fails, List.filter_cons_of_neg dropped]
          cases w.isFalse <;> rfl

section Steps

variable {constraints constraints' : List Expr} (h : Relisted constraints constraints')

include h

theorem uses_congr : uses constraints = uses constraints' := by
  funext v
  apply h.any_eq
  intro c
  rw [Expr.occurrences_erase]

/-- Reducing two lists cuts off both, or leaves lists with the same members again. -/
theorem undecided_congr (a : Assignment) :
    (undecided a constraints = .ok none ∧ undecided a constraints' = .ok none) ∨
      ∃ pending pending', undecided a constraints = .ok (some pending) ∧
        undecided a constraints' = .ok (some pending') ∧ Relisted pending pending' := by
  rw [undecided_eq a h.wellFormed, undecided_eq a h.symm.wellFormed, ← h.any_eq (refuted_erase a)]
  cases constraints.any (refuted a) with
  | true => exact .inl ⟨rfl, rfl⟩
  | false => exact .inr ⟨_, _, rfl, rfl, h.filter (isOpen_erase a)⟩

end Steps

/-- Below every node the two searches are one. -/
theorem branch_congr (s : Exhaustive) (vars : List Var) {pending pending' : List Expr}
    (h : Relisted pending pending') (a : Assignment) : s.branch vars pending a = s.branch vars pending' a := by
  induction vars generalizing pending pending' a with
  | nil => rfl
  | cons v rest ih =>
      -- both lists use the same variables, so both searches branch here or both pass on
      rw [branch, branch, uses_congr h, ih h a]
      split
      · congr 2
        funext x _
        obtain ⟨cut, cut'⟩ | ⟨left, left', reduced, reduced', h'⟩ := undecided_congr h (a.set v.name x)
        · simp only [cut, cut']
        · simp only [reduced, reduced']
          obtain ⟨rfl, rfl⟩ | ⟨c, more, c', more', rfl, rfl⟩ := h'.nil_or_cons
          · rfl
          · dsimp only
            rw [ih h']
      · rfl

theorem search_congr (s : Exhaustive) (vars : List Var) {constraints constraints' : List Expr}
    (h : Relisted constraints constraints') (a : Assignment) :
    s.search vars constraints a = s.search vars constraints' a := by
  unfold search
  obtain ⟨cut, cut'⟩ | ⟨left, left', reduced, reduced', h'⟩ := undecided_congr h a
  · rw [cut, cut']
  · rw [reduced, reduced']
    obtain ⟨rfl, rfl⟩ | ⟨c, more, c', more', rfl, rfl⟩ := h'.nil_or_cons
    · rfl
    · exact s.branch_congr vars h' a

theorem project_congr (s : Exhaustive) (vars : List Var) {constraints constraints' : List Expr}
    (h : Relisted constraints constraints') (e : Expr) (limit : Nat) (projected : List Var)
    {pending pending' : List Expr} (here : Relisted pending pending') (a : Assignment)
    (found : Std.TreeSet UInt64) :
    s.project vars constraints e limit projected pending a found =
      s.project vars constraints' e limit projected pending' a found := by
  induction projected generalizing pending pending' a found with
  | nil =>
      rw [project, project]
      obtain ⟨cut, cut'⟩ | ⟨left, left', reduced, reduced', _⟩ := undecided_congr here a
      · rw [cut, cut']
      · rw [reduced, reduced']
        simp only [s.search_congr vars h a]
  | cons v rest ih =>
      rw [project, project]
      obtain ⟨cut, cut'⟩ | ⟨left, left', reduced, reduced', here'⟩ := undecided_congr here a
      · rw [cut, cut']
      · rw [reduced, reduced']
        simp only [ih here']

theorem solve_congr (s : Exhaustive) {constraints constraints' : List Expr}
    (h : Relisted constraints constraints')
    (one : Vars.OneWidth (constraints.flatMap Expr.occurrences)) (vars : List Var) :
    s.solve constraints vars = s.solve constraints' vars := by
  simp only [solve, Vars.find_congr one h.mem_occurrences_iff, s.search_congr _ h]

theorem enumerate_congr (s : Exhaustive) {constraints constraints' : List Expr}
    (h : Relisted constraints constraints') {e : Expr}
    (one : Vars.OneWidth ((e :: constraints).flatMap Expr.occurrences)) (limit : Int) :
    s.enumerate constraints e limit = s.enumerate constraints' e limit := by
  have occurring : ∀ v, v ∈ (e :: constraints).flatMap Expr.occurrences ↔
      v ∈ (e :: constraints').flatMap Expr.occurrences := by
    intro v
    simp only [List.flatMap_cons, List.mem_append, h.mem_occurrences_iff]
  simp only [enumerate, Vars.find_congr one occurring, s.project_congr _ h e _ _ h]

/-- A search gives one answer for all lists of the same well-formed constraints, whether it finds
    a solution or values, finds none, or gives up. -/
theorem answers_independent_of_listing (s : Exhaustive) {constraints constraints' : List Expr}
    (wf : ∀ c ∈ constraints, c.WellFormed)
    (same : ∀ e, e ∈ constraints.map Expr.erase ↔ e ∈ constraints'.map Expr.erase) :
    (Vars.OneWidth (constraints.flatMap Expr.occurrences) →
      ∀ vars, s.solve constraints vars = s.solve constraints' vars) ∧
    ∀ e, Vars.OneWidth ((e :: constraints).flatMap Expr.occurrences) →
      ∀ limit, s.enumerate constraints e limit = s.enumerate constraints' e limit :=
  ⟨s.solve_congr ⟨same, wf⟩, fun _ => s.enumerate_congr ⟨same, wf⟩⟩

/-- A list that is turned round, with one constraint made twice, has the solution and the values
    of the other, and runs out of a small budget where the other does. -/
theorem answers_independent_of_listing_reversed :
    let x : Expr := .var none ⟨"x", 3⟩
    let y : Expr := .var none ⟨"y", 3⟩
    let sum : Expr := .binary none .eq (.const none ⟨5, 3⟩) (.binary none .add x y)
    let small (tag : Tag) : Expr := .binary tag .ule y (.const none ⟨1, 3⟩)
    let vars : List Var := [⟨"x", 3⟩, ⟨"y", 3⟩]
    solve {} [small none, sum, small (some 7)] vars = .ok (some [4, 1]) ∧
      enumerate {} [small none, sum, small (some 7)] x 9 = .ok [4, 5] ∧
      solve { maxAssignments := 13 } [small none, sum, small (some 7)] vars =
        .error (.error (.within "exceeded 13 assignments" .solverResourceLimit)) := by
  intro x y sum small vars
  have wf : ∀ c ∈ [sum, small none], c.WellFormed := by decide
  have same : ∀ e, e ∈ [sum, small none].map Expr.erase ↔
      e ∈ [small none, sum, small (some 7)].map Expr.erase := by
    intro e
    simp only [List.map_cons, List.map_nil, List.mem_cons, List.not_mem_nil, or_false]
    exact ⟨fun h => h.elim (fun h => .inr (.inl h)) .inl, fun h => h.elim .inr (fun h => h.elim .inl .inr)⟩
  have solved : solve {} [sum, small none] vars = .ok (some [4, 1]) := by cbv
  have listed : enumerate {} [sum, small none] x 9 = .ok [4, 5] := by cbv
  have stopped : solve { maxAssignments := 13 } [sum, small none] vars =
      .error (.error (.within "exceeded 13 assignments" .solverResourceLimit)) := by cbv
  obtain ⟨solves, enumerates⟩ := answers_independent_of_listing {} wf same
  refine ⟨(solves (by decide) vars).symm.trans solved, (enumerates x (by decide) 9).symm.trans listed, ?_⟩
  exact ((answers_independent_of_listing { maxAssignments := 13 } wf same).1 (by decide) vars).symm.trans stopped

end Exhaustive

end SymbolicMemory
