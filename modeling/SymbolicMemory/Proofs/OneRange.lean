import SymbolicMemory.Proofs.Budget
import SymbolicMemory.Proofs.Relisting

/-! # Searching a range

Values are tried from the low end of a domain on, so low ends that are a solution are the one that
is found. And where nothing but the variables of an expression is constrained, listing its values
takes no more of the budget than a search: behind every choice of values all constraints are
decided. Together they tell what comes of a question about a single variable with a range that the
budget covers.
-/

namespace SymbolicMemory

namespace Solver

/-- The solver has an answer to every question about known variables. It can list the values of an
    expression if the constraints have no variables but those of the expression. -/
structure Tireless (solver : Solver) (known : List Var) : Prop where
  solves : ∀ calls constraints vars, (∀ c ∈ constraints, c.Condition) →
    constraints.flatMap Expr.occurrences ⊆ known → ∃ r, solver.solve calls constraints vars = .ok r
  enumerates : ∀ enumerate, solver.enumerate = some enumerate → ∀ calls constraints e limit,
    (∀ c ∈ constraints, c.Condition) → e.WellFormed → e.occurrences ⊆ known →
    constraints.flatMap Expr.occurrences ⊆ e.occurrences → ∃ r, enumerate calls constraints e limit = .ok r

/-- Fewer variables leave fewer questions. -/
theorem Tireless.mono {solver : Solver} {known known' : List Var} (tireless : solver.Tireless known)
    (sub : known' ⊆ known) : solver.Tireless known' where
  solves calls constraints vars conditions covered :=
    tireless.solves calls constraints vars conditions (List.Subset.trans covered sub)
  enumerates enumerate offered calls constraints e limit conditions wf mine covered :=
    tireless.enumerates enumerate offered calls constraints e limit conditions wf (List.Subset.trans mine sub) covered

end Solver

namespace Exhaustive

variable {s : Exhaustive}

section LowEnds

/-- Every variable at the low end of its domain. -/
def lowEnds (s : Exhaustive) : Valuation := fun name => (s.domain ⟨name, 0⟩).lo

theorem domain_lowEnds (v : Var) : (s.domain v).lo = s.lowEnds v.name := s.domain_lo v

/-- An assignment was found, and with low ends only. -/
def AtLowEnds (s : Exhaustive) (found : Option Assignment) : Prop :=
  ∃ b, found = some b ∧ b.Agrees s.lowEnds

/-- A sweep that its first visit ends. -/
theorem sweep_first {β : Type} {visit : UInt64 → β → Search (Sweep β)} (found : β → Prop) (count : Nat)
    {x : UInt64} {gathered : β}
    (first : SymbolicMemory.Ensures (visit x gathered) (fun outcome => ∃ r, outcome = .done r ∧ found r)
      fun _ => True) :
    SymbolicMemory.Ensures (s.sweep visit count x gathered) (fun outcome => ∃ r, outcome = .done r ∧ found r)
      fun _ => True := by
  have spent : SymbolicMemory.Ensures s.spend (fun _ => True) fun _ => True := .trivial _
  cases count with
  | zero => exact spent.bind fun _ _ => first
  | succ count =>
      refine spent.bind fun _ _ => first.bind fun outcome done => ?_
      obtain ⟨r, rfl, right⟩ := done
      exact .pure ⟨r, rfl, right⟩

theorem sweepVar_first {β : Type} {visit : UInt64 → β → Search (Sweep β)} (found : β → Prop) {v : Var}
    {gathered : β}
    (first : SymbolicMemory.Ensures (visit (s.lowEnds v.name) gathered)
      (fun outcome => ∃ r, outcome = .done r ∧ found r) fun _ => True) :
    SymbolicMemory.Ensures (s.sweepVar v visit gathered) (fun outcome => ∃ r, outcome = .done r ∧ found r)
      fun _ => True := by
  unfold sweepVar
  split
  · rw [domain_lowEnds]
    exact sweep_first found _ first
  · exact .throw trivial

/-- If low ends go with what has been chosen so far, nothing else is chosen for open variables. -/
theorem branch_lowEnds (vars : List Var) {pending : List Expr} {a : Assignment}
    (conditions : ∀ c ∈ pending, c.Condition) (agrees : a.Agrees s.lowEnds) (holds : Holds s.lowEnds pending) :
    SymbolicMemory.Ensures (s.branch vars pending a) s.AtLowEnds fun _ => True := by
  induction vars generalizing pending a with
  | nil => exact .throw trivial
  | cons v rest ih =>
      rw [branch]
      split
      · refine (sweepVar_first s.AtLowEnds ?_).bind fun outcome done => ?_
        · have chosen := agrees.set (rfl : s.lowEnds v.name = s.lowEnds v.name)
          obtain ⟨r, reduced, reduces⟩ := undecided_reduces (a.set v.name (s.lowEnds v.name)) conditions
          simp only [reduced]
          rcases r with _ | _ | ⟨c, pending'⟩
          · exact absurd holds (reduces s.lowEnds chosen)
          · exact .pure ⟨_, rfl, _, rfl, chosen⟩
          · obtain ⟨sub, _, same⟩ := reduces
            have deeper := ih (fun d member => conditions d (sub member)) chosen
              ((same s.lowEnds chosen).mpr holds)
            refine deeper.bind fun found some_ => ?_
            obtain ⟨b, rfl, right⟩ := some_
            exact .pure ⟨_, rfl, b, rfl, right⟩
        · obtain ⟨r, rfl, right⟩ := done
          exact .pure right
      · exact ih conditions agrees holds

/-- Low ends that are a solution are the one that is found. -/
theorem solve_lowEnds {constraints : List Expr} (conditions : ∀ c ∈ constraints, c.Condition)
    (holds : Holds s.lowEnds constraints) {vars : List Var} {r : Option (List UInt64)}
    (solved : s.solve constraints vars = .ok r) : r = some (vars.map fun v => s.lowEnds v.name) := by
  have searched : ∀ all, SymbolicMemory.Ensures (s.search all constraints .empty)
      s.AtLowEnds fun _ => True := by
    intro all
    have agrees : Assignment.empty.Agrees s.lowEnds := by rintro name x ⟨⟩
    obtain ⟨r, reduced, reduces⟩ := undecided_reduces .empty conditions
    simp only [search, reduced]
    rcases r with _ | _ | ⟨c, pending⟩
    · exact absurd holds (reduces s.lowEnds agrees)
    · exact .pure ⟨_, rfl, agrees⟩
    · obtain ⟨sub, _, same⟩ := reduces
      exact branch_lowEnds all (fun d member => conditions d (sub member)) agrees
        ((same s.lowEnds agrees).mpr holds)
  unfold solve at solved
  cases collected : Vars.find constraints with
  | error fault =>
      rw [collected] at solved
      cases solved
  | ok all =>
      simp only [collected, Failure.ofFault, bind, Except.bind, Search.run, EStateM.run] at solved
      have here := searched (s.inOrder all) s.budget
      cases ran : s.search (s.inOrder all) constraints .empty s.budget with
      | error f left =>
          rw [ran] at solved
          cases solved
      | ok found left =>
          rw [ran] at solved here
          obtain ⟨b, rfl, agrees⟩ := here
          cases solved
          refine congrArg some (List.map_congr_left fun v _ => ?_)
          cases value : b v.name with
          | none => exact domain_lowEnds v
          | some x => exact (agrees v.name x value).symm

end LowEnds

section Enough

variable {vars : List Var} {constraints : List Expr} {e : Expr} {limit : Nat}

/-- Constraints with no open variable take no tries. -/
theorem search_affords_none (conditions : ∀ c ∈ constraints, c.Condition) {a : Assignment}
    (closed : ∀ v ∈ constraints.flatMap Expr.occurrences, a v.name ≠ none) :
    Affords 0 (s.search vars constraints a) := by
  obtain ⟨r, reduced, reduces⟩ := undecided_reduces a conditions
  simp only [search, reduced]
  rcases r with _ | _ | ⟨c, pending⟩
  · exact .pure _
  · exact .pure _
  · obtain ⟨sub, isOpen, _⟩ := reduces
    obtain ⟨v, occurs, none_⟩ := isOpen c List.mem_cons_self
    exact absurd none_ (closed v (List.mem_flatMap.mpr ⟨c, sub List.mem_cons_self, occurs⟩))

/-- Listing values takes the tries for the variables of the expression, and no more where the
    constraints have no others. -/
theorem project_affords (conditions : ∀ c ∈ constraints, c.Condition) {projected : List Var}
    (searchable : ∀ v ∈ projected, s.isSearchable v = true) (pending : List Expr) {a : Assignment}
    (closed : ∀ v ∈ constraints.flatMap Expr.occurrences, a v.name = none → v ∈ projected)
    (found : Std.TreeSet UInt64) :
    Affords (tries (projected.map fun v => (s.domain v).size))
      (s.project vars constraints e limit projected pending a found) := by
  induction projected generalizing pending a found with
  | nil =>
      rw [project]
      split
      · exact .fault _
      · exact .pure _
      · dsimp only
        split
        · exact .fault _
        · exact .fault _
        · split
          · exact .pure _
          · have leaf : Affords 0 (s.search vars constraints a) :=
              search_affords_none conditions fun v occurs none_ => by cases closed v occurs none_
            refine leaf.andThen fun outcome => ?_
            cases outcome <;> exact .pure _
  | cons v rest ih =>
      obtain ⟨here, later⟩ := List.forall_mem_cons.mp searchable
      rw [project]
      split
      · exact (Affords.fault _).mono (Nat.zero_le _)
      · exact (Affords.pure _).mono (Nat.zero_le _)
      · refine sweepVar_affords (fun x found => ih later _ (fun u occurs none_ => ?_) found) here found
        have apart : u.name ≠ v.name := by
          intro same
          rw [same, Assignment.set_same] at none_
          cases none_
        rw [Assignment.set_other a apart] at none_
        exact (List.mem_cons.mp (closed u occurs none_)).resolve_left fun same => apart (congrArg Var.name same)

/-- With enough budget for every value of every variable of an expression, its values are listed. -/
theorem enumerate_of_tries_le (conditions : ∀ c ∈ constraints, c.Condition) (wf : e.WellFormed)
    (covered : constraints.flatMap Expr.occurrences ⊆ e.occurrences) {projected : List Var}
    (listed : Vars.find [e] = .ok projected) (searchable : ∀ v ∈ projected, s.isSearchable v = true)
    (enough : tries ((s.inOrder projected).map fun v => (s.domain v).size) ≤ s.budget) (limit : Int) :
    ∃ r, s.enumerate constraints e limit = .ok r := by
  by_cases positive : 0 < limit
  · have mine : Vars.OneWidth e.occurrences := by simpa using Vars.oneWidth_of_find listed
    have all : (e :: constraints).flatMap Expr.occurrences ⊆ e.occurrences := by simpa using covered
    have one : Vars.OneWidth ((e :: constraints).flatMap Expr.occurrences) := fun u hu v hv =>
      mine u (all hu) v (all hv)
    rcases s.enumerate_cases positive conditions wf one with ⟨values, found, _⟩ | ⟨f, failed, harmless⟩
    · exact ⟨values, found⟩
    · obtain ⟨vars, collected, _⟩ := Vars.find_ok one
      have members := (Vars.find_spec listed).2
      have affords : Affords (tries ((s.inOrder projected).map fun v => (s.domain v).size))
          (s.project (s.inOrder vars) constraints e limit.toNat (s.inOrder projected) constraints .empty ∅) := by
        refine project_affords conditions (fun v member => searchable v (mem_inOrder.mp member)) _ ?_ _
        intro v occurs _
        exact mem_inOrder.mpr ((members v).mpr (by simpa using covered occurs))
      have ends := affords s.budget enough
      simp only [enumerate, if_neg (Int.not_le.mpr positive), collected, listed, Failure.ofFault, bind,
        Except.bind, Search.run, EStateM.run] at failed
      cases ran : s.project (s.inOrder vars) constraints e limit.toNat (s.inOrder projected) constraints .empty ∅
          s.budget with
      | ok outcome rest =>
          rw [ran] at failed
          cases outcome <;> cases failed
      | error g rest =>
          rw [ran] at failed
          cases failed
          obtain ⟨fault, rfl⟩ := ends.of_error ran
          exact absurd rfl (harmless fault)
  · exact ⟨[], by rw [enumerate, if_pos (Int.not_lt.mp positive)]⟩

end Enough

/-- A search for a single variable ends if its range is no larger than the budget. -/
theorem tireless_of_size_le {v : Var} (searchable : s.isSearchable v = true)
    (enough : (s.domain v).size ≤ s.budget) : s.solver.Tireless [v] := by
  have alone : ∀ es : List Expr, es.flatMap Expr.occurrences ⊆ [v] →
      ∃ all, Vars.find es = .ok all ∧ (∀ u ∈ all, s.isSearchable u = true) ∧
        tries ((s.inOrder all).map fun u => (s.domain u).size) ≤ s.budget := by
    intro es sub
    have same : ∀ u ∈ es.flatMap Expr.occurrences, u = v := fun u occurs => List.mem_singleton.mp (sub occurs)
    have one : Vars.OneWidth (es.flatMap Expr.occurrences) := fun u hu w hw _ => by rw [same u hu, same w hw]
    obtain ⟨all, found, members⟩ := Vars.find_ok one
    have only : ∀ u ∈ all, u = v := fun u member => same u ((members u).mp member)
    refine ⟨all, found, fun u member => only u member ▸ searchable, ?_⟩
    have distinct := (Vars.find_spec found).1.nodup
    rcases all with _ | ⟨u, _ | ⟨w, rest⟩⟩
    · simp [inOrder, tries]
    · simpa [inOrder, tries, only u List.mem_cons_self] using enough
    · have twice : u = w := (only u (by simp)).trans (only w (by simp)).symm
      simp [twice] at distinct
  constructor
  · intro calls constraints vars conditions covered
    obtain ⟨all, found, searchable, enough⟩ := alone constraints covered
    exact solve_of_tries_le conditions found searchable enough vars
  · rintro _ ⟨⟩ calls constraints e limit conditions wf mine covered
    obtain ⟨all, found, searchable, enough⟩ := alone [e] (by simpa using mine)
    exact enumerate_of_tries_le conditions wf covered found searchable enough limit

end Exhaustive

end SymbolicMemory
