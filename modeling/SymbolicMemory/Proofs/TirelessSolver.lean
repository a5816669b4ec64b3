import SymbolicMemory.Proofs.Concretization
import SymbolicMemory.Proofs.OneRange

/-! # Questions that are all answered

A solver may give up, and then so does whoever asked. One that has an answer to every question about
the variables of an address never does: whatever is asked on the way to concrete addresses is asked
about these variables alone. What is then found for an address with the strategies that list all of
its values, or else take any, is settled by the values it can have.
-/

namespace SymbolicMemory

variable {α β : Type}

/-- The computation does not end because a solver gave up. -/
def Steady (x : Run α) : Prop :=
  Ensures x (fun _ => True) fun f => ∀ e, f = .error e → e.root ≠ .solverResourceLimit

namespace Steady

theorem pure (a : α) : Steady (Pure.pure a : Run α) := Ensures.pure trivial

theorem throw {e : Error} (other : e.root ≠ .solverResourceLimit) :
    Steady (MonadExcept.throw (.error e) : Run α) := by
  refine Ensures.throw ?_
  rintro _ ⟨⟩
  exact other

theorem bind {x : Run α} {f : α → Run β} (first : Steady x) (rest : ∀ a, Steady (f a)) : Steady (x >>= f) :=
  Ensures.bind first fun a _ => rest a

theorem of_succeeds {x : Run α} {returns : α → Prop} (succeeds : Ensures x returns fun _ => False) : Steady x :=
  succeeds.mono (fun _ _ => trivial) fun _ no => no.elim

/-- Goes on with what is known to be returned. -/
theorem bindThat {x : Run α} {f : α → Run β} {returns : α → Prop} (succeeds : Ensures x returns fun _ => False)
    (rest : ∀ a, returns a → Steady (f a)) : Steady (x >>= f) :=
  (succeeds.mono (fun _ h => h) fun _ no => no.elim).bind rest

/-- What can only end because a solver gave up does not fail. -/
theorem succeeds {x : Run α} (steady : Steady x) {returns : α → Prop} {fails : Failure → Prop}
    (ensures : Ensures x returns fails)
    (gaveUp : ∀ f, fails f → ∃ e, f = .error e ∧ e.root = .solverResourceLimit) :
    Ensures x returns fun _ => False := by
  intro session
  have here := ensures session
  have never := steady session
  cases result : x session with
  | ok a left =>
      rw [result] at here
      exact here
  | error f left =>
      rw [result] at here never
      obtain ⟨e, is, root⟩ := gaveUp f here
      exact never e is root

end Steady

namespace Value

variable {v : Value} {solver : Solver} {known : List Var} {admissible : Valuation → Prop}
  (tireless : solver.Tireless known)

include tireless

theorem solve_succeeds {extra : List Expr} (posed : (v.under extra).Posed solver known admissible) :
    Ensures (v.solve extra) ((v.under extra).Answers admissible) fun _ => False := by
  refine (solve_reports posed).mono (fun _ h => h) fun f reported => ?_
  obtain ⟨calls, vars, e, failed, _⟩ := reported
  obtain ⟨r, solved⟩ := tireless.solves calls _ vars posed.conditions posed.constraints_covered
  cases failed.symm.trans solved

variable (posed : v.Posed solver known admissible)

include posed

theorem solve_alone_succeeds : Ensures (v.solve []) (v.Answers admissible) fun _ => False := by
  have here : (v.under []).Posed solver known admissible := by rwa [under_nil]
  have succeeds := solve_succeeds tireless here
  rwa [under_nil] at succeeds

theorem any_steady : Steady v.any := by
  unfold any
  split
  · exact .pure _
  · refine .bindThat (solve_alone_succeeds tireless posed) fun answer _ => ?_
    cases answer with
    | some x => exact .pure x
    | none => exact .throw (by decide)

omit tireless in
theorem compared_posed (op : Op) (compare : op.isCompare = true) (bound : UInt64) :
    Ensures (v.compared op bound) (fun c => (v.under [c]).Posed solver known admissible) fun _ => False :=
  (Session.check_when (Expr.constant_when op compare posed.wellFormed bound)).mono
    (fun _ states => posed.states states) fun _ no => no

theorem probe_succeeds (op : Op) (compare : op.isCompare = true) (bound : UInt64) :
    Ensures (v.probe op bound) (fun _ => True) fun _ => False :=
  (compared_posed posed op compare bound).bind fun _ narrowed =>
    (solve_succeeds tireless narrowed).mono (fun _ _ => trivial) fun _ no => no

theorem isUnique_steady : Steady v.isUnique := by
  unfold isUnique
  split
  · exact .pure _
  · refine (any_steady tireless posed).bind fun x => .bindThat (compared_posed posed .ne rfl x) fun c narrowed => ?_
    exact .bindThat (solve_succeeds tireless narrowed) fun _ _ => .pure _

theorem isSatisfiable_steady : Steady v.isSatisfiable := by
  unfold isSatisfiable
  split
  · exact .pure _
  · have asked : Ensures (Session.ask "solve" fun calls => solver.solve calls v.constraints []) (fun _ => True)
        fun _ => False := by
      refine (Session.ask_ensures _ _).mono (fun _ _ => trivial) fun f failed => ?_
      obtain ⟨calls, g, failed, _⟩ := failed
      obtain ⟨r, solved⟩ := tireless.solves calls _ [] posed.conditions posed.constraints_covered
      cases failed.symm.trans solved
    simp only [posed.solver_eq]
    exact .bindThat asked fun _ _ => .pure _

omit tireless posed in
/-- A search that returns whenever it ends breaks off only where it would not end. -/
theorem search_steady {search : Session → Option (EStateM.Result Failure Session UInt64)}
    (returns : ∀ session r, search session = some r → ∃ x left, r = .ok x left) (fault : Fault) :
    Steady fun session => (search session).getD (.error (.fault fault) session) := by
  intro session
  cases ended : search session with
  | none =>
      simp only [ended, Option.getD_none]
      rintro e ⟨⟩
  | some r =>
      obtain ⟨x, left, rfl⟩ := returns session r ended
      simp only [ended, Option.getD_some]

theorem leastFrom_steady (lo hi : UInt64) : Steady (v.leastFrom lo hi) := by
  have returns : ∀ lo hi session r, v.leastFrom? lo hi session = some r → ∃ x left, r = .ok x left := by
    apply leastFrom?.partial_correctness
    intro search ih lo hi session r found
    split at found
    · have probed := probe_succeeds tireless posed .ule rfl (middle lo hi) session
      split at found
      · exact ih _ _ _ _ found
      · exact ih _ _ _ _ found
      · next failed =>
        rw [failed] at probed
        exact probed.elim
    · cases found
      exact ⟨_, _, rfl⟩
  exact search_steady (returns lo hi) _

theorem greatestFrom_steady (lo hi : UInt64) : Steady (v.greatestFrom lo hi) := by
  have returns : ∀ lo hi session r, v.greatestFrom? lo hi session = some r → ∃ x left, r = .ok x left := by
    apply greatestFrom?.partial_correctness
    intro search ih lo hi session r found
    split at found
    · have probed := probe_succeeds tireless posed .uge rfl (middle lo hi + 1) session
      split at found
      · exact ih _ _ _ _ found
      · exact ih _ _ _ _ found
      · next failed =>
        rw [failed] at probed
        exact probed.elim
    · cases found
      exact ⟨_, _, rfl⟩
  exact search_steady (returns lo hi) _

theorem min_steady : Steady v.min := by
  refine (any_steady tireless posed).bind fun known => ?_
  split
  · exact leastFrom_steady tireless posed _ _
  · exact .pure _

theorem max_steady : Steady v.max := by
  refine (any_steady tireless posed).bind fun known => ?_
  split
  · exact greatestFrom_steady tireless posed _ _
  · exact .pure _

end Value

namespace Concretizer

section Steadiness

variable {v : Value} {c : Concretizer} {strategies : List Strategy}

theorem firstOf_steady (chosen : ∀ strategy ∈ strategies, Steady (c.choose v strategy)) :
    Steady (c.firstOf v strategies) := by
  induction strategies with
  | nil => exact .throw (by decide)
  | cons strategy rest ih =>
      obtain ⟨here, later⟩ := List.forall_mem_cons.mp chosen
      refine here.bind fun found => ?_
      cases found with
      | nil => exact ih later
      | cons first others => exact .of_succeeds (observe_ensures _ _)

variable {solver : Solver} {known : List Var} {admissible : Valuation → Prop}
  (tireless : solver.Tireless known) (posed : v.Posed solver known admissible)

include tireless posed

theorem resolve_steady (chosen : ∀ strategy ∈ strategies, Steady (c.choose v strategy)) :
    Steady (c.resolve v strategies) := by
  refine (Value.isUnique_steady tireless posed).bind fun unique => ?_
  split
  · exact (Value.any_steady tireless posed).bind fun _ => .of_succeeds (observe_ensures _ _)
  · exact firstOf_steady chosen

theorem concretize_steady (chosen : ∀ strategy ∈ strategies, Steady (c.choose v strategy)) :
    Steady (c.concretize v strategies) := by
  have resolved := resolve_steady tireless posed chosen
  have attempted : Steady (do
      if v.isSymbolic then
        if !(← v.isSatisfiable) then throw (.error .unsatAddress)
      c.resolve v strategies) := by
    split
    · refine (Value.isSatisfiable_steady tireless posed).bind fun satisfiable => ?_
      split
      · exact Steady.bind (.throw (by decide)) fun _ => resolved
      · exact resolved
    · exact resolved
  refine Ensures.tryCatch attempted fun f other => ?_
  cases f with
  | fault fault => exact .throw other
  | error e =>
      refine Steady.throw ?_
      split
      · decide
      · exact other e rfl

end Steadiness

section AllOrLow

variable {c : Concretizer} {possible : Set UInt64} {low : UInt64} {found : Addresses}

/-- What a strategy comes to where any value is taken to be a certain one. -/
def Picks (c : Concretizer) (possible : Set UInt64) (low : UInt64) (strategy : Strategy) (found : List UInt64) :
    Prop :=
  if strategy = .any then found = [low] else Chosen c possible strategy found

/-- All values in ascending order if they lie close enough, and else a certain one. -/
def AllOrLow (c : Concretizer) (possible : Set UInt64) (low : UInt64) (found : Addresses) : Prop :=
  (Strategy.symbolic.Applies c possible ∧ Strategy.symbolic.Yields c possible found) ∨
    (¬ Strategy.symbolic.Applies c possible ∧ found.toList = [low])

theorem allOrLow_of_decides (decides : Decides (Picks c possible low) [.symbolic, .any] found) :
    AllOrLow c possible low found := by
  obtain ⟨before, strategy, after, split, nothing, right⟩ := decides
  rcases before with _ | ⟨first, _ | ⟨second, rest⟩⟩
  · cases split
    exact .inl right
  · cases split
    exact .inr ⟨nothing .symbolic (List.mem_singleton_self _), right⟩
  · simp at split

/-- A single value lies close enough to itself. -/
theorem allOrLow_single (x : UInt64) : AllOrLow c {x} low ⟨x, []⟩ := by
  have pos := c.effectiveLimit_pos
  refine .inl ⟨⟨x, rfl, x, rfl, ?_, ?_⟩, List.pairwise_singleton _ x, fun y => List.mem_singleton⟩
  · rintro _ rfl
    exact ⟨UInt64.le_refl _, UInt64.le_refl _⟩
  · rwa [Int.sub_self]

end AllOrLow

section Listing

variable {s : Exhaustive} {v : Value} (asks : Asks s v)
  (tireless : s.solver.Tireless ((v.expr :: v.constraints).flatMap Expr.occurrences))

include asks tireless

/-- Values are listed without fail if all constrained variables are those of the address. -/
theorem everyNear_steady (c : Concretizer)
    (alone : v.constraints.flatMap Expr.occurrences ⊆ v.expr.occurrences) : Steady (c.everyNear v) := by
  have listed : Steady (v.anyN c.effectiveLimit) := by
    have offered : v.solver.bind Solver.enumerate = some fun _ => s.enumerate := by rw [asks.solver_eq]; rfl
    rw [Value.anyN_enumerated asks.symbolic c.effectiveLimit_pos offered]
    refine .of_succeeds ((Session.ask_ensures _ _).mono (fun _ h => h) fun f failed => ?_)
    obtain ⟨calls, g, failed, _⟩ := failed
    obtain ⟨r, found⟩ := tireless.enumerates _ rfl calls v.constraints v.expr c.effectiveLimit asks.conditions
      asks.wellFormed asks.posed.expr_covered alone
    cases failed.symm.trans found
  refine (Value.min_steady tireless asks.posed).bind fun least => ?_
  refine (Value.max_steady tireless asks.posed).bind fun greatest => ?_
  split
  · exact (Steady.of_succeeds (Session.record_succeeds _)).bind fun _ => .pure _
  · exact listed

/-- Any value is the one at the low ends, if these are a solution. -/
theorem any_lowEnds (holds : Holds s.lowEnds v.constraints) :
    Ensures v.any (fun x => x = (v.expr.value s.lowEnds).value) fun _ => False := by
  obtain ⟨vars, found, members⟩ := Vars.find_ok asks.one
  have sorted := (Vars.find_spec found).1
  have mine : v.expr.occurrences ⊆ vars := fun u occurs => (members u).mpr (List.mem_append_left _ occurs)
  obtain ⟨a, given, value⟩ := Value.eval_ofLists asks.wellFormed sorted mine s.lowEnds
  have solved : Ensures (v.solve []) (fun r => r = some (v.expr.value s.lowEnds).value) fun _ => False := by
    simp only [Value.solve, asks.solver_eq, List.append_nil, found, Session.check, pure_bind]
    refine Ensures.bind ((Session.ask_ensures _ _).mono (fun _ h => h) fun f failed => ?_) fun answer answered => ?_
    · obtain ⟨calls, g, failed, _⟩ := failed
      obtain ⟨r, solved⟩ := tireless.solves calls _ vars asks.conditions asks.posed.constraints_covered
      cases failed.symm.trans solved
    · obtain ⟨calls, answered⟩ := answered
      cases Exhaustive.solve_lowEnds asks.conditions holds answered
      simp only [given, pure_bind, value]
      exact .pure rfl
  unfold Value.any
  split
  · next tag w constant =>
    have symbolic := asks.symbolic
    rw [Value.isSymbolic, constant] at symbolic
    cases symbolic
  · refine solved.bind fun r same => ?_
    subst same
    exact .pure rfl

/-- All values are found if they lie close enough, and else the one at the low ends. -/
theorem concretize_allOrLow {c : Concretizer} (machine : c.limit < 2 ^ 63)
    (alone : v.constraints.flatMap Expr.occurrences ⊆ v.expr.occurrences)
    (holds : Holds s.lowEnds v.constraints) :
    Ensures (c.concretize v [.symbolic, .any])
      (AllOrLow c (possible s v) (v.expr.value s.lowEnds).value) fun _ => False := by
  have nonempty : (possible s v).Nonempty := by
    refine ⟨_, (asks.mem_possible _).mpr (Value.can_of_holds asks.wellFormed ?_ holds)⟩
    intro u _
    rw [← Exhaustive.domain_lowEnds]
    exact s.admits_lo u
  have low : Ensures (c.choose v .any) (fun found => found = [(v.expr.value s.lowEnds).value]) fun _ => False :=
    (any_lowEnds asks tireless holds).bind fun _ same => .pure (by rw [same])
  have steady : Steady (c.concretize v [.symbolic, .any]) := by
    refine concretize_steady tireless asks.posed fun strategy member => ?_
    rcases List.mem_pair.mp member with rfl | rfl
    · exact everyNear_steady asks tireless c alone
    · exact .of_succeeds low
  have chosen : (possible s v).Nontrivial → ∀ strategy ∈ [Strategy.symbolic, .any], Ensures (c.choose v strategy)
      (Picks c (possible s v) (v.expr.value s.lowEnds).value strategy) s.solver.Reports := by
    intro _ strategy member
    rcases List.mem_pair.mp member with rfl | rfl
    · exact symbolic_chosen asks machine nonempty
    · exact low.mono (fun _ right => right) fun _ no => no.elim
  -- What can go wrong is told by the set of values; as this is not empty and the second strategy
  -- always finds one, only a solver that gave up is left.
  refine (steady.succeeds (concretize_right asks chosen) fun f fails => ?_).mono (fun found right => ?_) fun _ h => h
  · rcases fails with reports | ⟨empty, _⟩ | ⟨_, nothing, _⟩
    · exact Exhaustive.reports_limit reports
    · exact absurd empty nonempty.ne_empty
    · cases nothing .any (List.mem_pair.mpr (.inr rfl))
  · rcases right with ⟨x, only, rfl⟩ | ⟨_, decides⟩
    · rw [only]
      exact allOrLow_single x
    · exact allOrLow_of_decides decides

end Listing

end Concretizer

end SymbolicMemory
