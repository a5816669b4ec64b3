import SymbolicMemory.Proofs.Enumeration
import SymbolicMemory.Proofs.Outcome
import SymbolicMemory.Value

/-! # What a value can be

Questions about a value go to a solver. If the solver is right about the valuations that are
admissible, so are the answers: what a value can be is told from what it cannot be, and the two
searches for its extremes close in on them. A failure is an error of the solver, or it says that
the constraints have no solution where they have none.
-/

namespace SymbolicMemory

namespace Assignment

theorem foldlM_assigns {vars : List Var} (ρ : Valuation) (sorted : Vars.Sorted vars) (a : Assignment)
    (isOpen : ∀ v ∈ vars, a v.name = none) :
    ∃ b, vars.foldlM (fun (a : Assignment) v =>
        if (a v.name).isSome then (.error (.assignedTwice v.name) : Except Fault Assignment)
        else .ok (a.set v.name (ρ v.name))) a = .ok b ∧
      (∀ name x, a name = some x → b name = some x) ∧ ∀ v ∈ vars, b v.name = some (ρ v.name) := by
  induction vars generalizing a with
  | nil => exact ⟨a, rfl, fun _ _ known => known, by simp⟩
  | cons v rest ih =>
      obtain ⟨first, later⟩ := List.pairwise_cons.mp sorted
      have apart : ∀ u ∈ rest, u.name ≠ v.name := by
        intro u member same
        have less := first u member
        rw [same, Std.compare_self] at less
        cases less
      have stillOpen : ∀ u ∈ rest, a.set v.name (ρ v.name) u.name = none := by
        intro u member
        rw [set_other a (apart u member)]
        exact isOpen u (List.mem_cons_of_mem v member)
      obtain ⟨b, done, keeps, gives⟩ := ih later (a.set v.name (ρ v.name)) stillOpen
      have here := isOpen v List.mem_cons_self
      refine ⟨b, ?_, ?_, ?_⟩
      · rw [List.foldlM_cons, here]
        exact done
      · intro name x known
        apply keeps
        rw [set_other]
        · exact known
        · rintro rfl
          rw [here] at known
          cases known
      · intro u member
        cases member with
        | head => exact keeps _ _ (set_same a v.name (ρ v.name))
        | tail _ member => exact gives u member

/-- Values that come from a valuation can be given to variables that are listed once each. -/
theorem ofLists_map {vars : List Var} (sorted : Vars.Sorted vars) (ρ : Valuation) :
    ∃ a, ofLists vars (vars.map fun v => ρ v.name) = .ok a ∧ ∀ v ∈ vars, a v.name = some (ρ v.name) := by
  obtain ⟨a, done, _, gives⟩ := foldlM_assigns ρ sorted empty fun _ _ => rfl
  refine ⟨a, ?_, gives⟩
  rw [ofLists, if_neg (by simp), ← List.map_prod_left_eq_zip, List.foldlM_map]
  exact done

end Assignment

namespace Solver

/-- An error of the solver, as it is passed on. -/
def Reports (solver : Solver) (f : Failure) : Prop :=
  ∃ e, (∃ calls constraints vars, solver.solve calls constraints vars = .error (.error e) ∧
      f = .error (.within "solve" e)) ∨
    ∃ enumerate calls constraints expr limit, solver.enumerate = some enumerate ∧
      enumerate calls constraints expr limit = .error (.error e) ∧ f = .error (.within "enumerate" e)

/-- Every answer about known variables is right: a solution is admissible, there is none only where
    no admissible valuation is one, and there are errors but no faults. -/
def Right (solver : Solver) (known : List Var) (admissible : Valuation → Prop) : Prop :=
  ∀ calls constraints vars, (∀ c ∈ constraints, c.Condition) →
    constraints.flatMap Expr.occurrences ⊆ known → vars ⊆ known →
    (∃ ρ : Valuation, solver.solve calls constraints vars = .ok (some (vars.map fun v => ρ v.name)) ∧
      admissible ρ ∧ Holds ρ constraints) ∨
    (solver.solve calls constraints vars = .ok none ∧ ∀ ρ, admissible ρ → ¬ Holds ρ constraints) ∨
    ∃ e, solver.solve calls constraints vars = .error (.error e)

end Solver

namespace Exhaustive

/-- The valuations with values of the known variables from their domains. -/
def Within (s : Exhaustive) (known : List Var) (ρ : Valuation) : Prop :=
  ∀ v ∈ known, s.Admits v (ρ v.name)

theorem Within.mono {s : Exhaustive} {known known' : List Var} {ρ : Valuation} (h : s.Within known ρ)
    (sub : known' ⊆ known) : s.Within known' ρ := fun v member => h v (sub member)

/-- An exhaustive search is right about the valuations within its domains. -/
theorem right (s : Exhaustive) {known : List Var} (one : Vars.OneWidth known) :
    s.solver.Right known (s.Within known) := by
  intro calls constraints vars conditions covered listed
  have oneHere : Vars.OneWidth (constraints.flatMap Expr.occurrences) := fun u hu v hv =>
    one u (covered hu) v (covered hv)
  rcases s.solve_cases vars conditions oneHere with ⟨b, solved, holds, origin⟩ | ⟨solved, none_⟩ | failed
  · left
    let ρ : Valuation := fun name => (b name).getD (s.domain ⟨name, 0⟩).lo
    refine ⟨ρ, ?_, ?_, ?_⟩
    · refine solved.trans ?_
      congr 3
      funext v
      simp only [ρ, s.domain_lo v]
    · intro v member
      cases value : b v.name with
      | none =>
          have low : ρ v.name = (s.domain v).lo := by
            simp only [ρ, value, Option.getD_none]
            exact (s.domain_lo v).symm
          exact low ▸ s.admits_lo v
      | some x =>
          obtain ⟨u, occurs, named, admits⟩ := origin v.name x value
          have same : ρ v.name = x := by simp only [ρ, value, Option.getD_some]
          rw [same, ← one.eq (covered occurs) member named]
          exact admits
    · apply holds
      intro name x value
      simp only [ρ, value, Option.getD_some]
  · refine .inr (.inl ⟨solved, ?_⟩)
    intro ρ within
    exact none_ ρ fun v occurs => within v (covered occurs)
  · obtain ⟨f, failed, harmless⟩ := failed
    cases f with
    | error e => exact .inr (.inr ⟨e, failed⟩)
    | fault fault => exact absurd rfl (harmless fault)

end Exhaustive

theorem Session.check_when {built : Except Fault Expr} {vars : List Var} {holds : Valuation → Prop}
    (h : Expr.BuildsWhen built vars holds) :
    Ensures (check built) (fun c => c.States vars holds) (fun _ => False) := by
  obtain ⟨e, rfl, states⟩ := h
  exact .pure states

theorem Session.ask_ensures {α : Type} (context : String) (question : Nat → Except Failure α) :
    Ensures (ask context question) (fun a => ∃ calls, question calls = .ok a)
      (fun f => ∃ calls g, question calls = .error g ∧ f = g.within context) := by
  intro session
  simp only [ask, bind, EStateM.bind, modifyGet, MonadStateOf.modifyGet, EStateM.modifyGet]
  cases answer : question session.calls with
  | ok a => exact ⟨session.calls, answer⟩
  | error g => exact ⟨session.calls, g, answer, rfl⟩

namespace Value

/-- A value whose questions go to a solver that is right about the variables it has. -/
structure Posed (v : Value) (solver : Solver) (known : List Var) (admissible : Valuation → Prop) :
    Prop where
  solver_eq : v.solver = some solver
  right : solver.Right known admissible
  one : Vars.OneWidth known
  wellFormed : v.expr.WellFormed
  conditions : ∀ c ∈ v.constraints, c.Condition
  covered : (v.expr :: v.constraints).flatMap Expr.occurrences ⊆ known

/-- The expression has a value in some admissible solution of the constraints. -/
def Can (v : Value) (admissible : Valuation → Prop) (x : UInt64) : Prop :=
  ∃ ρ, admissible ρ ∧ Holds ρ v.constraints ∧ v.expr.meaning ρ = x.toNat

/-- What is wrong where a question fails. -/
def Fails (v : Value) (solver : Solver) (admissible : Valuation → Prop) (f : Failure) : Prop :=
  solver.Reports f ∨ f = .error .unsat ∧ ∀ x, ¬ v.Can admissible x

variable {v : Value} {solver : Solver} {known : List Var} {admissible : Valuation → Prop}

theorem under_nil (v : Value) : v.under [] = v := by simp [under]

theorem Posed.under (posed : v.Posed solver known admissible) {extra : List Expr}
    (conditions : ∀ c ∈ extra, c.Condition) (covered : extra.flatMap Expr.occurrences ⊆ known) :
    (v.under extra).Posed solver known admissible where
  solver_eq := posed.solver_eq
  right := posed.right
  one := posed.one
  wellFormed := posed.wellFormed
  conditions := List.forall_mem_append.mpr ⟨posed.conditions, conditions⟩
  covered := by
    have before := posed.covered
    simp only [Value.under, List.flatMap_cons, List.flatMap_append, List.append_subset] at before ⊢
    exact ⟨before.1, before.2, covered⟩

theorem Posed.expr_covered (posed : v.Posed solver known admissible) : v.expr.occurrences ⊆ known := by
  have covered := posed.covered
  rw [List.flatMap_cons, List.append_subset] at covered
  exact covered.1

theorem Posed.constraints_covered (posed : v.Posed solver known admissible) :
    v.constraints.flatMap Expr.occurrences ⊆ known := by
  have covered := posed.covered
  rw [List.flatMap_cons, List.append_subset] at covered
  exact covered.2

theorem Can.lt (wf : v.expr.WellFormed) {x : UInt64} (can : v.Can admissible x) :
    x.toNat < 2 ^ v.expr.width.toNat := by
  obtain ⟨ρ, _, _, value⟩ := can
  rw [← value]
  exact Expr.meaning_lt ρ wf

theorem under_can {c : Expr} {vars : List Var} {q : Nat → Prop}
    (states : c.States vars fun ρ => q (v.expr.meaning ρ)) (x : UInt64) :
    (v.under [c]).Can admissible x ↔ v.Can admissible x ∧ q x.toNat := by
  have holds : ∀ ρ, Holds ρ (v.under [c]).constraints ↔ Holds ρ v.constraints ∧ q (v.expr.meaning ρ) := by
    intro ρ
    simp only [under, Holds, List.forall_mem_append, List.mem_singleton, forall_eq, states.holds_iff]
  constructor
  · rintro ⟨ρ, good, meets, value⟩
    obtain ⟨before, more⟩ := (holds ρ).mp meets
    exact ⟨⟨ρ, good, before, value⟩, value ▸ more⟩
  · rintro ⟨⟨ρ, good, before, value⟩, more⟩
    exact ⟨ρ, good, (holds ρ).mpr ⟨before, value.symm ▸ more⟩, value⟩

/-- A solver's answer: something the value can be, or nothing if it can be nothing. -/
def Answers (v : Value) (admissible : Valuation → Prop) : Option UInt64 → Prop
  | some x => v.Can admissible x
  | none => ∀ x, ¬ v.Can admissible x

theorem not_can_of_not_holds (none_ : ∀ ρ, admissible ρ → ¬ Holds ρ v.constraints) (x : UInt64) :
    ¬ v.Can admissible x := by
  rintro ⟨ρ, good, holds, _⟩
  exact none_ ρ good holds

theorem can_of_holds (wf : v.expr.WellFormed) {ρ : Valuation} (good : admissible ρ)
    (holds : Holds ρ v.constraints) : v.Can admissible (v.expr.value ρ).value :=
  ⟨ρ, good, holds, (Expr.value_toNat ρ wf).symm⟩

/-- Values for all variables of an expression give it its value. -/
theorem eval_ofLists {e : Expr} (wf : e.WellFormed) {vars : List Var} (sorted : Vars.Sorted vars)
    (listed : e.occurrences ⊆ vars) (ρ : Valuation) :
    ∃ a, Assignment.ofLists vars (vars.map fun v => ρ v.name) = .ok a ∧ e.eval a = .ok (e.value ρ) := by
  obtain ⟨a, given, gives⟩ := Assignment.ofLists_map sorted ρ
  have binds : a.Binds e := by
    intro u occurs
    rw [gives u (listed occurs)]
    rfl
  have same : e.meaning a.valuation = e.meaning ρ := by
    apply Expr.meaning_congr
    intro u occurs
    rw [Assignment.valuation, gives u (listed occurs)]
    rfl
  refine ⟨a, given, ?_⟩
  rw [Expr.eval_eq wf binds, Expr.value, Expr.value, same]

/-- The answer to one question, or what the solver reports about that question. -/
theorem solve_reports {extra : List Expr} (posed : (v.under extra).Posed solver known admissible) :
    Ensures (v.solve extra) ((v.under extra).Answers admissible)
      (fun f => ∃ calls vars e, solver.solve calls (v.constraints ++ extra) vars = .error (.error e) ∧
        f = .error (.within "solve" e)) := by
  have solver_eq : v.solver = some solver := posed.solver_eq
  have wf : v.expr.WellFormed := posed.wellFormed
  have one : Vars.OneWidth ((v.expr :: (v.constraints ++ extra)).flatMap Expr.occurrences) :=
    fun u hu w hw => posed.one u (posed.covered hu) w (posed.covered hw)
  obtain ⟨vars, found, members⟩ := Vars.find_ok one
  have sorted := (Vars.find_spec found).1
  have listed : vars ⊆ known := fun u member => posed.covered ((members u).mp member)
  have asked := Session.ask_ensures "solve"
    (fun calls => solver.solve calls (v.constraints ++ extra) vars)
  simp only [solve, solver_eq, found, Session.check, pure_bind]
  refine (asked.mono (fun _ h => h) fun f failed => ?_).bind fun answer answered => ?_
  · obtain ⟨calls, g, failed, rfl⟩ := failed
    rcases posed.right calls _ vars posed.conditions posed.constraints_covered listed with
      ⟨ρ, solved, _⟩ | ⟨solved, _⟩ | ⟨e, solved⟩
    · cases failed.symm.trans solved
    · cases failed.symm.trans solved
    · cases failed.symm.trans solved
      exact ⟨calls, vars, e, solved, rfl⟩
  · obtain ⟨calls, answered⟩ := answered
    rcases posed.right calls _ vars posed.conditions posed.constraints_covered listed with
      ⟨ρ, solved, good, holds⟩ | ⟨solved, none_⟩ | ⟨e, solved⟩
    · cases answered.symm.trans solved
      have mine : v.expr.occurrences ⊆ vars := fun u occurs => (members u).mpr (List.mem_append_left _ occurs)
      obtain ⟨a, given, value⟩ := eval_ofLists wf sorted mine ρ
      simp only [given, pure_bind, value]
      exact .pure ⟨ρ, good, holds, (Expr.value_toNat ρ wf).symm⟩
    · cases answered.symm.trans solved
      exact .pure (not_can_of_not_holds none_)
    · cases answered.symm.trans solved

theorem solve_right {extra : List Expr} (posed : (v.under extra).Posed solver known admissible) :
    Ensures (v.solve extra) ((v.under extra).Answers admissible) solver.Reports := by
  refine (solve_reports posed).mono (fun _ h => h) fun f reported => ?_
  obtain ⟨calls, vars, e, failed, same⟩ := reported
  exact ⟨e, .inl ⟨calls, _, vars, failed, same⟩⟩

/-- Whether the constraints have an admissible solution. -/
theorem isSatisfiable_right (posed : v.Posed solver known admissible) :
    Ensures v.isSatisfiable (fun b => b = true ↔ ∃ x, v.Can admissible x) solver.Reports := by
  unfold isSatisfiable
  split
  · next failing =>
    obtain ⟨c, member, isFalse⟩ := List.any_eq_true.mp failing
    obtain ⟨tag, rfl⟩ := Expr.isFalse_iff.mp isFalse
    apply Ensures.pure
    constructor
    · nofun
    · rintro ⟨x, ρ, _, holds, _⟩
      cases holds _ member
  · have asked := Session.ask_ensures "solve" (fun calls => solver.solve calls v.constraints [])
    have covered := posed.constraints_covered
    simp only [posed.solver_eq]
    refine (asked.mono (fun _ h => h) fun f failed => ?_).bind fun answer answered => .pure ?_
    · obtain ⟨calls, g, failed, rfl⟩ := failed
      rcases posed.right calls _ [] posed.conditions covered (List.nil_subset _) with
        ⟨ρ, solved, _⟩ | ⟨solved, _⟩ | ⟨e, solved⟩
      · cases failed.symm.trans solved
      · cases failed.symm.trans solved
      · cases failed.symm.trans solved
        exact ⟨e, .inl ⟨calls, _, [], solved, rfl⟩⟩
    · obtain ⟨calls, answered⟩ := answered
      rcases posed.right calls _ [] posed.conditions covered (List.nil_subset _) with
        ⟨ρ, solved, good, holds⟩ | ⟨solved, none_⟩ | ⟨e, solved⟩
      · cases answered.symm.trans solved
        exact ⟨fun _ => ⟨_, can_of_holds posed.wellFormed good holds⟩, fun _ => rfl⟩
      · cases answered.symm.trans solved
        constructor
        · nofun
        · rintro ⟨x, can⟩
          exact absurd can (not_can_of_not_holds none_ x)
      · cases answered.symm.trans solved

theorem any_right (posed : v.Posed solver known admissible) (symbolic : v.isSymbolic = true) :
    Ensures v.any (v.Can admissible) (v.Fails solver admissible) := by
  have here : (v.under []).Posed solver known admissible := by rwa [under_nil]
  unfold any
  split
  · next tag w constant =>
    rw [isSymbolic, constant] at symbolic
    cases symbolic
  · have solved := solve_right here
    rw [under_nil] at solved
    refine (solved.mono (fun _ h => h) fun _ => .inl).bind fun answer answers => ?_
    cases answer with
    | some x => exact .pure answers
    | none => exact .throw (.inr ⟨rfl, answers⟩)

theorem Posed.states (posed : v.Posed solver known admissible) {c : Expr} {holds : Valuation → Prop}
    (states : c.States v.expr.occurrences holds) : (v.under [c]).Posed solver known admissible := by
  apply posed.under
  · simpa using states.condition
  · simpa using List.Subset.trans states.vars_subset posed.expr_covered

/-- Comparing a value to a number that fits its width leaves what compares so. -/
theorem compared_right (posed : v.Posed solver known admissible) (op : Op)
    (compare : op.isCompare = true) {bound : UInt64} (fits : bound.toNat < 2 ^ v.expr.width.toNat) :
    Ensures (v.compared op bound) (fun c => (v.under [c]).Posed solver known admissible ∧
      ∀ x, (v.under [c]).Can admissible x ↔
        v.Can admissible x ∧ op.meaning v.expr.width.toNat x.toNat bound.toNat = 1) (fun _ => False) := by
  have built := Expr.constant_when op compare posed.wellFormed bound
  rw [Nat.mod_eq_of_lt fits] at built
  refine (Session.check_when built).mono (fun c states => ?_) fun _ no => no
  exact ⟨posed.states states,
    under_can (q := fun n => op.meaning v.expr.width.toNat n bound.toNat = 1) states⟩

theorem differs_right (posed : v.Posed solver known admissible) {x : UInt64} (can : v.Can admissible x) :
    Ensures (v.compared .ne x) (fun c => (v.under [c]).Posed solver known admissible ∧
      ∀ y, (v.under [c]).Can admissible y ↔ v.Can admissible y ∧ y ≠ x) (fun _ => False) := by
  have fits := can.lt posed.wellFormed
  refine (compared_right posed .ne rfl fits).mono (fun c ⟨more, narrowed⟩ => ⟨more, fun y => ?_⟩) fun _ no => no
  rw [narrowed]
  apply and_congr_right
  intro canY
  rw [Op.meaning_ne (canY.lt posed.wellFormed) fits]
  simp [UInt64.toNat_inj]

/-- Whether a value can be one thing only. Where it can be nothing, this fails. -/
theorem isUnique_right (posed : v.Posed solver known admissible) (symbolic : v.isSymbolic = true) :
    Ensures v.isUnique (fun b => if b then ∃ x, ∀ y, v.Can admissible y ↔ y = x
      else ∃ x y, v.Can admissible x ∧ v.Can admissible y ∧ y ≠ x) (v.Fails solver admissible) := by
  unfold isUnique
  rw [symbolic]
  refine (any_right posed symbolic).bind fun x can => ?_
  have other := differs_right posed can
  refine (other.mono (fun _ h => h) fun _ no => no.elim).bind fun c ⟨more, differs⟩ => ?_
  refine ((solve_right more).mono (fun _ h => h) fun _ => .inl).bind fun answer answers => .pure ?_
  cases answer with
  | none =>
      refine ⟨x, fun y => ⟨fun canY => ?_, fun same => same ▸ can⟩⟩
      by_contra apart
      exact answers y ((differs y).mpr ⟨canY, apart⟩)
  | some y =>
      obtain ⟨canY, apart⟩ := (differs y).mp answers
      exact ⟨x, y, can, canY, apart⟩

section Extremes

variable (posed : v.Posed solver known admissible)

include posed

theorem probe_right (op : Op) (compare : op.isCompare = true) {bound : UInt64}
    (fits : bound.toNat < 2 ^ v.expr.width.toNat) :
    Ensures (v.probe op bound) (fun answer => match answer with
      | some x => v.Can admissible x ∧ op.meaning v.expr.width.toNat x.toNat bound.toNat = 1
      | none => ∀ x, v.Can admissible x → op.meaning v.expr.width.toNat x.toNat bound.toNat ≠ 1)
      solver.Reports := by
  unfold probe
  have built := compared_right posed op compare fits
  refine (built.mono (fun _ h => h) fun _ no => no.elim).bind fun c ⟨more, narrowed⟩ => ?_
  refine (solve_right more).mono (fun answer answers => ?_) fun _ h => h
  cases answer with
  | some x => exact (narrowed x).mp answers
  | none =>
      intro x can holds
      exact answers x ((narrowed x).mpr ⟨can, holds⟩)

/-- The search for the least value keeps a value at its high end and nothing below its low end. -/
theorem leastFrom?_right (lo hi : UInt64) (high : v.Can admissible hi)
    (low : ∀ x, v.Can admissible x → lo ≤ x) (session : Session) :
    ∃ result, v.leastFrom? lo hi session = some result ∧ match result with
      | .ok least _ => v.Can admissible least ∧ ∀ x, v.Can admissible x → least ≤ x
      | .error f _ => solver.Reports f := by
  -- The interval gets smaller with every answer.
  induction size : hi.toNat - lo.toNat using Nat.strongRecOn generalizing lo hi session with
  | ind size ih =>
      rw [leastFrom?]
      split
      · next less =>
        have middle_eq := middle_toNat less
        have next_eq := middle_succ_toNat less
        have ends := UInt64.lt_iff_toNat_lt.mp less
        have highFits := high.lt posed.wellFormed
        have fits : (middle lo hi).toNat < 2 ^ v.expr.width.toNat := by omega
        have probed := probe_right posed .ule rfl fits session
        cases result : v.probe .ule (middle lo hi) session with
        | error f left =>
            rw [result] at probed
            exact ⟨_, rfl, probed⟩
        | ok answer left =>
            rw [result] at probed
            cases answer with
            | some x =>
                obtain ⟨can, below⟩ := probed
                rw [Op.meaning_ule (can.lt posed.wellFormed) fits] at below
                have le : x.toNat ≤ (middle lo hi).toNat := by simpa using below
                exact ih _ (by omega) lo x can low left rfl
            | none =>
                have above : ∀ x, v.Can admissible x → middle lo hi + 1 ≤ x := by
                  intro x can
                  have apart := probed x can
                  rw [Op.meaning_ule (can.lt posed.wellFormed) fits] at apart
                  have lt : (middle lo hi).toNat < x.toNat := by simpa using apart
                  rw [UInt64.le_iff_toNat_le, next_eq]
                  exact lt
                exact ih _ (by omega) (middle lo hi + 1) hi high above left rfl
      · next closed =>
        have same : lo = hi := UInt64.le_antisymm (low hi high) (UInt64.not_lt.mp closed)
        exact ⟨_, rfl, same ▸ high, low⟩

/-- The search for the greatest value keeps a value at its low end and nothing above its high end. -/
theorem greatestFrom?_right (lo hi : UInt64) (low : v.Can admissible lo)
    (high : ∀ x, v.Can admissible x → x ≤ hi) (fits : hi.toNat < 2 ^ v.expr.width.toNat)
    (session : Session) :
    ∃ result, v.greatestFrom? lo hi session = some result ∧ match result with
      | .ok greatest _ => v.Can admissible greatest ∧ ∀ x, v.Can admissible x → x ≤ greatest
      | .error f _ => solver.Reports f := by
  induction size : hi.toNat - lo.toNat using Nat.strongRecOn generalizing lo hi session with
  | ind size ih =>
      rw [greatestFrom?]
      split
      · next less =>
        have middle_eq := middle_toNat less
        have next_eq := middle_succ_toNat less
        have ends := UInt64.lt_iff_toNat_lt.mp less
        have nextFits : (middle lo hi + 1).toNat < 2 ^ v.expr.width.toNat := by omega
        have probed := probe_right posed .uge rfl nextFits session
        cases result : v.probe .uge (middle lo hi + 1) session with
        | error f left =>
            rw [result] at probed
            exact ⟨_, rfl, probed⟩
        | ok answer left =>
            rw [result] at probed
            cases answer with
            | some x =>
                obtain ⟨can, above⟩ := probed
                rw [Op.meaning_uge, Op.meaning_ule nextFits (can.lt posed.wellFormed)] at above
                have le : (middle lo hi + 1).toNat ≤ x.toNat := by simpa using above
                have top := UInt64.le_iff_toNat_le.mp (high x can)
                exact ih _ (by omega) x hi can high fits left rfl
            | none =>
                have below : ∀ x, v.Can admissible x → x ≤ middle lo hi := by
                  intro x can
                  have apart := probed x can
                  rw [Op.meaning_uge, Op.meaning_ule nextFits (can.lt posed.wellFormed)] at apart
                  have lt : x.toNat < (middle lo hi + 1).toNat := by simpa using apart
                  rw [UInt64.le_iff_toNat_le]
                  omega
                exact ih _ (by omega) lo (middle lo hi) low below (by omega) left rfl
      · next closed =>
        have same : lo = hi := UInt64.le_antisymm (high lo low) (UInt64.not_lt.mp closed)
        exact ⟨_, rfl, same ▸ low, high⟩

theorem min_right (symbolic : v.isSymbolic = true) :
    Ensures v.min (fun least => v.Can admissible least ∧ ∀ x, v.Can admissible x → least ≤ x)
      (v.Fails solver admissible) := by
  unfold min
  rw [symbolic]
  refine (any_right posed symbolic).bind fun known can session => ?_
  obtain ⟨result, found, right⟩ :=
    leastFrom?_right posed 0 known can (fun x _ => UInt64.zero_le) session
  simp only [if_true, leastFrom, found, Option.getD_some]
  cases result with
  | ok least left => exact right
  | error f left => exact .inl right

theorem mask_lt : (mask v.width).toNat < 2 ^ v.expr.width.toNat := by
  have full := mask_toNat (Expr.width_bounds posed.wellFormed).2
  have pos := Nat.two_pow_pos v.expr.width.toNat
  rw [width]
  omega

theorem Can.le_mask {x : UInt64} (can : v.Can admissible x) : x ≤ mask v.width := by
  have full := mask_toNat (Expr.width_bounds posed.wellFormed).2
  have fits := can.lt posed.wellFormed
  rw [UInt64.le_iff_toNat_le, width, full]
  omega

theorem max_right (symbolic : v.isSymbolic = true) :
    Ensures v.max (fun greatest => v.Can admissible greatest ∧ ∀ x, v.Can admissible x → x ≤ greatest)
      (v.Fails solver admissible) := by
  unfold max
  rw [symbolic]
  refine (any_right posed symbolic).bind fun known can session => ?_
  obtain ⟨result, found, right⟩ :=
    greatestFrom?_right posed known (mask v.width) can (fun _ => Can.le_mask posed) (mask_lt posed) session
  simp only [if_true, greatestFrom, found, Option.getD_some]
  cases result with
  | ok greatest left => exact right
  | error f left => exact .inl right

end Extremes

section Listing

variable {limit : Int} (symbolic : v.isSymbolic = true) (positive : 0 < limit)

include symbolic positive

theorem anyN_enumerated {enumerate : Nat → List Expr → Expr → Int → Except Failure (List UInt64)}
    (offered : v.solver.bind Solver.enumerate = some enumerate) :
    v.anyN limit = Session.ask "enumerate" fun calls => enumerate calls v.constraints v.expr limit := by
  unfold anyN
  split
  · next tag w constant =>
    rw [isSymbolic, constant] at symbolic
    cases symbolic
  · rw [if_neg (by omega), offered]

theorem anyN_unaided (unaided : v.solver.bind Solver.enumerate = none) :
    v.anyN limit = v.othersThan limit.toNat [] := by
  unfold anyN
  split
  · next tag w constant =>
    rw [isSymbolic, constant] at symbolic
    cases symbolic
  · rw [if_neg (by omega), unaided]

end Listing

end Value

end SymbolicMemory
