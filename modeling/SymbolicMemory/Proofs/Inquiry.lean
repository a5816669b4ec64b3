import SymbolicMemory.Concretizer
import SymbolicMemory.Proofs.Attained
import SymbolicMemory.Proofs.Variables

/-! # Questions to a solver

Looking for concrete addresses is a course of questions to a solver, which may answer anything. It
leaves the supplies of names as they are. If it ends with an error, the solver answered its last
question with that error, or there is no solver, or no solution; whether the strategies run out is
settled by their list alone.
-/

namespace SymbolicMemory

namespace Session

/-- The names of a supply. -/
def supplied (s : Session) : Supply → Names
  | .own => s.names
  | .standard => s.standardNames

/-- How many bytes were made as fresh variables. -/
def freshBytes (s : Session) : Nat := s.counted.count .freshByte

/-- From one session to another no name was drawn. -/
structure Quiet (s s' : Session) : Prop where
  supplied : ∀ supply, s'.supplied supply = s.supplied supply
  freshBytes : s'.freshBytes = s.freshBytes

instance : Std.Refl Quiet := ⟨fun _ => ⟨fun _ => rfl, rfl⟩⟩

instance : Trans Quiet Quiet Quiet where
  trans first second := ⟨fun supply => (second.supplied supply).trans (first.supplied supply),
    second.freshBytes.trans first.freshBytes⟩

theorem record_quiet (event : Event) : Leads Quiet (record event) := by
  intro s
  refine ⟨fun supply => ?_, rfl⟩
  cases supply <;> rfl

theorem count_quiet {counter : Counter} (other : counter ≠ .freshByte) : Leads Quiet (count counter) := by
  intro s
  refine ⟨fun supply => ?_, ?_⟩
  · cases supply <;> rfl
  · exact List.count_cons_of_ne other

theorem check_quiet {α : Type} (r : Except Fault α) : Leads Quiet (check r) := by
  cases r with
  | ok a => exact .pure a
  | error fault => exact .throw _

theorem make_quiet (built : Except Fault Expr) : Leads Quiet (make built) := by
  refine (check_quiet built).bind fun e s => ?_
  refine ⟨fun supply => ?_, rfl⟩
  cases supply <;> rfl

/-- From one session to another no name was drawn, and questions may have been asked. -/
structure Inquired (s s' : Session) : Prop extends Quiet s s' where
  calls_le : s.calls ≤ s'.calls

instance : Std.Refl Inquired := ⟨fun s => ⟨Std.Refl.refl s, Nat.le_refl _⟩⟩

instance : Trans Inquired Inquired Inquired where
  trans first second := ⟨Trans.trans first.toQuiet second.toQuiet, Nat.le_trans first.calls_le second.calls_le⟩

end Session

open Session

namespace Expr

/-- Where every variable has a value, evaluation breaks off but reports no error. -/
theorem eval_faults {a : Assignment} {e : Expr} (binds : a.Binds e) {f : Failure}
    (failed : e.eval a = .error f) : ∃ fault, f = .fault fault := by
  have stops : ∀ {x : Except Fault Word} {f : Failure}, Failure.ofFault x = .error f →
      ∃ fault, f = .fault fault := by
    intro x f failed
    cases x with
    | ok w => cases failed
    | error fault =>
        cases failed
        exact ⟨fault, rfl⟩
  induction e generalizing f with
  | const tag w => cases failed
  | var tag v =>
      obtain ⟨value, known⟩ := Option.isSome_iff_exists.mp (binds v List.mem_cons_self)
      rw [eval, known] at failed
      exact stops failed
  | concat tag x y ihx ihy | binary tag op x y ihx ihy =>
      rw [eval] at failed
      cases left : x.eval a with
      | error g =>
          rw [left] at failed
          cases failed
          exact ihx (fun v occurs => binds v (List.mem_append_left _ occurs)) left
      | ok l =>
          cases right : y.eval a with
          | error g =>
              rw [left, right] at failed
              cases failed
              exact ihy (fun v occurs => binds v (List.mem_append_right _ occurs)) right
          | ok r =>
              rw [left, right] at failed
              exact stops failed
  | extract tag x offset width ih | not tag x ih | zext tag x width ih =>
      rw [eval] at failed
      cases inner : x.eval a with
      | error g =>
          rw [inner] at failed
          cases failed
          exact ih binds inner
      | ok w =>
          rw [inner] at failed
          exact stops failed

end Expr

/-- What one step of a fold brings about and later ones keep holds of everything folded over. -/
theorem foldlM_reaches {ε σ β : Type} {f : σ → β → Except ε σ} (reached : β → σ → Prop)
    (reach : ∀ a x b, f a x = .ok b → reached x b) (keep : ∀ a x y b, f a y = .ok b → reached x a → reached x b)
    {xs : List β} {a b : σ} (done : xs.foldlM f a = .ok b) : ∀ x ∈ xs, reached x b := by
  have kept : ∀ {xs : List β} {a b : σ}, xs.foldlM f a = .ok b → ∀ x, reached x a → reached x b := by
    intro xs
    induction xs with
    | nil =>
        intro a b done x here
        cases done
        exact here
    | cons y rest ih =>
        intro a b done x here
        rw [List.foldlM_cons] at done
        cases step : f a y with
        | error e =>
            rw [step] at done
            cases done
        | ok mid =>
            rw [step] at done
            exact ih done x (keep a x y mid step here)
  induction xs generalizing a with
  | nil => simp
  | cons y rest ih =>
      rw [List.foldlM_cons] at done
      cases step : f a y with
      | error e =>
          rw [step] at done
          cases done
      | ok mid =>
          rw [step] at done
          intro x member
          rcases List.mem_cons.mp member with rfl | later
          · exact kept done x (reach a x mid step)
          · exact ih done x later

/-- Variables that were listed with values have values. -/
theorem Assignment.isSome_of_ofLists {vars : List Var} {values : List UInt64} {a : Assignment}
    (given : ofLists vars values = .ok a) {v : Var} (listed : v ∈ vars) : (a v.name).isSome := by
  unfold ofLists at given
  by_cases sizes : vars.length = values.length
  · rw [if_neg (not_not.mpr sizes)] at given
    have member : v ∈ (vars.zip values).map Prod.fst := by
      rw [List.map_fst_zip (Nat.le_of_eq sizes)]
      exact listed
    obtain ⟨pair, paired, rfl⟩ := List.mem_map.mp member
    refine foldlM_reaches (fun pair a => (a pair.1.name).isSome) ?_ ?_ given pair paired
    · rintro a ⟨u, value⟩ b step
      dsimp only at step
      split at step
      · cases step
      · cases step
        simp [set]
    · rintro a ⟨u, value⟩ ⟨w, other⟩ b step known
      dsimp only at step
      split at step
      · cases step
      · cases step
        by_cases same : u.name = w.name
        · simp [set, same]
        · simpa [set, same] using known
  · rw [if_pos sizes] at given
    cases given

namespace Value

variable {α β : Type}

/-- The solver of a value was asked last under the constraints on the value, and answered with an
    error. -/
inductive Reported (v : Value) (before after : Session) : Error → Prop
  | solve {solver : Solver} {calls : Nat} {constraints : List Expr} {vars : List Var} {cause : Error} :
      v.solver = some solver → before.calls ≤ calls → after.calls = calls + 1 →
      v.constraints <+: constraints → solver.solve calls constraints vars = .error (.error cause) →
      Reported v before after (.within "solve" cause)
  | enumerate {solver : Solver} {calls : Nat} {constraints : List Expr} {limit : Int} {cause : Error}
      {enumerate : Nat → List Expr → Expr → Int → Except Failure (List UInt64)} :
      v.solver = some solver → before.calls ≤ calls → after.calls = calls + 1 →
      v.constraints <+: constraints → solver.enumerate = some enumerate →
      enumerate calls constraints v.expr limit = .error (.error cause) →
      Reported v before after (.within "enumerate" cause)

/-- The errors with which a search for concrete addresses can end, and what each goes back to. -/
inductive Cause (v : Value) (strategies : List Strategy) (before after : Session) : Error → Prop
  | unsat : Cause v strategies before after .unsat
  | unsatAddress : Cause v strategies before after .unsatAddress
  | constraintsNeedSolver : v.solver = none → Cause v strategies before after .constraintsNeedSolver
  | valueNeedsSolver : v.solver = none → Cause v strategies before after .valueNeedsSolver
  | reported {e : Error} : v.Reported before after e → Cause v strategies before after e
  | unresolvable : .any ∉ strategies → Cause v strategies before after .unresolvableAddress
  | unknown {name : String} :
      .unknown name ∈ strategies → Cause v strategies before after (.unknownStrategy name)

/-- Questions were asked, and then something broke off or an error went back to its cause. -/
def Stops (v : Value) (strategies : List Strategy) (before : Session) (f : Failure) (after : Session) : Prop :=
  Inquired before after ∧ ∀ e, f = .error e → v.Cause strategies before after e

/-- A computation that asks about a value and fails for one of the known causes. -/
def Inquires (v : Value) (strategies : List Strategy) (x : Run α) : Prop :=
  ∀ before, Ends x before (fun _ after => Inquired before after) (v.Stops strategies before)

variable {v : Value} {strategies : List Strategy}

section Causes

variable {before mid after : Session} {e : Error}

theorem Reported.earlier (reported : v.Reported mid after e) (le : before.calls ≤ mid.calls) :
    v.Reported before after e := by
  cases reported with
  | solve solver from_ last asked answer => exact .solve solver (Nat.le_trans le from_) last asked answer
  | enumerate solver from_ last asked offers answer =>
      exact .enumerate solver (Nat.le_trans le from_) last asked offers answer

theorem Reported.of_under {more : List Expr} (reported : (v.under more).Reported before after e) :
    v.Reported before after e := by
  cases reported with
  | solve solver from_ last asked answer =>
      exact .solve solver from_ last ((List.prefix_append _ _).trans asked) answer
  | enumerate solver from_ last asked offers answer =>
      exact .enumerate solver from_ last ((List.prefix_append _ _).trans asked) offers answer

/-- A cause carries over where the answers of the solver do. -/
theorem Cause.carry {u : Value} (cause : u.Cause strategies mid after e) (solver : v.solver = u.solver)
    (reports : u.Reported mid after e → v.Reported before after e) : v.Cause strategies before after e := by
  cases cause with
  | unsat => exact .unsat
  | unsatAddress => exact .unsatAddress
  | constraintsNeedSolver absent => exact .constraintsNeedSolver (solver.trans absent)
  | valueNeedsSolver absent => exact .valueNeedsSolver (solver.trans absent)
  | reported reported => exact .reported (reports reported)
  | unresolvable none_ => exact .unresolvable none_
  | unknown listed => exact .unknown listed

theorem Stops.earlier {f : Failure} (asked : Inquired before mid) (stops : v.Stops strategies mid f after) :
    v.Stops strategies before f after :=
  ⟨Trans.trans asked stops.1, fun e failed => (stops.2 e failed).carry rfl (·.earlier asked.calls_le)⟩

theorem Stops.of_under {f : Failure} {more : List Expr} (stops : (v.under more).Stops strategies before f after) :
    v.Stops strategies before f after := ⟨stops.1, fun e failed => (stops.2 e failed).carry rfl (·.of_under)⟩

end Causes

namespace Inquires

theorem pure (a : α) : v.Inquires strategies (Pure.pure a : Run α) := fun before => .pure (Std.Refl.refl before)

theorem fault (fault : Fault) : v.Inquires strategies (MonadExcept.throw (.fault fault) : Run α) := by
  refine fun before => .throw ⟨Std.Refl.refl before, fun e other => ?_⟩
  cases other

theorem throw {e : Error} (cause : ∀ session, v.Cause strategies session session e) :
    v.Inquires strategies (MonadExcept.throw (.error e) : Run α) := by
  refine fun before => .throw ⟨Std.Refl.refl before, fun e same => ?_⟩
  cases same
  exact cause before

theorem bind {x : Run α} {f : α → Run β} (first : v.Inquires strategies x)
    (rest : ∀ a, v.Inquires strategies (f a)) : v.Inquires strategies (x >>= f) := by
  intro before
  refine (first before).bind (fun _ _ stops => stops) fun a mid asked => ?_
  refine .intro (fun b after done => ?_) fun e after failed => ?_
  · exact (Trans.trans asked ((rest a mid).of_ok done) : Inquired before after)
  · exact ((rest a mid).of_error failed).earlier asked

/-- Goes on with what was checked. -/
theorem check {r : Except Fault α} {f : α → Run β} (rest : ∀ a, r = .ok a → v.Inquires strategies (f a)) :
    v.Inquires strategies (Session.check r >>= f) := by
  cases r with
  | ok a => exact rest a rfl
  | error broken => exact fun before => fault broken before

theorem of_under {x : Run α} {more : List Expr} (h : (v.under more).Inquires strategies x) :
    v.Inquires strategies x := fun before =>
  .intro (fun _ _ done => (h before).of_ok done) fun _ _ failed => ((h before).of_error failed).of_under

end Inquires

/-- What a solver is asked costs one call, and an error that it answers with is passed on. -/
theorem ask_inquires {context : String} {question : Nat → Except Failure α}
    (reports : ∀ (before after : Session) calls cause, before.calls ≤ calls → after.calls = calls + 1 →
      question calls = .error (.error cause) → v.Reported before after (.within context cause)) :
    v.Inquires strategies (Session.ask context question) := by
  intro before
  have asked : Inquired before { before with calls := before.calls + 1 } := by
    refine ⟨⟨fun supply => ?_, rfl⟩, Nat.le_succ _⟩
    cases supply <;> rfl
  simp only [Ends, ask, Bind.bind, EStateM.bind, modifyGet, MonadStateOf.modifyGet, EStateM.modifyGet]
  cases answer : question before.calls with
  | ok a => exact asked
  | error g =>
      refine ⟨asked, fun e same => ?_⟩
      cases g with
      | fault fault => cases same
      | error cause =>
          cases same
          exact .reported (reports before _ before.calls cause (Nat.le_refl _) rfl answer)

variable (v)

theorem isSatisfiable_inquires : v.Inquires strategies v.isSatisfiable := by
  unfold isSatisfiable
  split
  · exact .pure _
  cases solver : v.solver with
  | none =>
      refine .check fun vars _ => ?_
      split
      · exact .pure _
      · exact .throw fun _ => .constraintsNeedSolver solver
  | some solver' =>
      refine (ask_inquires fun before after calls cause from_ last answer => ?_).bind fun _ => .pure _
      exact .solve solver from_ last (List.prefix_refl _) answer

theorem solve_inquires (extra : List Expr) : v.Inquires strategies (v.solve extra) := by
  unfold solve
  cases solver : v.solver with
  | none => exact .throw fun _ => .valueNeedsSolver solver
  | some solver' =>
      refine .check fun vars found => Inquires.bind (ask_inquires ?_) fun answer => ?_
      · intro before after calls cause from_ last answer
        exact .solve solver from_ last (List.prefix_append _ _) answer
      cases answer with
      | none => exact .pure _
      | some values =>
          refine .check fun a given => ?_
          cases result : v.expr.eval a with
          | ok w => exact .pure _
          | error f =>
              have binds : a.Binds v.expr := fun u occurs => Assignment.isSome_of_ofLists given
                (((Vars.find_spec found).2 u).mpr (List.mem_append_left _ occurs))
              obtain ⟨broken, rfl⟩ := Expr.eval_faults binds result
              exact .fault broken

theorem any_inquires : v.Inquires strategies v.any := by
  unfold any
  split
  · exact .pure _
  · refine (v.solve_inquires []).bind fun answer => ?_
    cases answer with
    | none => exact .throw fun _ => .unsat
    | some value => exact .pure _

theorem compared_inquires (op : Op) (bound : UInt64) : v.Inquires strategies (v.compared op bound) := by
  unfold compared
  rw [← bind_pure (Session.check _)]
  exact .check fun _ _ => .pure _

theorem isUnique_inquires : v.Inquires strategies v.isUnique := by
  unfold isUnique
  split
  · exact .pure _
  · exact v.any_inquires.bind fun value => (v.compared_inquires _ value).bind fun other =>
      (v.solve_inquires _).bind fun _ => .pure _

theorem probe_inquires (op : Op) (bound : UInt64) : v.Inquires strategies (v.probe op bound) :=
  (v.compared_inquires op bound).bind fun _ => v.solve_inquires _

/-- How a search for an extreme ends, if it does. -/
def Ended (v : Value) (strategies : List Strategy) (before : Session) :
    EStateM.Result Failure Session UInt64 → Prop
  | .ok _ after => Inquired before after
  | .error f after => v.Stops strategies before f after

variable {v} in
theorem Ended.earlier {before mid : Session} (asked : Inquired before mid)
    {r : EStateM.Result Failure Session UInt64} (ended : v.Ended strategies mid r) :
    v.Ended strategies before r := by
  cases r with
  | ok a after => exact (Trans.trans asked ended : Inquired before after)
  | error f after => exact Stops.earlier asked ended

variable {v} in
/-- A search breaks off where it would not end. -/
theorem Ended.getD {search : Session → Option (EStateM.Result Failure Session UInt64)}
    (ended : ∀ session r, search session = some r → v.Ended strategies session r) (fault : Fault) :
    v.Inquires strategies (fun session => (search session).getD (.error (.fault fault) session)) := by
  intro session
  cases result : search session with
  | none =>
      simp only [Ends, result, Option.getD_none]
      exact ⟨Std.Refl.refl session, by simp⟩
  | some r =>
      have here := ended session r result
      simp only [Ends, result, Option.getD_some]
      cases r with
      | ok a after => exact here
      | error f after => exact here

theorem leastFrom_inquires (lo hi : UInt64) : v.Inquires strategies (v.leastFrom lo hi) := by
  have ended : ∀ lo hi session r, v.leastFrom? lo hi session = some r → v.Ended strategies session r := by
    apply leastFrom?.partial_correctness
    intro search ih lo hi session r found
    split at found
    · have probed : v.Inquires strategies _ := v.probe_inquires .ule (middle lo hi)
      split at found
      · next asked => exact (ih _ _ _ _ found).earlier ((probed session).of_ok asked)
      · next asked => exact (ih _ _ _ _ found).earlier ((probed session).of_ok asked)
      · next asked =>
        cases found
        exact (probed session).of_error asked
    · cases found
      exact Std.Refl.refl session
  exact Ended.getD (ended lo hi) _

theorem greatestFrom_inquires (lo hi : UInt64) : v.Inquires strategies (v.greatestFrom lo hi) := by
  have ended : ∀ lo hi session r, v.greatestFrom? lo hi session = some r → v.Ended strategies session r := by
    apply greatestFrom?.partial_correctness
    intro search ih lo hi session r found
    split at found
    · have probed : v.Inquires strategies _ := v.probe_inquires .uge (middle lo hi + 1)
      split at found
      · next asked => exact (ih _ _ _ _ found).earlier ((probed session).of_ok asked)
      · next asked => exact (ih _ _ _ _ found).earlier ((probed session).of_ok asked)
      · next asked =>
        cases found
        exact (probed session).of_error asked
    · cases found
      exact Std.Refl.refl session
  exact Ended.getD (ended lo hi) _

theorem min_inquires : v.Inquires strategies v.min := by
  refine v.any_inquires.bind fun known => ?_
  split
  · exact v.leastFrom_inquires _ _
  · exact .pure _

theorem max_inquires : v.Inquires strategies v.max := by
  refine v.any_inquires.bind fun known => ?_
  split
  · exact v.greatestFrom_inquires _ _
  · exact .pure _

theorem othersThan_inquires (count : Nat) (ruledOut : List Expr) :
    v.Inquires strategies (v.othersThan count ruledOut) := by
  induction count generalizing ruledOut with
  | zero => exact .pure _
  | succ count ih =>
      refine (v.solve_inquires ruledOut).bind fun answer => ?_
      cases answer with
      | none => exact .pure _
      | some value => exact (v.compared_inquires _ _).bind fun other => (ih _).bind fun _ => .pure _

theorem anyN_inquires (limit : Int) : v.Inquires strategies (v.anyN limit) := by
  unfold anyN
  split
  · exact .pure _
  split
  · exact .pure _
  split
  · next enumerate offers =>
    obtain ⟨solver, given, offers⟩ := Option.bind_eq_some_iff.mp offers
    refine ask_inquires fun before after calls cause from_ last answer => ?_
    exact .enumerate given from_ last (List.prefix_refl _) offers answer
  · exact v.othersThan_inquires _ _

end Value

namespace Concretizer

variable (v : Value) {strategies : List Strategy}

theorem observe_quiet (resolution : Resolution) (found : Addresses) :
    Leads Quiet (observe resolution found) :=
  (count_quiet (by simp)).bind fun _ => (record_quiet _).bind fun _ => .pure _

theorem observe_inquires (resolution : Resolution) (found : Addresses) :
    v.Inquires strategies (observe resolution found) := fun before =>
  ⟨(observe_quiet resolution found).of_ok rfl, Nat.le_refl before.calls⟩

/-- That a condition cannot be met is no failure. -/
theorem anyUnder_inquires (condition : Expr) : v.Inquires strategies (anyUnder v condition) := by
  unfold anyUnder
  split
  · exact .pure _
  have one : v.Inquires strategies (do pure [← (v.under [condition]).any] : Run (List UInt64)) :=
    ((v.under [condition]).any_inquires.bind fun _ => .pure _).of_under
  refine fun before => (one before).tryCatch fun f mid stops => ?_
  cases f with
  | fault fault => exact .throw stops
  | error e =>
      dsimp only
      split
      · exact .pure stops.1
      · exact .throw stops

theorem anyIn_inquires (regions : List Region) : v.Inquires strategies (anyIn v regions) := by
  induction regions with
  | nil => exact .pure _
  | cons r rest ih =>
      refine .check fun condition _ => (anyUnder_inquires v condition).bind fun found => ?_
      split
      · exact ih
      · exact .pure _

variable (c : Concretizer)

theorem anyFree_inquires : v.Inquires strategies (c.anyFree v) := by
  unfold anyFree
  split
  · exact .pure _
  · exact .check fun condition _ => anyUnder_inquires v condition

theorem everyNear_inquires : v.Inquires strategies (c.everyNear v) := by
  refine v.min_inquires.bind fun least => v.max_inquires.bind fun greatest => ?_
  split
  · refine Value.Inquires.bind (fun before => ?_) fun _ => .pure _
    exact ⟨(record_quiet _).of_ok rfl, Nat.le_refl before.calls⟩
  · exact v.anyN_inquires _

theorem choose_inquires {strategy : Strategy} (listed : strategy ∈ strategies) :
    v.Inquires strategies (c.choose v strategy) := by
  cases strategy with
  | free => exact anyFree_inquires v c
  | writeable => exact anyIn_inquires v _
  | executable => exact anyIn_inquires v _
  | symbolic => exact everyNear_inquires v c
  | any => exact v.any_inquires.bind fun _ => .pure _
  | unknown name => exact .throw fun _ => .unknown listed

/-- Strategies run out only if any address at all is not among them. -/
theorem firstOf_inquires {rest : List Strategy} (listed : rest ⊆ strategies)
    (last : .any ∈ strategies → .any ∈ rest) : v.Inquires strategies (c.firstOf v rest) := by
  induction rest with
  | nil =>
      refine .throw fun _ => .unresolvable fun any => ?_
      cases last any
  | cons strategy rest ih =>
      -- what is left of the list has the last resort in it until that is tried, and it yields
      -- an address or fails
      obtain ⟨here, later⟩ := List.cons_subset.mp listed
      have observed : ∀ first others, v.Inquires strategies (observe (.strategy strategy) ⟨first, others⟩) :=
        fun _ _ => observe_inquires v _ _
      by_cases any : strategy = .any
      · subst any
        have one : c.firstOf v (.any :: rest) =
            v.any >>= fun value => observe (.strategy .any) ⟨value, []⟩ := by simp [firstOf, choose]
        rw [one]
        exact v.any_inquires.bind fun value => observed value []
      · refine (choose_inquires v c here).bind fun found => ?_
        cases found with
        | nil => exact ih later fun member => List.mem_of_ne_of_mem (Ne.symm any) (last member)
        | cons first others => exact observed first others

/-- How a search for concrete addresses fails: for a known cause, which is never that a value was
    asked for under constraints without a solution. -/
theorem concretize_ends (strategies : List Strategy) (before : Session) :
    Ends (c.concretize v strategies) before (fun _ after => Inquired before after)
      fun f after => v.Stops strategies before f after ∧ ∀ e, f = .error e → e.root ≠ .unsat := by
  have resolved : v.Inquires strategies (c.resolve v strategies) := by
    refine v.isUnique_inquires.bind fun unique => ?_
    split
    · exact v.any_inquires.bind fun _ => observe_inquires v _ _
    · exact firstOf_inquires v c (List.Subset.refl _) id
  have attempted : v.Inquires strategies (do
      if v.isSymbolic then
        if !(← v.isSatisfiable) then throw (.error .unsatAddress)
      c.resolve v strategies) := by
    split
    · refine v.isSatisfiable_inquires.bind fun satisfiable => ?_
      split
      · exact Value.Inquires.bind (.throw fun _ => .unsatAddress) fun _ => resolved
      · exact resolved
    · exact resolved
  refine (attempted before).tryCatch fun f mid stops => ?_
  cases f with
  | fault fault => exact .throw ⟨stops, fun e other => by cases other⟩
  | error e =>
      refine .throw ⟨⟨stops.1, ?_⟩, ?_⟩
      · rintro _ ⟨⟩
        split
        · exact .unsatAddress
        · exact stops.2 e rfl
      · rintro _ ⟨⟩
        split
        · decide
        · assumption

/-- Looking for concrete addresses draws no names. -/
theorem concretize_quiet (strategies : List Strategy) : Leads Quiet (c.concretize v strategies) := by
  intro before
  have ends := concretize_ends v c strategies before
  cases result : c.concretize v strategies before with
  | ok found after => exact (ends.of_ok result).toQuiet
  | error f after => exact (ends.of_error result).1.1.toQuiet

end Concretizer

end SymbolicMemory
