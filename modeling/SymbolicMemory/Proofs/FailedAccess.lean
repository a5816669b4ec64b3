import SymbolicMemory.Path
import SymbolicMemory.Proofs.Cutting
import SymbolicMemory.Proofs.Naming

/-! # Accesses that fail

An access asks its questions first and acts afterwards. All errors come from the questions: once
concrete addresses are found, what is left to do may break off at a fault but reports no error. So
an error leaves the memory, the constraints and the names as they were, and it says which access
failed at which address and for what cause.
-/

namespace SymbolicMemory

open Session

section Errorless

variable {σ τ α β : Type}

/-- A computation that reports no error: where it does not return, it breaks off. -/
def Errorless (x : EStateM Failure σ α) : Prop :=
  Ensures x (fun _ => True) fun f => ∃ fault, f = .fault fault

namespace Errorless

theorem pure (a : α) : Errorless (Pure.pure a : EStateM Failure σ α) := Ensures.pure trivial

theorem bind {x : EStateM Failure σ α} {f : α → EStateM Failure σ β} (first : Errorless x)
    (rest : ∀ a, Errorless (f a)) : Errorless (x >>= f) := Ensures.bind first fun a _ => rest a

theorem of_succeeds {x : EStateM Failure σ α} {returns : α → Prop} (h : Ensures x returns fun _ => False) :
    Errorless x := h.mono (fun _ _ => trivial) fun _ no => no.elim

theorem check (r : Except Fault α) : Errorless (Session.check r) := by
  cases r with
  | ok a => exact .pure a
  | error fault => exact Ensures.throw ⟨fault, rfl⟩

theorem make (built : Except Fault Expr) : Errorless (Session.make built) :=
  (check built).bind fun _ _ => trivial

theorem lift {x : Run α} (h : Errorless x) : Errorless (liftM x : On σ α) := On.ensures_lift h

theorem thing : Errorless (On.thing : On σ σ) := fun _ => trivial

theorem change (f : σ → σ) : Errorless (On.change f) := fun _ => trivial

theorem part {project : τ → σ} {replace : σ → τ → τ} {x : On σ α} (h : Errorless x) :
    Errorless (On.part project replace x) := by
  intro (whole, session)
  have here := h (project whole, session)
  simp only [On.part]
  cases result : x (project whole, session) with
  | ok a left => trivial
  | error f left =>
      rw [result] at here
      exact here

theorem forM {f : α → EStateM Failure σ Unit} (each : ∀ a, Errorless (f a)) (as : List α) :
    Errorless (as.forM f) := by
  induction as with
  | nil => exact .pure ()
  | cons a rest ih => exact (each a).bind fun _ => ih

theorem not_error {x : EStateM Failure σ α} (h : Errorless x) {s left : σ} {e : Error} :
    x s ≠ .error (.error e) left := by
  intro failed
  have here := h s
  rw [failed] at here
  obtain ⟨fault, broken⟩ := here
  cases broken

end Errorless

end Errorless

theorem Store.read_errorless (address : UInt64) : Errorless (Store.read address) := by
  refine Errorless.thing.bind fun s => ?_
  split
  · exact .pure _
  · have made : Errorless (s.materialize address) := by
      unfold Store.materialize
      split
      · exact (Errorless.make _).bind fun _ => (Errorless.of_succeeds (count_succeeds _)).bind fun _ => .pure _
      · refine (Errorless.of_succeeds (draw_succeeds _ _)).bind fun name => (Errorless.make _).bind fun _ => ?_
        exact (Errorless.of_succeeds (count_succeeds _)).bind fun _ => .pure _
    exact made.lift.bind fun _ => (Errorless.change _).bind fun _ => .pure _

theorem Store.write_errorless (address : UInt64) (cell : Expr) : Errorless (Store.write address cell) := by
  unfold Store.write
  split
  · exact Errorless.bind (Ensures.throw ⟨_, rfl⟩) fun _ => .change _
  · exact .change _

namespace Memory

theorem readCell_errorless (address : UInt64) : Errorless (readCell address) :=
  Errorless.thing.bind fun _ => (Store.read_errorless _).part

theorem readMore_errorless (address : UInt64) (count : Nat) (soFar : Expr) :
    Errorless (readMore address count soFar) := by
  induction count generalizing address soFar with
  | zero => exact .pure _
  | succ count ih =>
      refine (readCell_errorless address).bind fun cell => Errorless.thing.bind fun m => ?_
      exact (Errorless.make _).lift.bind fun _ => ih _ _

theorem readValue_errorless (address : UInt64) (count : Nat) : Errorless (readValue address count) :=
  (readCell_errorless address).bind fun _ => readMore_errorless _ _ _

theorem writeMore_errorless (value : Expr) (count left : Nat) (address : UInt64) :
    Errorless (writeMore value count left address) := by
  induction left generalizing address with
  | zero => exact .pure _
  | succ left ih =>
      refine Errorless.thing.bind fun m => (Errorless.make _).lift.bind fun cell => ?_
      exact (Errorless.thing.bind fun _ => (Store.write_errorless _ _).part).bind fun _ => ih _

theorem readCases_errorless (address : Value) (result : Expr) (count : Nat) (concretes : List UInt64) :
    Errorless (readCases address result count concretes) := by
  induction concretes with
  | nil => exact .pure _
  | cons concrete rest ih =>
      refine (readValue_errorless concrete count).bind fun value => Errorless.thing.bind fun m => ?_
      exact (Errorless.make _).lift.bind fun here => ih.bind fun _ => .pure _

theorem storeFound_errorless (m : Memory) (v : Value) (value : Expr) (found : Addresses) :
    Errorless (storeFound m v value found) :=
  (writeMore_errorless _ _ _ _).bind fun _ => (Errorless.make _).lift.bind fun _ => .pure _

theorem loadFound_errorless (m : Memory) (v : Value) (width : UInt64) (found : Addresses) :
    Errorless (loadFound m v width found) := by
  unfold loadFound
  split
  · exact (readValue_errorless _ _).bind fun _ => (Errorless.make _).lift.bind fun _ => .pure _
  · refine (Errorless.of_succeeds (draw_succeeds _ _)).lift.bind fun name => ?_
    refine (Errorless.make _).lift.bind fun result => (readCases_errorless _ _ _ _).bind fun cases_ => ?_
    refine (Errorless.of_succeeds (record_succeeds _)).lift.bind fun _ => ?_
    exact (Errorless.make _).lift.bind fun _ => .pure _

end Memory

namespace Expr

theorem width_of_resize {e r : Expr} {width : UInt64} (made : e.resize width = .ok r) : r.width = width := by
  unfold resize at made
  split at made
  · next same =>
    cases made
    exact same.symm
  split at made
  · exact (slice_cuts made).width_eq
  split at made
  · next w _ _ =>
    cases word : w.resize width with
    | error fault =>
        rw [word] at made
        cases made
    | ok w' =>
        rw [word] at made
        cases made
        exact Word.width_of_make word
  · cases made
    rfl

/-- An address at a given width: the address itself if it has that width, else a node of the shape
    that resizing gives it. -/
structure Resized (address : Expr) (bits : UInt64) (place : Expr) : Prop where
  built : ∃ r, address.resize bits = .ok r ∧ place.erase = r.erase
  width_eq : place.width = bits
  same : address.width = bits → place = address

end Expr

namespace Value

/-- The cause of an error: the constraints on the address have no solution, there is no solver to
    ask, or the solver answered its last question with this error. -/
inductive Blamed (v : Value) (before after : Session) : Error → Prop
  | unsat : Blamed v before after .unsatAddress
  | unsolvedConstraints : v.solver = none → Blamed v before after .constraintsNeedSolver
  | unsolvedValue : v.solver = none → Blamed v before after .valueNeedsSolver
  | reported {cause : Error} : v.Reported before after cause → cause.root ≠ .unsat →
      Blamed v before after cause

variable {v : Value} {before mid after : Session} {cause : Error}

theorem Blamed.ne_unresolvable (blamed : v.Blamed before after cause) : cause ≠ .unresolvableAddress := by
  rintro rfl
  cases blamed with
  | reported reported => cases reported

theorem Blamed.earlier (blamed : v.Blamed mid after cause) (asked : Inquired before mid) :
    v.Blamed before after cause := by
  cases blamed with
  | unsat => exact .unsat
  | unsolvedConstraints absent => exact .unsolvedConstraints absent
  | unsolvedValue absent => exact .unsolvedValue absent
  | reported reported solved => exact .reported (reported.earlier asked.calls_le) solved

/-- Where any address will do and every strategy is known, the strategies are not to blame. -/
theorem Cause.blamed {strategies : List Strategy} (any : .any ∈ strategies)
    (known : ∀ name, .unknown name ∉ strategies) (because : v.Cause strategies before after cause)
    (solved : cause.root ≠ .unsat) : v.Blamed before after cause := by
  cases because with
  | unsat => exact absurd rfl solved
  | unsatAddress => exact .unsat
  | constraintsNeedSolver absent => exact .unsolvedConstraints absent
  | valueNeedsSolver absent => exact .unsolvedValue absent
  | reported reported => exact .reported reported solved
  | unresolvable none_ => exact absurd any none_
  | unknown listed => exact absurd listed (known _)

end Value

namespace Memory

/-- What an error says that ended an access to a memory, and what it left of the session. -/
structure Rejected (m : Memory) (access : Access) (address : Value) (before after : Session) (e : Error) :
    Prop where
  names_eq : after.names = before.names
  standardNames_eq : after.standardNames = before.standardNames
  error_eq : ∃ place cause, e = .access access place cause ∧ address.expr.Resized m.bits place ∧
    (address.withExpr place).Blamed before after cause ∧ cause ≠ .unresolvableAddress

/-- An access from one state of things: the error, if it ends with one, and nothing else. -/
def Rejects (m : Memory) (access : Access) (address : Value) (before : Session) (f : Failure)
    (left : Memory × Session) : Prop :=
  ∀ e, f = .error e → left.1 = m ∧ m.Rejected access address before left.2 e

theorem make_inquired (built : Except Fault Expr) : Leads Inquired (make built) := by
  cases built with
  | ok e => exact fun s => ⟨(make_quiet (.ok e)).of_ok (rfl : make (.ok e) s = _), Nat.le_refl _⟩
  | error fault => exact fun s => Std.Refl.refl s

/-- An address is brought to size or something breaks off. -/
theorem sized_resizes (m : Memory) (address : Value) (before : Session) :
    Ends (m.sized address) before
      (fun v left => Inquired before left ∧
        ∃ place, v = address.withExpr place ∧ address.expr.Resized m.bits place)
      (fun f _ => ∃ fault, f = .fault fault) := by
  unfold sized
  split
  · next same =>
    refine .pure ⟨Std.Refl.refl before, address.expr, rfl, ⟨address.expr, if_pos same.symm, rfl⟩, same, fun _ => rfl⟩
  · next other =>
    cases made : address.expr.resize m.bits with
    | error fault => exact ⟨fault, rfl⟩
    | ok r =>
        refine ((Session.make_erase r).ends (make_inquired (.ok r)) before).bind (fun _ _ no => no.1.elim) ?_
        rintro place left ⟨shape, asked⟩
        refine .pure ⟨asked, place, rfl, ⟨r, made, shape⟩, ?_, fun same => absurd same other⟩
        rw [← Expr.width_erase, shape, Expr.width_erase, Expr.width_of_resize made]

/-- The errors of a search for concrete addresses come back with the access and the address. -/
theorem concretize_blames (m : Memory) (access : Access) (v : Value) {strategies : List Strategy}
    (any : .any ∈ strategies) (known : ∀ name, .unknown name ∉ strategies) (before : Session) :
    Ends (concretize access v strategies) (m, before) (fun _ _ => True)
      fun f left => ∀ e, f = .error e → left.1 = m ∧ Quiet before left.2 ∧
        ∃ cause, e = .access access v.expr cause ∧ v.Blamed before left.2 cause := by
  have ends := ends_concretize access (Concretizer.concretize_ends v m.concretizer strategies before)
  refine .intro (fun _ _ _ => trivial) fun f left failed e isError => ?_
  obtain ⟨same, _, ⟨stops, solved⟩, wrapped⟩ := ends.of_error failed
  obtain ⟨cause, rfl, rfl⟩ := wrapped e isError
  refine ⟨same, stops.1.toQuiet, cause, rfl, ?_⟩
  exact (stops.2 cause rfl).blamed any known (solved cause rfl)

/-- An access that can only break off once addresses are found ends with an error only before. -/
theorem resolving_rejects {α : Type} (m : Memory) (access : Access) (address : Value)
    {strategies : List Strategy} (any : .any ∈ strategies) (known : ∀ name, .unknown name ∉ strategies)
    {before start : Session} (begun : Inquired before start) {rest : Value → Addresses → On Memory α}
    (errorless : ∀ v found, Errorless (rest v found)) :
    Ends (liftM (m.sized address) >>= fun v => concretize access v strategies >>= rest v) (m, start)
      (fun _ _ => True) (m.Rejects access address before) := by
  refine On.ends_first (m.sized_resizes address start) ?_ ?_
  · rintro _ left ⟨fault, rfl⟩ _ ⟨⟩
  rintro _ mid ⟨sized, place, rfl, resized⟩
  refine (concretize_blames m access (address.withExpr place) any known mid).bind ?_ ?_
  · intro f left blames e failed
    obtain ⟨same, quiet, cause, rfl, blamed⟩ := blames e failed
    have asked : Inquired before mid := Trans.trans begun sized
    have quiet : Quiet before left.2 := Trans.trans asked.toQuiet quiet
    refine ⟨same, quiet.supplied .own, quiet.supplied .standard, place, cause, rfl, resized, ?_⟩
    exact ⟨blamed.earlier asked, blamed.ne_unresolvable⟩
  · -- from here on the memory may change, but no error is reported any more
    intro found left _
    refine .intro (fun _ _ _ => trivial) fun f after failed e same => ?_
    rw [same] at failed
    exact absurd failed (errorless _ found).not_error

theorem count_inquired {counter : Counter} (other : counter ≠ .freshByte) (s : Session) :
    Ends (count counter) s (fun _ left => Inquired s left) (fun _ _ => False) :=
  ⟨(count_quiet other).of_ok (rfl : count counter s = _), Nat.le_refl _⟩

theorem storeAt_rejects (m : Memory) (address : Value) (value : Expr) (before : Session) :
    Ends (storeAt address value) (m, before) (fun _ _ => True) (m.Rejects .store address before) := by
  refine On.ends_first (count_inquired (by simp) before) (fun _ _ no => no.elim) fun _ start begun => ?_
  split
  · refine Ends.bind (.throw ?_) (fun _ _ h => h) fun _ _ (no : False) => no.elim
    rintro _ ⟨⟩
  · refine m.resolving_rejects .store address (by decide) (by simp [Strategy.forStore]) begun ?_
    exact fun v found => storeFound_errorless m v value found

theorem loadFrom_rejects (m : Memory) (address : Value) (width : UInt64) (before : Session) :
    Ends (loadFrom address width) (m, before) (fun _ _ => True) (m.Rejects .load address before) := by
  refine On.ends_first (count_inquired (by simp) before) (fun _ _ no => no.elim) fun _ start begun => ?_
  split
  · refine Ends.bind (.throw ?_) (fun _ _ h => h) fun _ _ (no : False) => no.elim
    rintro _ ⟨⟩
  · refine m.resolving_rejects .load address (by decide) (by simp [Strategy.forLoad]) begun ?_
    exact fun v found => loadFound_errorless m v width found

end Memory

namespace Path

theorem assume_errorless (e : Expr) : Errorless (assume e) :=
  Errorless.thing.bind fun _ => (Errorless.check _).lift.bind fun _ => .change _

/-- An access through a path, which keeps constraints only once the memory has answered. -/
theorem onMemory_rejects {α β : Type} {x : On Memory α} {rest : α → On Path β} (p : Path) {access : Access}
    {address : Value} {before : Session}
    (rejects : Ends x (p.memory, before) (fun _ _ => True) (p.memory.Rejects access address before))
    (errorless : ∀ a, Errorless (rest a)) {e : Error} {left : Path × Session}
    (failed : (onMemory x >>= rest) (p, before) = .error (.error e) left) :
    left.1 = p ∧ p.memory.Rejected access address before left.2 e := by
  obtain first | ⟨a, mid, _, later⟩ := error_of_bind failed
  · simp only [onMemory, On.part] at first
    cases result : x (p.memory, before) with
    | ok a left =>
        rw [result] at first
        cases first
    | error f left =>
        rw [result] at first
        cases first
        obtain ⟨same, rejected⟩ := rejects.of_error result e rfl
        refine ⟨?_, rejected⟩
        rw [same]
  · exact absurd later (errorless a).not_error

end Path

/-- An access that ends with an error changes nothing: the memory with its cells and settings, the
    path with its constraints and the supplies of names are as before. The error says which access
    failed and where, with the address at the width of the memory, and wraps a cause: that the
    constraints have no solution, that there is no solver, or an error that the solver answered the
    last question with. It is never that the strategies ran out. -/
theorem failed_access_changes_nothing :
    (∀ (m : Memory) (address : Value) (value : Expr) (before : Session) (e : Error) (left : Memory × Session),
      Memory.storeAt address value (m, before) = .error (.error e) left →
      left.1 = m ∧ m.Rejected .store address before left.2 e) ∧
    (∀ (m : Memory) (address : Value) (width : UInt64) (before : Session) (e : Error) (left : Memory × Session),
      Memory.loadFrom address width (m, before) = .error (.error e) left →
      left.1 = m ∧ m.Rejected .load address before left.2 e) ∧
    (∀ (p : Path) (address value : Expr) (before : Session) (e : Error) (left : Path × Session),
      Path.store address value (p, before) = .error (.error e) left →
      left.1 = p ∧ p.memory.Rejected .store (p.value address) before left.2 e) ∧
    (∀ (p : Path) (address : Expr) (width : UInt64) (before : Session) (e : Error) (left : Path × Session),
      Path.load address width (p, before) = .error (.error e) left →
      left.1 = p ∧ p.memory.Rejected .load (p.value address) before left.2 e) := by
  refine ⟨?_, ?_, ?_, ?_⟩
  · intro m address value before e left failed
    exact (m.storeAt_rejects address value before).of_error failed e rfl
  · intro m address width before e left failed
    exact (m.loadFrom_rejects address width before).of_error failed e rfl
  · intro p address value before e left failed
    refine p.onMemory_rejects (p.memory.storeAt_rejects _ value before) (fun constraints => ?_) failed
    exact .forM Path.assume_errorless constraints
  · intro p address width before e left failed
    refine p.onMemory_rejects (p.memory.loadFrom_rejects _ width before) (fun answer => ?_) failed
    exact (Errorless.forM Path.assume_errorless answer.2).bind fun _ => .pure _

/-- A solver that answers once and then runs out of time stops a store to a symbolic address that is
    narrower than the address space; without a solver, a load from it is stopped. -/
theorem failed_access_changes_nothing_timeout :
    let tired : Solver := ⟨fun calls _ _ => if calls = 0 then .ok (some []) else .error (.error .solverTimeout), none⟩
    let m : Memory := ⟨16, true, {}, { id := "mem" }⟩
    let x : Expr := .var (some 0) ⟨"x", 8⟩
    let p : Path := { id := 1, solver := some tired, memory := m }
    let late : Error := .access .store (.zext (some 1) x 16) (.within "solve" .solverTimeout)
    let absent : Error := .access .load (.zext (some 1) x 16) .valueNeedsSolver
    (∃ left, Path.store x (.ofByte 7) (p, { nextTag := 1 }) = .error (.error late) left ∧
      left.1 = p ∧ m.Rejected .store (p.value x) { nextTag := 1 } left.2 late) ∧
    ∃ left, Memory.loadFrom ⟨none, [], x⟩ 8 (m, { nextTag := 1 }) = .error (.error absent) left ∧
      left.1 = m ∧ m.Rejected .load ⟨none, [], x⟩ { nextTag := 1 } left.2 absent := by
  intro tired m x p late absent
  refine ⟨⟨_, rfl, ?_⟩, ⟨_, rfl, ?_⟩⟩
  · exact failed_access_changes_nothing.2.2.1 p x (.ofByte 7) { nextTag := 1 } late _ rfl
  · exact failed_access_changes_nothing.2.1 m ⟨none, [], x⟩ 8 { nextTag := 1 } absent _ rfl

end SymbolicMemory
