import Mathlib
import SymbolicMemory.Proofs.Exploration
import SymbolicMemory.Proofs.Splitting

/-! # The constraints of a tree of paths

A ledger keeps beside a workbench what every path took on from its root on: the constraints that
were assumed, those of the forks on the way, and those that its stores and loads produced. Paths
are begun, forked and worked on in any order, over memories that several of them may share, and
deeds may fail. The list of a path says exactly what the ledger says, under every assignment. Lists
only grow, each by deeds on its own path, and a fork starts with the list of the path it comes from.
-/

namespace SymbolicMemory

/-- What is kept for some constraints: it holds where they do, and nothing in it can be taken
    apart further. -/
structure Keeps (demands kept : List Expr) : Prop where
  holds : ∀ a, AllTrue a kept ↔ AllTrue a demands
  elementary : ∀ c ∈ kept, c.Elementary

theorem Keeps.nil : Keeps [] [] := ⟨fun _ => Iff.rfl, List.forall_mem_nil _⟩

theorem Keeps.append {demands kept more others : List Expr} (first : Keeps demands kept)
    (second : Keeps more others) : Keeps (demands ++ more) (kept ++ others) where
  holds a := by rw [allTrue_append, allTrue_append, first.holds, second.holds]
  elementary := List.forall_mem_append.mpr ⟨first.elementary, second.elementary⟩

/-- A constant other than the set bit. -/
def Expr.Refused (e : Expr) : Prop := e.isConst = true ∧ e.isTrue = false

namespace Path

/-- A path has taken on constraints. -/
def Takes (p : Path) (demands : List Expr) (new : Path) : Prop :=
  ∃ kept, new.constraints = p.constraints ++ kept ∧ Keeps demands kept

theorem takes_of_constrain {p new : Path} {e : Expr} (splits : e.Splits)
    (added : p.constrain e = .ok new) : p.Takes [e] new := by
  cases e with
  | const tag w =>
      simp only [constrain] at added
      split at added
      · next truth =>
        cases added
        obtain rfl := Expr.eq_of_isTrue splits.constant truth
        refine ⟨[], (List.append_nil _).symm, fun a => ?_, List.forall_mem_nil _⟩
        simp [AllTrue, Expr.eval]
      · cases added
  | _ =>
      cases added
      refine ⟨_, rfl, fun a => ?_, splits.elementary rfl⟩
      rw [splits.holds, allTrue_singleton]

theorem refused_of_constrain {p : Path} {e : Expr} {fault : Fault}
    (failed : p.constrain e = .error fault) : e.Refused := by
  cases e with
  | const tag w =>
      simp only [constrain] at failed
      split at failed
      · cases failed
      · next holds => exact ⟨rfl, Bool.eq_false_iff.mpr holds⟩
  | _ => cases failed

theorem assume_takes (p : Path) {e : Expr} (splits : e.Splits) :
    On.Ensures (assume e) p (fun _ new => p.Takes [e] new) (fun new => new = p ∧ e.Refused) := by
  refine .look ?_
  cases result : p.constrain e with
  | ok new => exact fun _ => takes_of_constrain splits result
  | error fault => exact fun _ => ⟨rfl, refused_of_constrain result⟩

/-- The constraints that an access to a memory came to. -/
def produced {α : Type} (constraints : α → List Expr) :
    EStateM.Result Failure (Memory × Session) α → List Expr
  | .ok a _ => constraints a
  | .error _ _ => []

/-- An access to the memory that produces one constraint, which is then assumed. -/
theorem access_takes {α β : Type} {access : On Memory α} (constraints : α → List Expr) (finish : α → β)
    (one : Ensures access (fun a => ∃ c, constraints a = [c] ∧ c.Splits) (fun _ => True)) (p : Path)
    (session : Session) :
    Ends (do
        let a ← onMemory access
        (constraints a).forM assume
        return finish a) (p, session)
      (fun _ left => p.Takes (produced constraints (access (p.memory, session))) left.1)
      (fun _ left => left.1.constraints = p.constraints) := by
  have here := one (p.memory, session)
  unfold Ends
  simp only [onMemory, On.part, bind, EStateM.bind]
  cases result : access (p.memory, session) with
  | error e left => rfl
  | ok a left =>
      rw [result] at here
      obtain ⟨c, single, splits⟩ := here
      have assumed := (assumeAll_one (assume_takes { p with memory := left.1 } splits)).ends left.2
      simp only [produced, single]
      cases outcome : [c].forM assume ({ p with memory := left.1 }, left.2) with
      | ok _ after => exact assumed.of_ok outcome
      | error e after =>
          have kept := congrArg Path.constraints (assumed.of_error outcome).1
          exact kept

theorem store_takes {address : Expr} (proper : address.Proper) (value : Expr) (p : Path)
    (session : Session) :
    Ends (store address value) (p, session)
      (fun _ left => p.Takes (produced (fun constraints => constraints)
        (Memory.storeAt (p.value address) value (p.memory, session))) left.1)
      (fun _ left => left.1.constraints = p.constraints) := by
  have one := Memory.storeAt_splits (show (p.value address).expr.Proper from proper) value
  have takes := access_takes (fun constraints => constraints) (fun _ => ()) one p session
  simp only [bind_pure_unit] at takes
  exact takes

theorem load_takes {address : Expr} (proper : address.Proper) (width : UInt64) (p : Path)
    (session : Session) :
    Ends (load address width) (p, session)
      (fun _ left => p.Takes
        (produced Prod.snd (Memory.loadFrom (p.value address) width (p.memory, session))) left.1)
      (fun _ left => left.1.constraints = p.constraints) := by
  have one := Memory.loadFrom_splits (show (p.value address).expr.Proper from proper) width
  exact access_takes Prod.snd Prod.fst one p session

/-- A fork takes on its constraint besides those of the path that it comes from, which keeps its
    own. -/
theorem fork_takes (p : Path) {constraint : Option Expr} (splits : ∀ e ∈ constraint, e.Splits) :
    On.Ensures (fork constraint) p
      (fun child new => p.Takes constraint.toList child ∧ new.constraints = p.constraints)
      (fun new => new.constraints = p.constraints ∧ ∃ e ∈ constraint, e.Refused) := by
  have numbered : Ensures nextId (fun _ => True) (fun _ => False) := fun _ => True.intro
  refine .look (.first numbered fun id _ => ?_)
  refine (On.Ensures.part (Memory.branch_ensures p.memory)).andThen ?_ ?_
  · rintro _ ⟨_, no, _⟩
    exact no.elim
  rintro _ _ ⟨_, ⟨rfl, rfl⟩, rfl⟩
  cases constraint with
  | none => exact fun _ => ⟨⟨[], (List.append_nil _).symm, Keeps.nil⟩, rfl⟩
  | some e =>
      intro session
      simp only [bind, EStateM.bind, liftM, monadLift, MonadLift.monadLift, On.run]
      generalize start : Path.mk id (some p.id) [] p.solver p.memory p.constraints = child
      cases result : child.constrain e with
      | ok new =>
          have takes := takes_of_constrain (splits e rfl) result
          subst start
          exact ⟨takes, rfl⟩
      | error fault => exact ⟨rfl, e, rfl, refused_of_constrain result⟩

end Path

/-- Constraints and addresses are built by the building functions. -/
def Move.Built : Move → Prop
  | assume _ e => e.Built
  | store _ address _ => address.Built
  | load _ address _ => address.Built
  | fork _ constraint => ∀ e ∈ constraint, e.Built

/-- What is done to a tree of paths. -/
inductive Deed where
  /-- Begins a path over the memory at a place. -/
  | begin (solver : Option Solver) (place : Nat)
  | move (made : Move)

namespace Deed

def Built : Deed → Prop
  | begin .. => True
  | move made => made.Built

/-- The path that takes on constraints by a deed. A fork leaves them to the new path. -/
def subject : Deed → Option Nat
  | move (.assume number _) => some number
  | move (.store number _ _) => some number
  | move (.load number _ _) => some number
  | _ => none

end Deed

/-- A workbench, and what each of its paths took on from the root on. -/
structure Ledger where
  bench : Workbench
  taken : Array (List Expr)

namespace Ledger

/-- No paths over some memories. -/
def start (memories : Array Memory) (session : Session) : Ledger :=
  ⟨{ session := session, memories := memories }, #[]⟩

/-- The constraints of every path. -/
def lists (x : Ledger) : Array (List Expr) := x.bench.paths.map fun entry => entry.1.constraints

/-- Works on a path, which takes on what is demanded unless it fails. -/
def work {α : Type} (x : Ledger) (number : Nat) (operation : On Path α)
    (demands : Path → Session → List Expr) : Ledger :=
  match Workbench.path number x.bench, Workbench.onPath number operation x.bench with
  | .ok p _, .ok _ b => ⟨b, x.taken.modify number (· ++ demands p x.bench.session)⟩
  | .error _ _, .ok _ b => ⟨b, x.taken⟩
  | _, .error _ b => ⟨b, x.taken⟩

/-- Does a deed, which may fail. -/
def step (x : Ledger) : Deed → Ledger
  | .begin solver place =>
    match Workbench.newPath solver place x.bench with
    | .ok _ b => ⟨b, x.taken.push []⟩
    | .error _ b => ⟨b, x.taken⟩
  | .move (.assume number e) => x.work number (Path.assume e) fun _ _ => [e]
  | .move (.store number address value) =>
    x.work number (Path.store address value) fun p session =>
      Path.produced (fun constraints => constraints)
        (Memory.storeAt (p.value address) value (p.memory, session))
  | .move (.load number address width) =>
    x.work number (Path.load address width) fun p session =>
      Path.produced Prod.snd (Memory.loadFrom (p.value address) width (p.memory, session))
  | .move (.fork number constraint) =>
    match Workbench.fork number constraint x.bench with
    | .ok _ b => ⟨b, x.taken.push (x.taken.getD number [] ++ constraint.toList)⟩
    | .error _ b => ⟨b, x.taken⟩

def run (x : Ledger) (deeds : List Deed) : Ledger := deeds.foldl step x

/-- What one deed can come to. -/
inductive Turn (x x' : Ledger) : Deed → Prop where
  | failed {deed : Deed} (lists : x'.lists = x.lists) (taken : x'.taken = x.taken) : Turn x x' deed
  | begun {solver : Option Solver} {place : Nat} (lists : x'.lists = x.lists.push [])
      (taken : x'.taken = x.taken.push []) : Turn x x' (.begin solver place)
  | worked {deed : Deed} {number : Nat} {list demands kept : List Expr} (subject : deed.subject = some number)
      (there : x.lists[number]? = some list)
      (lists : x'.lists = x.lists.setIfInBounds number (list ++ kept))
      (taken : x'.taken = x.taken.modify number (· ++ demands)) (keeps : Keeps demands kept) : Turn x x' deed
  | forked {number : Nat} {constraint : Option Expr} {list kept : List Expr}
      (there : x.lists[number]? = some list) (lists : x'.lists = x.lists.push (list ++ kept))
      (taken : x'.taken = x.taken.push (x.taken.getD number [] ++ constraint.toList))
      (keeps : Keeps constraint.toList kept) : Turn x x' (.move (.fork number constraint))

end Ledger

namespace Workbench

theorem path_cases (b : Workbench) (number : Nat) :
    (∃ e, path number b = .error e b ∧
      ∀ {α : Type} (operation : On Path α), onPath number operation b = .error e b) ∨
    ∃ p place m, b.paths[number]? = some (p, place) ∧ b.memories[place]? = some m := by
  cases there : b.paths[number]? with
  | none => exact .inl ⟨_, path_absent there, onPath_absent there⟩
  | some entry =>
      obtain ⟨p, place⟩ := entry
      cases held : b.memories[place]? with
      | some m => exact .inr ⟨p, place, m, rfl, held⟩
      | none =>
          have lost : path number b = .error (.fault (.noSuchNumber place)) b :=
            (bind_ok_eq _ (lookup_some there)).trans (by
              simp only [lookup, bind, EStateM.bind, get, getThe, MonadStateOf.get, EStateM.get, held]
              rfl)
          refine .inl ⟨_, lost, fun operation => ?_⟩
          refine (bind_ok_eq _ (lookup_some there)).trans ?_
          simp only [bind, EStateM.bind, lost]

end Workbench

namespace Ledger

variable {x x' : Ledger} {deed : Deed}

theorem lists_of_path {number place : Nat} {p : Path} (there : x.bench.paths[number]? = some (p, place)) :
    x.lists[number]? = some p.constraints := by
  rw [lists, Array.getElem?_map, there]
  rfl

theorem lists_putPath (number place : Nat) (new : Path) (session : Session) (taken : Array (List Expr)) :
    lists ⟨x.bench.putPath number place new session, taken⟩ =
      x.lists.setIfInBounds number new.constraints := by
  simp [lists, Workbench.putPath, Array.map_setIfInBounds]

/-- Putting back a path whose constraints are as they were. -/
theorem lists_putPath_same {number place : Nat} {p new : Path}
    (there : x.bench.paths[number]? = some (p, place)) (same : new.constraints = p.constraints)
    (spot : Nat) (session : Session) (taken : Array (List Expr)) :
    lists ⟨x.bench.putPath number spot new session, taken⟩ = x.lists := by
  rw [lists_putPath, same]
  refine Array.ext_getElem? fun i => ?_
  have here := lists_of_path there
  obtain ⟨inside, _⟩ := Array.getElem?_eq_some_iff.mp here
  by_cases other : number = i
  · subst other
    rw [Array.getElem?_setIfInBounds_self_of_lt inside, here]
  · rw [Array.getElem?_setIfInBounds_ne other]

/-- Work on a path that takes on what is demanded if it succeeds. -/
theorem work_turn {α : Type} {number : Nat} (subject : deed.subject = some number) {operation : On Path α}
    {demands : Path → Session → List Expr}
    (takes : ∀ p session, Ends operation (p, session) (fun _ left => p.Takes (demands p session) left.1)
      (fun _ left => left.1.constraints = p.constraints)) :
    Turn x (x.work number operation demands) deed := by
  obtain ⟨e, absent, refused⟩ | ⟨p, place, m, there, held⟩ := Workbench.path_cases x.bench number
  · rw [work, absent, refused]
    exact .failed rfl rfl
  · have ends := takes { p with memory := m } x.bench.session
    rw [work, Workbench.path_eq there held, Workbench.onPath_eq there held]
    cases result : operation ({ p with memory := m }, x.bench.session) with
    | error e left => exact .failed (lists_putPath_same there (ends.of_error result) _ _ _) rfl
    | ok a left =>
        obtain ⟨kept, added, keeps⟩ := ends.of_ok result
        refine .worked subject (lists_of_path there) ?_ rfl keeps
        exact (lists_putPath number place left.1 left.2 _).trans (congrArg _ added)

theorem fork_turn (x : Ledger) (number : Nat) {constraint : Option Expr}
    (splits : ∀ e ∈ constraint, e.Splits) :
    Turn x (x.step (.move (.fork number constraint))) (.move (.fork number constraint)) := by
  obtain ⟨e, absent, refused⟩ | ⟨p, place, m, there, held⟩ := Workbench.path_cases x.bench number
  · have failed := refused (Path.fork constraint)
    simp only [step, Workbench.fork, bind, EStateM.bind, failed]
    exact .failed rfl rfl
  · have takes := Path.fork_takes { p with memory := m } splits x.bench.session
    have done := Workbench.onPath_eq there held (Path.fork constraint)
    cases result : Path.fork constraint ({ p with memory := m }, x.bench.session) with
    | error e left =>
        rw [result] at takes done
        simp only [step, Workbench.fork, bind, EStateM.bind, done]
        exact .failed (lists_putPath_same there takes.1 _ _ _) rfl
    | ok child left =>
        rw [result] at takes done
        obtain ⟨⟨kept, added, keeps⟩, same⟩ := takes
        have parent := lists_putPath_same there same place left.2 x.taken
        simp only [step, Workbench.fork, bind, EStateM.bind, done]
        refine .forked (lists_of_path there) ?_ rfl keeps
        rw [← parent, ← added]
        exact Array.map_push

theorem begin_turn (x : Ledger) (solver : Option Solver) (place : Nat) :
    Turn x (x.step (.begin solver place)) (.begin solver place) := by
  cases held : x.bench.memories[place]? with
  | none =>
      simp only [step, Workbench.newPath, Workbench.lookup, bind, EStateM.bind, get, getThe,
        MonadStateOf.get, EStateM.get, held]
      exact .failed rfl rfl
  | some m =>
      simp only [step, Workbench.newPath, Workbench.lookup, bind, EStateM.bind, get, getThe,
        MonadStateOf.get, EStateM.get, held]
      exact .begun Array.map_push rfl

theorem step_turn (x : Ledger) (built : deed.Built) : Turn x (x.step deed) deed := by
  cases deed with
  | begin solver place => exact x.begin_turn solver place
  | move made =>
      cases made with
      | assume number e =>
          have takes := fun p => (Path.assume_takes p (Expr.Built.proper built).splits).mono
            (fun _ _ taken => taken) fun _ same => congrArg Path.constraints same.1
          exact work_turn rfl fun p session => (takes p).ends session
      | store number address value => exact work_turn rfl (Path.store_takes (Expr.Built.proper built) value)
      | load number address width => exact work_turn rfl (Path.load_takes (Expr.Built.proper built) width)
      | fork number constraint =>
          exact x.fork_turn number fun e member => (built e member).proper.splits

namespace Turn

theorem other (turn : Turn x x' deed) {i : Nat} {list : List Expr} (there : x.lists[i]? = some list)
    (apart : deed.subject ≠ some i) : x'.lists[i]? = some list := by
  obtain ⟨inside, _⟩ := Array.getElem?_eq_some_iff.mp there
  cases turn with
  | failed lists => rwa [lists]
  | begun lists => rwa [lists, Array.getElem?_push_lt inside, ← Array.getElem?_eq_getElem inside]
  | forked _ lists => rwa [lists, Array.getElem?_push_lt inside, ← Array.getElem?_eq_getElem inside]
  | @worked _ number _ _ _ subject _ lists =>
      have distinct : number ≠ i := fun same => apart (same ▸ subject)
      rwa [lists, Array.getElem?_setIfInBounds_ne distinct]

theorem grows (turn : Turn x x' deed) {i : Nat} {list : List Expr} (there : x.lists[i]? = some list) :
    ∃ longer, x'.lists[i]? = some longer ∧ list <+: longer := by
  by_cases subject : deed.subject = some i
  · cases turn with
    | failed lists => exact ⟨list, lists ▸ there, List.prefix_rfl⟩
    | begun => cases subject
    | forked => cases subject
    | @worked _ number before _ kept self found lists =>
        obtain rfl : number = i := Option.some.inj (self.symm.trans subject)
        obtain rfl : before = list := Option.some.inj (found.symm.trans there)
        obtain ⟨inside, _⟩ := Array.getElem?_eq_some_iff.mp there
        refine ⟨before ++ kept, ?_, List.prefix_append _ _⟩
        rw [lists, Array.getElem?_setIfInBounds_self_of_lt inside]
  · exact ⟨list, turn.other there subject, List.prefix_rfl⟩

theorem child {number i : Nat} {constraint : Option Expr}
    (turn : Turn x x' (.move (.fork number constraint))) (new : x.lists.size ≤ i) {list : List Expr}
    (there : x'.lists[i]? = some list) :
    ∃ parent, x.lists[number]? = some parent ∧ parent <+: list := by
  cases turn with
  | failed lists =>
      rw [lists, Array.getElem?_eq_none new] at there
      cases there
  | worked subject => cases subject
  | @forked _ _ before kept found lists =>
      rw [lists, Array.getElem?_push] at there
      split at there
      · cases there
        exact ⟨before, found, List.prefix_append _ _⟩
      · rw [Array.getElem?_eq_none new] at there
        cases there

end Turn

/-- Every list says what its path took on. -/
structure Faithful (x : Ledger) : Prop where
  recorded : x.taken.size = x.lists.size
  keeps : ∀ (i : Nat) list taken, x.lists[i]? = some list → x.taken[i]? = some taken → Keeps taken list

namespace Faithful

theorem push (faithful : x.Faithful) {list taken : List Expr} (keeps : Keeps taken list)
    (lists : x'.lists = x.lists.push list) (pushed : x'.taken = x.taken.push taken) : x'.Faithful := by
  refine ⟨?_, fun i list' taken' there demanded => ?_⟩
  · rw [lists, pushed, Array.size_push, Array.size_push, faithful.recorded]
  · rw [lists, Array.getElem?_push] at there
    rw [pushed, Array.getElem?_push, faithful.recorded] at demanded
    split at there
    · next last =>
      rw [if_pos last] at demanded
      cases there
      cases demanded
      exact keeps
    · next before =>
      rw [if_neg before] at demanded
      exact faithful.keeps i list' taken' there demanded

theorem turn (faithful : x.Faithful) (turn : Turn x x' deed) : x'.Faithful := by
  cases turn with
  | failed lists taken =>
      refine ⟨?_, fun i list demands there demanded => ?_⟩
      · rw [lists, taken, faithful.recorded]
      · rw [lists] at there
        rw [taken] at demanded
        exact faithful.keeps i list demands there demanded
  | begun lists taken => exact faithful.push Keeps.nil lists taken
  | @forked number constraint list kept there lists taken keeps =>
      obtain ⟨inside, _⟩ := Array.getElem?_eq_some_iff.mp there
      have known : number < x.taken.size := faithful.recorded ▸ inside
      have parent := faithful.keeps number list _ there (Array.getElem?_eq_getElem known)
      refine faithful.push (parent.append keeps) lists ?_
      rw [taken, Array.getD_eq_getD_getElem?, Array.getElem?_eq_getElem known, Option.getD_some]
  | @worked _ number list demands kept _ there lists taken keeps =>
      obtain ⟨inside, _⟩ := Array.getElem?_eq_some_iff.mp there
      refine ⟨?_, fun i list' taken' there' demanded => ?_⟩
      · rw [lists, taken, Array.size_modify, Array.size_setIfInBounds, faithful.recorded]
      · rw [taken, Array.getElem?_modify] at demanded
        by_cases same : number = i
        · subst same
          rw [lists, Array.getElem?_setIfInBounds_self_of_lt inside] at there'
          cases there'
          rw [if_pos rfl] at demanded
          obtain ⟨before, found, rfl⟩ := Option.map_eq_some_iff.mp demanded
          exact (faithful.keeps number list before there found).append keeps
        · rw [lists, Array.getElem?_setIfInBounds_ne same] at there'
          rw [if_neg same] at demanded
          exact faithful.keeps i list' taken' there' demanded

theorem run (faithful : x.Faithful) {deeds : List Deed} (built : ∀ deed ∈ deeds, deed.Built) :
    (x.run deeds).Faithful := by
  induction deeds generalizing x with
  | nil => exact faithful
  | cons deed rest ih =>
      obtain ⟨here, later⟩ := List.forall_mem_cons.mp built
      exact ih (faithful.turn (x.step_turn here)) later

end Faithful

theorem start_faithful (memories : Array Memory) (session : Session) :
    (start memories session).Faithful :=
  ⟨by simp [start, lists], fun _ _ _ there => by simp [start, lists] at there⟩

theorem run_grows {deeds : List Deed} (built : ∀ deed ∈ deeds, deed.Built) {i : Nat} {list : List Expr}
    (there : x.lists[i]? = some list) :
    ∃ longer, (x.run deeds).lists[i]? = some longer ∧ list <+: longer := by
  induction deeds generalizing x list with
  | nil => exact ⟨list, there, List.prefix_rfl⟩
  | cons deed rest ih =>
      obtain ⟨here, later⟩ := List.forall_mem_cons.mp built
      obtain ⟨next, found, first⟩ := (x.step_turn here).grows there
      obtain ⟨final, last, second⟩ := ih later found
      exact ⟨final, last, first.trans second⟩

section Accepted

variable {number : Nat} {p : Path} {left : Workbench} (there : Workbench.path number x.bench = .ok p left)

include there

theorem path_held : ∃ p place m,
    x.bench.paths[number]? = some (p, place) ∧ x.bench.memories[place]? = some m := by
  refine (Workbench.path_cases x.bench number).resolve_left ?_
  rintro ⟨e, absent, _⟩
  rw [absent] at there
  cases there

/-- A constraint is only refused if it is a constant other than the set bit. -/
theorem assume_taken {e : Expr} (built : e.Built) (accepted : ¬ e.Refused) :
    (x.step (.move (.assume number e))).taken = x.taken.modify number (· ++ [e]) := by
  obtain ⟨p, place, m, found, held⟩ := path_held there
  have takes := Path.assume_takes { p with memory := m } built.proper.splits x.bench.session
  rw [step, work, Workbench.path_eq found held, Workbench.onPath_eq found held]
  cases result : Path.assume e ({ p with memory := m }, x.bench.session) with
  | ok _ after => rfl
  | error _ after =>
      rw [result] at takes
      exact absurd takes.2 accepted

theorem fork_taken {constraint : Option Expr} (built : ∀ e ∈ constraint, e.Built)
    (accepted : ∀ e ∈ constraint, ¬ e.Refused) :
    (x.step (.move (.fork number constraint))).taken =
      x.taken.push (x.taken.getD number [] ++ constraint.toList) := by
  obtain ⟨p, place, m, found, held⟩ := path_held there
  have splits : ∀ e ∈ constraint, e.Splits := fun e member => (built e member).proper.splits
  have takes := Path.fork_takes { p with memory := m } splits x.bench.session
  have done := Workbench.onPath_eq found held (Path.fork constraint)
  cases result : Path.fork constraint ({ p with memory := m }, x.bench.session) with
  | ok child after =>
      rw [result] at done
      simp only [step, Workbench.fork, bind, EStateM.bind, done]
      rfl
  | error _ after =>
      rw [result] at takes
      obtain ⟨_, e, member, refused⟩ := takes
      exact absurd refused (accepted e member)

end Accepted

/-- The constraints of a path are what was taken on along its way, under every assignment. Take any
    run over any memories, with constraints and addresses that were built. Each list holds exactly
    where everything holds that the path took on since its root, and consists of expressions that are
    neither constants nor conjunctions of one bit. In between, a deed changes no list but that of the
    path it works on. A fork changes none; its own list starts with the one of the path it comes from,
    and is still there at the end of the run with what came after. A constraint on a path that
    exists is taken on, unless it is a constant other than the set bit. -/
theorem run_lists_what_was_taken (memories : Array Memory) (session : Session) {deeds : List Deed}
    (built : ∀ deed ∈ deeds, deed.Built) :
    (((start memories session).run deeds).taken.size = ((start memories session).run deeds).lists.size ∧
      ∀ (i : Nat) list taken, ((start memories session).run deeds).lists[i]? = some list →
        ((start memories session).run deeds).taken[i]? = some taken →
        (∀ a, AllTrue a list ↔ AllTrue a taken) ∧ ∀ c ∈ list, c.Elementary) ∧
    ∀ before deed after, deeds = before ++ deed :: after →
      ∀ now next, now = (start memories session).run before → next = now.step deed →
        (∀ (i : Nat) list, now.lists[i]? = some list → deed.subject ≠ some i →
          next.lists[i]? = some list) ∧
        (∀ number constraint, deed = .move (.fork number constraint) →
          ∀ (i : Nat) list, now.lists.size ≤ i → next.lists[i]? = some list →
            ∃ parent final, now.lists[number]? = some parent ∧ parent <+: list ∧
              ((start memories session).run deeds).lists[i]? = some final ∧ list <+: final) ∧
        ∀ number p left, Workbench.path number now.bench = .ok p left →
          (∀ e, deed = .move (.assume number e) → ¬ e.Refused →
            next.taken = now.taken.modify number (· ++ [e])) ∧
          ∀ constraint, deed = .move (.fork number constraint) → (∀ e ∈ constraint, ¬ e.Refused) →
            next.taken = now.taken.push (now.taken.getD number [] ++ constraint.toList) := by
  have faithful := (start_faithful memories session).run built
  refine ⟨⟨faithful.recorded, fun i list taken there demanded => ?_⟩, ?_⟩
  · have keeps := faithful.keeps i list taken there demanded
    exact ⟨keeps.holds, keeps.elementary⟩
  rintro before deed after rfl now next rfl rfl
  obtain ⟨_, here, later⟩ := List.forall_mem_append.mp built |>.imp_right List.forall_mem_cons.mp
  have turn := step_turn ((start memories session).run before) here
  refine ⟨fun i list there apart => turn.other there apart, ?_, fun number p left there => ⟨?_, ?_⟩⟩
  · rintro number constraint rfl i list new there
    obtain ⟨parent, found, starts⟩ := turn.child new there
    obtain ⟨final, last, grown⟩ := run_grows later there
    refine ⟨parent, final, found, starts, ?_, grown⟩
    rw [run, List.foldl_append]
    exact last
  · rintro e rfl accepted
    exact assume_taken there here accepted
  · rintro constraint rfl accepted
    exact fork_taken there here accepted

/-- A conjunction on the root, a fork with a constraint, a store through a symbolic address on the
    root, and a constraint on the fork that is refused. -/
theorem run_lists_what_was_taken_forked :
    let p : Expr := .var none ⟨"p", 1⟩
    let q : Expr := .var none ⟨"q", 1⟩
    let both : Expr := .binary none .and p q
    let address : Expr := .var none ⟨"address", 4⟩
    let placed : Expr := .binary (some 3) .eq (.const (some 1) ⟨1, 4⟩) (.var (some 2) ⟨"address", 4⟩)
    let solver : Solver := { solve := fun _ _ vars => .ok (some (vars.map fun _ => 1)) }
    let before : List Deed := [.begin (some solver) 0, .move (.assume 0 both)]
    let after : List Deed :=
      [.move (.store 0 address (.const none ⟨7, 8⟩)), .move (.assume 1 (.ofBool false))]
    let deeds := before ++ .move (.fork 0 (some p)) :: after
    ∃ m x, Memory.new { bits := 4 } = .ok m ∧ x = (start #[m] {}).run deeds ∧
      (∀ deed ∈ deeds, deed.Built) ∧
      x.lists = #[[p, q, placed], [p, q, p]] ∧ x.taken = #[[both, placed], [both, p]] ∧
      (∀ a, AllTrue a [p, q, placed] ↔ AllTrue a [both, placed]) ∧ (∀ c ∈ [p, q, placed], c.Elementary) ∧
      (∀ a, AllTrue a [p, q, p] ↔ AllTrue a [both, p]) ∧
      ∃ parent final, ((start #[m] {}).run before).lists[0]? = some parent ∧ x.lists[1]? = some final ∧
        parent <+: final := by
  intro p q both address placed solver before after deeds
  have pBuilt : p.Built := .named (show Expr.named "p" 1 = .ok p from rfl)
  have qBuilt : q.Built := .named (show Expr.named "q" 1 = .ok q from rfl)
  have bothBuilt : both.Built := .apply pBuilt qBuilt (show Expr.apply .and p q = .ok both from rfl)
  have addressBuilt : address.Built := .named (show Expr.named "address" 4 = .ok address from rfl)
  have built : ∀ deed ∈ deeds, deed.Built := by
    simp only [deeds, before, after, List.cons_append, List.nil_append, List.forall_mem_cons,
      List.not_mem_nil, false_implies, implies_true, and_true, Deed.Built, Move.Built, Option.mem_def,
      Option.some.injEq, forall_eq', true_and]
    exact ⟨bothBuilt, pBuilt, addressBuilt, .ofBool false⟩
  obtain ⟨m, made, _⟩ := Memory.new_fits (show MemoryOptions.bits { bits := 4 } ≤ 64 by decide)
  obtain ⟨⟨_, equal⟩, between⟩ := run_lists_what_was_taken #[m] {} built
  have forked := (between before _ after rfl _ _ rfl rfl).2.1 0 (some p) rfl 1
  have root : ((start #[m] {}).run before).lists = #[[p, q]] := by
    cases made
    cbv
  have fork : (((start #[m] {}).run before).step (.move (.fork 0 (some p)))).lists = #[[p, q], [p, q, p]] := by
    cases made
    cbv
  have lists : ((start #[m] {}).run deeds).lists = #[[p, q, placed], [p, q, p]] := by
    cases made
    cbv
  have taken : ((start #[m] {}).run deeds).taken = #[[both, placed], [both, p]] := by
    cases made
    cbv
  rw [root, fork, lists] at forked
  rw [lists, taken] at equal
  obtain ⟨rootEqual, elementary⟩ := equal 0 _ _ rfl rfl
  obtain ⟨parent, final, isParent, isStart, isFinal, grown⟩ := forked _ (by decide) rfl
  obtain ⟨forkEqual, _⟩ := equal 1 _ _ rfl rfl
  refine ⟨m, _, made, rfl, built, lists, taken, rootEqual, elementary, forkEqual, parent, final, ?_, ?_, ?_⟩
  · rw [root, isParent]
  · rw [lists, isFinal]
  · exact isStart.trans grown

end Ledger

end SymbolicMemory
