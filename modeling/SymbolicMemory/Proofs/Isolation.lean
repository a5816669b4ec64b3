import SymbolicMemory.Proofs.Abreast
import SymbolicMemory.Workbench

/-! # Branches of a memory

A memory and what branches off from it form a tree, whose members draw their names from one
supply. Whatever is done to any of them in any order, no name is drawn twice, and each member is as
if only it had been worked on, and before it those it branched off from, up to the names of its
fresh bytes.
-/

namespace SymbolicMemory

open Names Session

/-- What is done to a memory. -/
inductive Act where
  | readBytes (address : UInt64) (count : Int)
  | writeBytes (address : UInt64) (bytes : List UInt8)
  | store (address : Value) (value : Expr)
  | load (address : Value) (width : UInt64)
  | branch

/-- The expressions that an act returns, or how it fails. -/
abbrev Answer := Except Failure (List Expr)

namespace Act

/-- Returns expressions, and a memory if one branches off. -/
def perform : Act → On Memory (List Expr × Option Memory)
  | readBytes address count => do return (← Memory.readBytes address count, none)
  | writeBytes address bytes => do
    Memory.writeBytes address bytes
    return ([], none)
  | store address value => do return (← Memory.storeAt address value, none)
  | load address width => do
    let (value, constraints) ← Memory.loadFrom address width
    return (value :: constraints, none)
  | branch => do return ([], some (← Memory.branch))

/-- On a workbench, what branches off gets a place of its own. -/
def onBench (place : Nat) (act : Act) : Bench (List Expr) := do
  let (answer, child) ← Workbench.onMemory place act.perform
  if let some m := child then discard (Workbench.placeMemory m)
  return answer

def reads : Act → Bool
  | readBytes .. => true
  | load .. => true
  | _ => false

/-- Addresses are constants, and stored values mention no name of some. -/
def Allowed (fresh : String → Prop) : Act → Prop
  | store address value => (∃ tag w, address.expr = .const tag w) ∧ value.Settled fresh
  | load address _ => ∃ tag w, address.expr = .const tag w
  | _ => True

end Act

/-- The name of a byte that has come into being as a variable. -/
def Memory.nameSince (before after : Memory) (address : UInt64) : Option String :=
  match before.cell? address, after.cell? address with
  | none, some (.var _ v) => some v.name
  | _, _ => none

def Memory.namesSince (before after : Memory) : List String :=
  after.store.cells.keys.filterMap (before.nameSince after)

/-- An act, and whether one goes on with the memory that branches off. -/
structure Stage where
  act : Act
  descends : Bool

/-- A tree of memories, with what was done to each member, and before that to those it branched off
    from, and with all names that were handed out. -/
structure Branches where
  bench : Workbench
  lineages : Array (List (Stage × Answer))
  handed : List String

namespace Branches

def begin (root : Memory) (session : Session) : Branches :=
  ⟨{ session := session, memories := #[root] }, #[[]], []⟩

/-- Something is done to the member at a place. -/
def step (x : Branches) (order : Nat × Act) : Branches :=
  let (place, act) := order
  let (answer, b) : Answer × Workbench := match act.onBench place x.bench with
    | .ok answer b => (.ok answer, b)
    | .error e b => (.error e, b)
  let lineages := x.lineages.modify place (· ++ [(⟨act, false⟩, answer)])
  { bench := b
    lineages :=
      if x.bench.memories.size < b.memories.size then
        lineages.push (x.lineages.getD place [] ++ [(⟨act, true⟩, answer)])
      else lineages
    handed := x.handed ++ match x.bench.memories[place]?, b.memories[place]? with
      | some m, some m' => if act.reads then m.namesSince m' else []
      | _, _ => [] }

def run (x : Branches) (orders : List (Nat × Act)) : Branches := orders.foldl step x

end Branches

/-- A memory on its own, stage by stage: what was returned, and what is left. -/
def Stage.alone (x : List Answer × Memory × Session) (stage : Stage) : List Answer × Memory × Session :=
  match stage.act.perform x.2 with
  | .ok (answer, child) (m, session) =>
    (x.1 ++ [.ok answer], if stage.descends then child.getD m else m, session)
  | .error e left => (x.1 ++ [.error e], left)

def Memory.alone (m : Memory) (session : Session) (stages : List Stage) : List Answer × Memory × Session :=
  stages.foldl Stage.alone ([], m, session)

namespace Memory

theorem nameSince_eq_some {m m' : Memory} {address : UInt64} {name : String} :
    m.nameSince m' address = some name ↔
      m.cell? address = none ∧ ∃ tag v, m'.cell? address = some (.var tag v) ∧ v.name = name := by
  unfold nameSince
  constructor
  · intro found
    split at found
    · next tag v absent present =>
      cases found
      exact ⟨absent, tag, v, present, rfl⟩
    · cases found
  · rintro ⟨absent, tag, v, present, rfl⟩
    rw [absent, present]

theorem filterMap_perm {α β : Type} {l l' : List α} (nodup : l.Nodup) (nodup' : l'.Nodup) (f : α → Option β)
    (same : ∀ a, (f a).isSome → (a ∈ l ↔ a ∈ l')) : (l.filterMap f).Perm (l'.filterMap f) := by
  have only : ∀ l : List α, l.filterMap f = (l.filter fun a => (f a).isSome).filterMap f := by
    intro l
    rw [List.filterMap_filter]
    congr 1
    funext a
    cases f a <;> rfl
  rw [only l, only l']
  refine List.Perm.filterMap f ((List.perm_ext_iff_of_nodup (nodup.filter _) (nodup'.filter _)).mpr fun a => ?_)
  rw [List.mem_filter, List.mem_filter]
  exact and_congr_left (same a)

/-- The names of the bytes that came into being are those that were drawn. -/
theorem Draws.namesSince_perm {m m' : Memory} {s s' : Session} {listed : List UInt64}
    (draws : m.Draws s listed m' s') :
    (m.namesSince m').Perm ((List.range listed.length).map (m.drawnName s)) := by
  have named : ∀ (i : Nat) address, listed[i]? = some address →
      m.nameSince m' address = some (m.drawnName s i) := by
    intro i address place
    obtain ⟨absent, tag, present⟩ := draws.drawn i address place
    exact nameSince_eq_some.mpr ⟨absent, tag, _, present, rfl⟩
  have inOrder : listed.filterMap (m.nameSince m') = (List.range listed.length).map (m.drawnName s) := by
    have all : listed.map (m.nameSince m') = (List.range listed.length).map (some ∘ m.drawnName s) := by
      refine List.ext_getElem (by simp) fun i inside _ => ?_
      have inListed : i < listed.length := by simpa using inside
      simp only [List.getElem_map, List.getElem_range, Function.comp_apply]
      exact named i _ (List.getElem?_eq_getElem inListed)
    calc listed.filterMap (m.nameSince m')
      _ = (listed.map (m.nameSince m')).filterMap fun name => name := by
          rw [List.filterMap_map]
          rfl
      _ = (List.range listed.length).map (m.drawnName s) := by
          rw [all, List.filterMap_map, ← List.filterMap_eq_map]
          rfl
  rw [← inOrder, namesSince]
  refine filterMap_perm Std.TreeMap.nodup_keys draws.nodup _ fun address some_ => ?_
  obtain ⟨name, found⟩ := Option.isSome_iff_exists.mp some_
  obtain ⟨absent, tag, v, present, _⟩ := nameSince_eq_some.mp found
  have held : address ∈ m'.store.cells.keys := by
    rw [Std.TreeMap.mem_keys, ← Std.TreeMap.isSome_getElem?_iff_mem]
    exact Option.isSome_iff_exists.mpr ⟨_, present⟩
  refine ⟨fun _ => ?_, fun _ => held⟩
  rcases draws.added address _ absent present with ⟨b, tag', _, other⟩ | ⟨i, tag', place, _⟩
  · cases other
  · exact List.mem_of_getElem? place

theorem concretize_silent (access : Access) (v : Value) (strategies : List Strategy) :
    Leads Silent (concretize access v strategies) := by
  intro (m, s)
  have ends := concretize_ends m access v strategies s
  cases result : concretize access v strategies (m, s) with
  | ok found after => exact (Concretizer.concretize_quiet v m.concretizer strategies).of_ok (ends.of_ok result).2
  | error e after => exact (ends.of_error result).2

theorem writeBytes_silent (bytes : List UInt8) (address : UInt64) : Leads Silent (writeBytes address bytes) := by
  induction bytes generalizing address with
  | nil => exact .pure _
  | cons b rest ih =>
      exact (lift_silent (make_quiet _)).bind fun cell => (writeCell_silent _ _).bind fun _ => ih _

theorem storeAt_silent (address : Value) (value : Expr) : Leads Silent (storeAt address value) := by
  refine (lift_silent (count_quiet (by simp))).bind fun _ => ?_
  split
  · exact .stop _ _
  refine thing_silent.bind fun m => (lift_silent (sized_quiet m address)).bind fun v => ?_
  refine (concretize_silent _ v _).bind fun found => (writeMore_silent _ _ _ _).bind fun _ => ?_
  exact (lift_silent (make_quiet _)).bind fun _ => .pure _

theorem readEach_reading (count : Nat) (address : UInt64) (soFar : List Expr) :
    Leads Reading (readEach address count soFar) := by
  induction count generalizing address soFar with
  | zero => exact .pure _
  | succ count ih => exact (readCell_reading address).bind fun _ => ih _ _

theorem readBytes_reading (address : UInt64) (count : Int) : Leads Reading (readBytes address count) := by
  unfold readBytes
  split
  · exact .stop _ _
  · exact readEach_reading _ _ _

theorem loadFrom_reading {address : Value} {tag : Tag} {w : Word} (constant : address.expr = .const tag w)
    (width : UInt64) : Leads Reading (loadFrom address width) := by
  refine (lift_reading (count_quiet (by simp))).bind fun _ => ?_
  split
  · exact .stop _ _
  refine thing_reading.bind fun m => ?_
  have sizing : Ensures (m.sized address) (fun v => ∃ tag w, v.expr = .const tag w) (fun _ => True) := by
    intro s
    rcases sized_const constant m.bits with ⟨w', sized⟩ | ⟨fault, sized⟩
    · obtain ⟨v, tag', left, done, isConst⟩ := sized m s rfl
      rw [done]
      exact ⟨tag', w', isConst⟩
    · obtain ⟨left, failed⟩ := sized m s rfl
      rw [failed]
      exact trivial
  refine (lift_reading (sized_quiet m address)).bindThat (On.ensures_lift sizing) ?_
  rintro v ⟨tag', w', isConst⟩
  rw [concretize_eq_observe isConst]
  have observing : Ensures (Concretizer.observe .unique ⟨w'.value, []⟩) (fun found => found = ⟨w'.value, []⟩)
      (fun _ => False) := fun _ => rfl
  refine (lift_reading (Concretizer.observe_quiet _ _)).bindThat (On.ensures_lift observing) ?_
  rintro _ rfl
  refine (readValue_reading _ _).bind fun value => (lift_reading (make_quiet _)).bind fun place => ?_
  exact .pure _

theorem branch_eq (m : Memory) (s : Session) : ∃ s', branch (m, s) = .ok m (m, s') ∧ Quiet s s' := by
  have quiet : Leads Quiet (do
      record (.branching m.id m.store.size)
      count .branch) := (record_quiet _).bind fun _ => count_quiet (by simp)
  exact ⟨_, rfl, quiet.of_ok rfl⟩

end Memory

namespace Act

open Memory

/-- What an act does to the names: it draws some for bytes that it reads, or none. -/
theorem perform_advances {fresh : String → Prop} {act : Act} (allowed : act.Allowed fresh) :
    Leads (if act.reads then Reading else Silent) act.perform := by
  cases act with
  | readBytes address count => exact (readBytes_reading address count).bind fun _ => .pure _
  | writeBytes address bytes => exact (writeBytes_silent bytes address).bind fun _ => .pure _
  | store address value => exact (storeAt_silent address value).bind fun _ => .pure _
  | load address width =>
      obtain ⟨tag, w, constant⟩ := allowed
      exact (loadFrom_reading constant width).bind fun _ => .pure _
  | branch =>
      intro (m, s)
      obtain ⟨s', branched, quiet⟩ := branch_eq m s
      simp only [perform, bind, EStateM.bind, branched]
      exact quiet

variable {root : Memory} {start : Session} {draws : List Nat}

/-- What an act does in two runs that are abreast. -/
inductive Outcomes (root : Memory) (start : Session) (act : Act) (draws : List Nat) (full solo : Memory × Session) :
    Prop
  | returned {answer answer' : List Expr} {full' solo' : Memory × Session} {last : List Nat} :
      act.perform full = .ok (answer, none) full' → act.perform solo = .ok (answer', none) solo' →
      draws <+: last → Abreast root start last full' solo' →
      List.Forall₂ (TwinAt root start last) answer answer' → Outcomes root start act draws full solo
  | branched {full' solo' : Memory × Session} :
      act.perform full = .ok ([], some full'.1) full' → act.perform solo = .ok ([], some solo'.1) solo' →
      Abreast root start draws full' solo' → Outcomes root start act draws full solo
  | failed {e : Failure} {full' solo' : Memory × Session} {last : List Nat} :
      act.perform full = .error e full' → act.perform solo = .error e solo' →
      draws <+: last → Abreast root start last full' solo' → Outcomes root start act draws full solo

theorem Outcomes.of_alike {act : Act} {full solo : Memory × Session} {α α' : Type} {x : On Memory α}
    {x' : On Memory α'} {related : List Nat → α → α' → Prop} (alike : Alike root start draws related x x')
    (abreast : Abreast root start draws full solo) {answer : α → List Expr} {answer' : α' → List Expr}
    (full_eq : act.perform = x >>= fun a => pure (answer a, none))
    (solo_eq : act.perform = x' >>= fun a => pure (answer' a, none))
    (twins : ∀ later a a', related later a a' → List.Forall₂ (TwinAt root start later) (answer a) (answer' a')) :
    Outcomes root start act draws full solo := by
  rcases alike draws full solo (List.prefix_refl _) abreast with
    ⟨a, full', a', solo', last, done, done', longer, abreast', rel⟩ |
    ⟨e, full', solo', last, failed, failed', longer, abreast'⟩
  · refine .returned ?_ ?_ longer abreast' (twins last a a' rel)
    · rw [full_eq]
      simp only [bind, EStateM.bind, done]
      rfl
    · rw [solo_eq]
      simp only [bind, EStateM.bind, done']
      rfl
  · refine .failed (e := e) ?_ ?_ longer abreast'
    · rw [full_eq]
      simp only [bind, EStateM.bind, failed]
    · rw [solo_eq]
      simp only [bind, EStateM.bind, failed']

theorem perform_alike {act : Act} (allowed : act.Allowed (root.Pending start)) {full solo : Memory × Session}
    (abreast : Abreast root start draws full solo) : Outcomes root start act draws full solo := by
  cases act with
  | readBytes address count =>
      exact .of_alike (readBytes_alike address count) abreast rfl rfl fun _ _ _ twins => twins
  | writeBytes address bytes =>
      exact .of_alike (writeBytes_alike bytes address) abreast rfl rfl fun _ _ _ _ => .nil
  | store address value =>
      obtain ⟨⟨tag, w, constant⟩, settled⟩ := allowed
      exact .of_alike (storeAt_alike constant settled) abreast rfl rfl fun _ _ _ twins => twins
  | load address width =>
      obtain ⟨tag, w, constant⟩ := allowed
      exact .of_alike (loadFrom_alike constant width) abreast rfl rfl fun _ _ _ twins => twins
  | branch =>
      obtain ⟨m, s⟩ := full
      obtain ⟨μ, ς⟩ := solo
      obtain ⟨s', branched, quiet⟩ := branch_eq m s
      obtain ⟨ς', branched', quiet'⟩ := branch_eq μ ς
      have done : branch.perform (m, s) = .ok ([], some m) (m, s') := by
        simp only [perform, bind, EStateM.bind, branched]
        rfl
      have done' : branch.perform (μ, ς) = .ok ([], some μ) (μ, ς') := by
        simp only [perform, bind, EStateM.bind, branched']
        rfl
      exact .branched done done' (abreast.quiet quiet quiet')

variable {b : Workbench} {place : Nat} {m : Memory} (there : b.memories[place]? = some m)

include there

theorem onMemory_eq {α : Type} (x : On Memory α) :
    Workbench.onMemory place x b = match x (m, b.session) with
      | .ok a (m, session) =>
        .ok a { b with session := session, memories := b.memories.setIfInBounds place m }
      | .error e (m, session) =>
        .error e { b with session := session, memories := b.memories.setIfInBounds place m } := by
  simp only [Workbench.onMemory, Workbench.lookup, bind, EStateM.bind, get, getThe, MonadStateOf.get,
    EStateM.get, there]
  rfl

theorem onBench_returned {act : Act} {answer : List Expr} {after : Memory × Session}
    (done : act.perform (m, b.session) = .ok (answer, none) after) :
    act.onBench place b =
      .ok answer { b with session := after.2, memories := b.memories.setIfInBounds place after.1 } := by
  simp only [onBench, bind, EStateM.bind, onMemory_eq there, done]
  rfl

theorem onBench_branched {act : Act} {answer : List Expr} {child : Memory} {after : Memory × Session}
    (done : act.perform (m, b.session) = .ok (answer, some child) after) :
    act.onBench place b = .ok answer { b with
      session := after.2
      memories := (b.memories.setIfInBounds place after.1).push child } := by
  simp only [onBench, bind, EStateM.bind, onMemory_eq there, done]
  rfl

theorem onBench_failed {act : Act} {e : Failure} {after : Memory × Session}
    (failed : act.perform (m, b.session) = .error e after) :
    act.onBench place b =
      .error e { b with session := after.2, memories := b.memories.setIfInBounds place after.1 } := by
  simp only [onBench, bind, EStateM.bind, onMemory_eq there, failed]

omit there in
theorem onBench_absent (absent : b.memories[place]? = none) (act : Act) :
    act.onBench place b = .error (.fault (.noSuchNumber place)) b := by
  simp only [onBench, Workbench.onMemory, Workbench.lookup, bind, EStateM.bind, get, getThe, MonadStateOf.get,
    EStateM.get, absent]
  rfl

end Act

section Isolation

open Memory

variable (root : Memory) (start : Session)

/-- Answers of two runs that correspond. -/
inductive Answers (draws : List Nat) : Answer → Answer → Prop
  | ok {answer answer' : List Expr} : List.Forall₂ (TwinAt root start draws) answer answer' →
      Answers draws (.ok answer) (.ok answer')
  | error {e : Failure} : Answers draws (.error e) (.error e)

/-- A member is as if only those of its lineage had been worked on. -/
def Follows (member : Memory × Session) (lineage : List (Stage × Answer)) : Prop :=
  ∃ draws, Abreast root start draws member (root.alone start (lineage.map Prod.fst)).2 ∧
    List.Forall₂ (Answers root start draws) (lineage.map Prod.snd) (root.alone start (lineage.map Prod.fst)).1

namespace Branches

structure Isolated (x : Branches) : Prop where
  recorded : x.lineages.size = x.bench.memories.size
  handed : x.handed.Perm
    ((List.range (x.bench.session.freshBytes - start.freshBytes)).map (root.drawnName start))
  members : ∀ (place : Nat) m, x.bench.memories[place]? = some m → ∃ lineage, x.lineages[place]? = some lineage ∧
    Follows root start (m, x.bench.session) lineage

end Branches

variable {root start} {draws last : List Nat}

theorem Answers.mono {answer answer' : Answer} (longer : draws <+: last)
    (answers : Answers root start draws answer answer') : Answers root start last answer answer' := by
  cases answers with
  | ok twins => exact .ok (twins.imp fun _ _ => TwinAt.mono longer)
  | error => exact .error

/-- What happens elsewhere makes no difference. -/
theorem Memory.Abreast.elsewhere {m m' : Memory} {s s' : Session} {solo solo' : Memory × Session}
    (abreast : Abreast root start draws (m, s) solo) (later : Abreast root start last (m', s') solo')
    (more : s.freshBytes ≤ s'.freshBytes) : Abreast root start draws (m, s') solo where
  full_settings := abreast.full_settings
  solo_settings := abreast.solo_settings
  begun := later.begun
  full_vars := later.full_vars
  solo_vars := abreast.solo_vars
  increasing := abreast.increasing
  below d drawn := Nat.lt_of_lt_of_le (abreast.below d drawn) (Nat.sub_le_sub_right more _)
  cells := abreast.cells

theorem alone_append (stages : List Stage) (stage : Stage) :
    root.alone start (stages ++ [stage]) = stage.alone (root.alone start stages) := by
  simp only [alone, List.foldl_append, List.foldl_cons, List.foldl_nil]

/-- One more act on a member. -/
theorem Follows.extend {after : Memory × Session} {lineage : List (Stage × Answer)} {stage : Stage}
    {answer answer' : Answer} {soFar : List Answer} {solo solo' : Memory × Session}
    (alone_eq : root.alone start (lineage.map Prod.fst) = (soFar, solo))
    (step : stage.alone (soFar, solo) = (soFar ++ [answer'], solo'))
    (answers : List.Forall₂ (Answers root start draws) (lineage.map Prod.snd) soFar)
    (longer : draws <+: last) (abreast : Abreast root start last after solo')
    (same : Answers root start last answer answer') :
    Follows root start after (lineage ++ [(stage, answer)]) := by
  have all : root.alone start ((lineage ++ [(stage, answer)]).map Prod.fst) = (soFar ++ [answer'], solo') := by
    rw [List.map_append, List.map_cons, List.map_nil, alone_append, alone_eq, step]
  refine ⟨last, ?_, ?_⟩
  · rw [all]
    exact abreast
  · rw [all, List.map_append]
    exact List.rel_append (answers.imp fun _ _ => Answers.mono longer) (.cons same .nil)

theorem Memory.Abreast.drawnName_eq {m : Memory} {s : Session} {solo : Memory × Session}
    (abreast : Abreast root start draws (m, s) solo) (n : Nat) :
    m.drawnName s n = root.drawnName start (s.freshBytes - start.freshBytes + n) := by
  have vars : (s.supplied root.store.supply).vars = _ := abreast.full_vars
  rw [drawnName, drawnName, id_of_settings abreast.full_settings, supply_of_settings abreast.full_settings,
    vars, UInt64.ofNat_add, UInt64.add_assoc]

/-- The names handed out by an act are the next ones. -/
theorem Memory.Abreast.names_perm {m : Memory} {s : Session} {solo after : Memory × Session} {act : Act}
    (abreast : Abreast root start draws (m, s) solo)
    (advanced : (if act.reads then Reading else Silent) (m, s) after) :
    ∃ k, after.2.freshBytes = s.freshBytes + k ∧
      (if act.reads then m.namesSince after.1 else []).Perm
        ((List.range k).map fun n => root.drawnName start (s.freshBytes - start.freshBytes + n)) := by
  cases reads : act.reads with
  | false =>
      rw [reads] at advanced
      exact ⟨0, advanced.freshBytes, .refl _⟩
  | true =>
      rw [reads] at advanced
      obtain ⟨listed, drawn⟩ := advanced
      refine ⟨listed.length, drawn.freshBytes, ?_⟩
      simp only [← abreast.drawnName_eq]
      exact drawn.namesSince_perm

namespace Branches

variable {x : Branches} {place : Nat} {m : Memory} {act : Act} {answer : Answer} {after : Memory × Session}

/-- A tree after an act on one member. -/
def noted (x : Branches) (place : Nat) (act : Act) (answer : Answer) (m : Memory) (after : Memory × Session) :
    Branches where
  bench := { x.bench with session := after.2, memories := x.bench.memories.setIfInBounds place after.1 }
  lineages := x.lineages.modify place (· ++ [(⟨act, false⟩, answer)])
  handed := x.handed ++ if act.reads then m.namesSince after.1 else []

/-- A tree with one more member. -/
def joined (x : Branches) (m : Memory) (lineage : List (Stage × Answer)) : Branches :=
  { x with bench := { x.bench with memories := x.bench.memories.push m }, lineages := x.lineages.push lineage }

theorem Isolated.noted (isolated : Isolated root start x) (there : x.bench.memories[place]? = some m)
    {lineage : List (Stage × Answer)} (its : x.lineages[place]? = some lineage)
    (advanced : (if act.reads then Reading else Silent) (m, x.bench.session) after)
    (follows : Follows root start after (lineage ++ [(⟨act, false⟩, answer)])) :
    Isolated root start (x.noted place act answer m after) := by
  obtain ⟨_, _, draws, before, _⟩ := isolated.members place m there
  obtain ⟨k, fresh, names⟩ := before.names_perm advanced
  have begun : start.freshBytes ≤ x.bench.session.freshBytes := before.begun
  obtain ⟨inside, _⟩ := Array.getElem?_eq_some_iff.mp there
  refine ⟨?_, ?_, fun other m' held => ?_⟩
  · simp only [Branches.noted, Array.size_modify, Array.size_setIfInBounds]
    exact isolated.recorded
  · simp only [Branches.noted]
    rw [fresh, Nat.sub_add_comm begun, List.range_add, List.map_append, List.map_map]
    exact isolated.handed.append names
  · simp only [Branches.noted, Array.getElem?_setIfInBounds, Array.getElem?_modify] at held ⊢
    by_cases same : place = other
    · subst same
      rw [if_pos rfl, if_pos inside] at held
      cases held
      rw [if_pos rfl, its]
      exact ⟨_, rfl, follows⟩
    · rw [if_neg same] at held ⊢
      obtain ⟨lineage', its', draws', abreast', answers'⟩ := isolated.members other m' held
      obtain ⟨_, later, _⟩ := follows
      exact ⟨lineage', its', draws', abreast'.elsewhere later (by omega), answers'⟩

theorem Isolated.joined (isolated : Isolated root start x) {lineage : List (Stage × Answer)}
    (follows : Follows root start (m, x.bench.session) lineage) : Isolated root start (x.joined m lineage) := by
  refine ⟨?_, isolated.handed, fun place m' held => ?_⟩
  · simp only [Branches.joined, Array.size_push]
    rw [isolated.recorded]
  · simp only [Branches.joined, Array.getElem?_push] at held ⊢
    rw [isolated.recorded]
    split at held
    · next last =>
      cases held
      rw [if_pos last]
      exact ⟨lineage, rfl, follows⟩
    · next other =>
      rw [if_neg other]
      exact isolated.members place m' held

theorem step_returned (there : x.bench.memories[place]? = some m) {answer : List Expr}
    (done : act.perform (m, x.bench.session) = .ok (answer, none) after) :
    x.step (place, act) = x.noted place act (.ok answer) m after := by
  obtain ⟨inside, _⟩ := Array.getElem?_eq_some_iff.mp there
  simp only [step, Act.onBench_returned there done, there, Array.size_setIfInBounds, lt_irrefl, if_false,
    Array.getElem?_setIfInBounds_self_of_lt inside, noted]

theorem step_failed (there : x.bench.memories[place]? = some m) {e : Failure}
    (failed : act.perform (m, x.bench.session) = .error e after) :
    x.step (place, act) = x.noted place act (.error e) m after := by
  obtain ⟨inside, _⟩ := Array.getElem?_eq_some_iff.mp there
  simp only [step, Act.onBench_failed there failed, there, Array.size_setIfInBounds, lt_irrefl, if_false,
    Array.getElem?_setIfInBounds_self_of_lt inside, noted]

theorem step_branched (there : x.bench.memories[place]? = some m) {lineage : List (Stage × Answer)}
    (its : x.lineages[place]? = some lineage) {answer : List Expr} {child : Memory}
    (done : act.perform (m, x.bench.session) = .ok (answer, some child) after) :
    x.step (place, act) =
      (x.noted place act (.ok answer) m after).joined child (lineage ++ [(⟨act, true⟩, .ok answer)]) := by
  obtain ⟨inside, _⟩ := Array.getElem?_eq_some_iff.mp there
  have held : ((x.bench.memories.setIfInBounds place after.1).push child)[place]? = some after.1 := by
    rw [Array.getElem?_push, Array.size_setIfInBounds, if_neg (Nat.ne_of_lt inside),
      Array.getElem?_setIfInBounds_self_of_lt inside]
  simp only [step, Act.onBench_branched there done, there, held, Array.size_push, Array.size_setIfInBounds,
    Nat.lt_succ_self, if_true, Array.getD_eq_getD_getElem?, its, Option.getD_some, noted, joined]

theorem step_absent (isolated : Isolated root start x) (absent : x.bench.memories[place]? = none) (act : Act) :
    x.step (place, act) = x := by
  have outside : x.lineages.size ≤ place := isolated.recorded ▸ Array.getElem?_eq_none_iff.mp absent
  have same : x.lineages.modify place (· ++ [(⟨act, false⟩, .error (.fault (.noSuchNumber place)))]) = x.lineages := by
    refine Array.ext_getElem? fun other => ?_
    rw [Array.getElem?_modify]
    split
    · next here => rw [← here, Array.getElem?_eq_none outside, Option.map_none]
    · rfl
  simp only [step, Act.onBench_absent absent, absent, lt_irrefl, if_false, same, List.append_nil]

theorem step_isolated (isolated : Isolated root start x) (allowed : act.Allowed (root.Pending start))
    (place : Nat) : Isolated root start (x.step (place, act)) := by
  cases there : x.bench.memories[place]? with
  | none =>
      rw [step_absent isolated there]
      exact isolated
  | some m =>
      obtain ⟨lineage, its, draws, abreast, answers⟩ := isolated.members place m there
      have advances := Act.perform_advances allowed
      cases alone_eq : root.alone start (lineage.map Prod.fst) with | mk soFar solo =>
      rw [alone_eq] at abreast answers
      cases Act.perform_alike allowed abreast with
      | returned done done' longer abreast' twins =>
          rw [step_returned there done]
          refine isolated.noted there its (advances.of_ok done) ?_
          exact .extend alone_eq (by simp [Stage.alone, done']) answers longer abreast' (.ok twins)
      | failed failed failed' longer abreast' =>
          rw [step_failed there failed]
          refine isolated.noted there its (advances.of_error failed) ?_
          exact .extend alone_eq (by simp [Stage.alone, failed']) answers longer abreast' .error
      | branched done done' abreast' =>
          rw [step_branched there its done]
          refine (isolated.noted there its (advances.of_ok done) ?_).joined ?_
          · exact .extend alone_eq (by simp [Stage.alone, done']) answers (List.prefix_refl _) abreast' (.ok .nil)
          · exact .extend alone_eq (by simp [Stage.alone, done']) answers (List.prefix_refl _) abreast' (.ok .nil)

theorem run_isolated (isolated : Isolated root start x) {orders : List (Nat × Act)}
    (allowed : ∀ order ∈ orders, order.2.Allowed (root.Pending start)) : Isolated root start (x.run orders) := by
  induction orders generalizing x with
  | nil => exact isolated
  | cons order rest ih =>
      refine ih (step_isolated isolated (allowed order List.mem_cons_self) order.1) fun other member => ?_
      exact allowed other (List.mem_cons_of_mem _ member)

theorem begin_isolated
    (settled : ∀ address cell, root.cell? address = some cell → cell.Settled (root.Pending start)) :
    Isolated root start (begin root start) := by
  refine ⟨rfl, ?_, fun place m held => ?_⟩
  · simp only [begin, Nat.sub_self]
    exact .refl _
  · obtain ⟨rfl, rfl⟩ : place = 0 ∧ root = m := by simpa [begin, List.getElem?_singleton] using held
    refine ⟨[], rfl, [], ?_, .nil⟩
    refine ⟨rfl, rfl, Nat.le_refl _, ?_, ?_, .nil, fun d drawn => (List.not_mem_nil drawn).elim, fun address => ?_⟩
    · simp [begin]
    · simp [alone]
    · simp only [List.map_nil, alone, List.foldl_nil]
      cases held : root.cell? address with
      | none => exact .none
      | some cell => exact .some (.same (settled address cell held))

end Branches

section Renaming

variable {drawn : Nat} (room : (start.supplied root.store.supply).vars.toNat + drawn ≤ UInt64.size)

include room

theorem toNat_add_drawn {n : Nat} (below : n < drawn) :
    ((start.supplied root.store.supply).vars + UInt64.ofNat n).toNat =
      (start.supplied root.store.supply).vars.toNat + n := by
  have small : UInt64.size = 2 ^ 64 := rfl
  rw [UInt64.toNat_add, UInt64.toNat_ofNat']
  omega

theorem drawnName_inj {a b : Nat} (ha : a < drawn) (hb : b < drawn)
    (same : root.drawnName start a = root.drawnName start b) : a = b := by
  have numbers := congrArg UInt64.toNat (byteName_inj same)
  rw [toNat_add_drawn room ha, toNat_add_drawn room hb] at numbers
  exact Nat.add_left_cancel numbers

theorem pending_drawnName {n : Nat} (below : n < drawn) : root.Pending start (root.drawnName start n) := by
  refine .inl ⟨_, ?_, rfl⟩
  rw [UInt64.le_iff_toNat_le, toNat_add_drawn room below]
  exact Nat.le_add_right _ _

/-- The names of the two runs correspond one to one, so that some permutation takes the ones to the others. -/
theorem exists_renaming (increasing : draws.Pairwise (· < ·)) (below : ∀ d ∈ draws, d < drawn) :
    ∃ σ : Equiv.Perm String, (∀ name, ¬ root.Pending start name → σ name = name) ∧
      ∀ name name', Paired root start draws name name' → σ name = name' := by
  classical
  have nodup : draws.Nodup := increasing.imp Nat.ne_of_lt
  have few : draws.length ≤ drawn := by
    have subset : draws ⊆ List.range drawn := fun d member => List.mem_range.mpr (below d member)
    simpa using (List.subperm_of_subset nodup subset).length_le
  let full (k : Fin draws.length) : Subtype (root.Pending start) :=
    ⟨root.drawnName start (draws.get k), pending_drawnName room (below _ (List.get_mem _ _))⟩
  let solo (k : Fin draws.length) : Subtype (root.Pending start) :=
    ⟨root.drawnName start k, pending_drawnName room (Nat.lt_of_lt_of_le k.2 few)⟩
  have full_inj : Function.Injective full := by
    intro a b same
    have numbers := drawnName_inj room (below _ (List.get_mem _ _)) (below _ (List.get_mem _ _))
      (congrArg Subtype.val same)
    exact List.nodup_iff_injective_get.mp nodup numbers
  have solo_inj : Function.Injective solo := by
    intro a b same
    exact Fin.ext (drawnName_inj room (Nat.lt_of_lt_of_le a.2 few) (Nat.lt_of_lt_of_le b.2 few)
      (congrArg Subtype.val same))
  obtain ⟨σ, maps⟩ := Equiv.Perm.exists_extending_pair full solo full_inj solo_inj
  refine ⟨Equiv.Perm.ofSubtype σ, fun name other => Equiv.Perm.ofSubtype_apply_of_not_mem σ other, ?_⟩
  rintro _ _ ⟨k, d, place, rfl, rfl⟩
  obtain ⟨inside, rfl⟩ := List.getElem?_eq_some_iff.mp place
  exact (Equiv.Perm.ofSubtype_apply_of_mem σ (full ⟨k, inside⟩).2).trans
    (congrArg Subtype.val (maps ⟨k, inside⟩))

end Renaming

section Erasure

variable {f : String → String} (fixes : ∀ name, ¬ root.Pending start name → f name = name)
  (follows : ∀ name name', Paired root start draws name name' → f name = name')

include fixes follows

theorem erase_list {es es' : List Expr} (twins : List.Forall₂ (TwinAt root start draws) es es') :
    es'.map Expr.erase = es.map fun e => e.erase.rename f := by
  induction twins with
  | nil => rfl
  | cons twin _ ih => rw [List.map_cons, List.map_cons, ih, Twin.erase_eq twin follows fixes]

theorem erase_cell {cell cell' : Option Expr} (twins : Option.Rel (TwinAt root start draws) cell cell') :
    cell'.map Expr.erase = cell.map fun e => e.erase.rename f := by
  cases twins with
  | none => rfl
  | some twin => rw [Option.map_some, Option.map_some, Twin.erase_eq twin follows fixes]

theorem erase_answers {answers answers' : List Answer}
    (same : List.Forall₂ (Answers root start draws) answers answers') :
    answers'.map (Except.map (List.map Expr.erase)) =
      answers.map (Except.map (List.map fun e => e.erase.rename f)) := by
  induction same with
  | nil => rfl
  | cons first _ ih =>
      rw [List.map_cons, List.map_cons, ih]
      cases first with
      | ok twins => rw [Except.map, Except.map, erase_list fixes follows twins]
      | error => rfl

end Erasure

/-- The branches of a memory do not interfere. Whatever is done to the members of a tree, in any
    order, no name is handed out twice, and all of them are new; and each member holds and has
    returned what it would if only it, and before it those it branched off from, had been worked
    on, up to a renaming of the new names. -/
theorem Branches.run_keeps_apart
    (settled : ∀ address cell, root.cell? address = some cell → cell.Settled (root.Pending start))
    {orders : List (Nat × Act)} (allowed : ∀ order ∈ orders, order.2.Allowed (root.Pending start))
    (room : (start.supplied root.store.supply).vars.toNat +
      (((begin root start).run orders).bench.session.freshBytes - start.freshBytes) ≤ UInt64.size) :
    let final := (begin root start).run orders
    (final.handed.Nodup ∧ final.handed.length = final.bench.session.freshBytes - start.freshBytes ∧
      ∀ name ∈ final.handed, root.Pending start name) ∧
    ∀ (place : Nat) m, final.bench.memories[place]? = some m →
      ∃ lineage, final.lineages[place]? = some lineage ∧
      ∃ σ : Equiv.Perm String, (∀ name, ¬ root.Pending start name → σ name = name) ∧
        let alone := root.alone start (lineage.map Prod.fst)
        (∀ address, (alone.2.1.cell? address).map Expr.erase =
          (m.cell? address).map fun cell => cell.erase.rename σ) ∧
        alone.1.map (Except.map (List.map Expr.erase)) =
          lineage.map fun stage => stage.2.map (List.map fun e => e.erase.rename σ) := by
  intro final
  have isolated : Isolated root start final := run_isolated (begin_isolated settled) allowed
  refine ⟨⟨?_, ?_, ?_⟩, fun place m held => ?_⟩
  · refine isolated.handed.nodup_iff.mpr (List.Nodup.map_on ?_ List.nodup_range)
    intro a ha b hb same
    exact drawnName_inj room (List.mem_range.mp ha) (List.mem_range.mp hb) same
  · rw [isolated.handed.length_eq, List.length_map, List.length_range]
  · intro name member
    obtain ⟨n, below, rfl⟩ := List.mem_map.mp (isolated.handed.mem_iff.mp member)
    exact pending_drawnName room (List.mem_range.mp below)
  · obtain ⟨lineage, its, draws, abreast, answers⟩ := isolated.members place m held
    obtain ⟨σ, fixes, follows⟩ := exists_renaming room abreast.increasing abreast.below
    refine ⟨lineage, its, σ, fixes, fun address => erase_cell fixes follows (abreast.cells address), ?_⟩
    rw [erase_answers fixes follows answers, List.map_map]
    rfl

/-- A name that is no longer than the id of a memory is none that its supply hands out. -/
theorem Memory.not_pending_of_length {m : Memory} {session : Session} {name : String}
    (short : name.length ≤ m.id.length) : ¬ m.Pending session name := by
  rintro (⟨n, _, rfl⟩ | ⟨n, _, rfl⟩)
  · rw [byteName, String.length_append, String.length_append, show "_".length = 1 from rfl] at short
    omega
  · rw [valueName, String.length_append, String.length_append, show "_addr_".length = 6 from rfl] at short
    omega

/-- A byte is read on both sides of a branching, and on the newer side again as part of a value, of
    which the rest was stored. Without the other side it would have another name there. -/
theorem Branches.run_keeps_apart_renamed :
    let root : Memory := ⟨16, true, {}, { id := "m" }⟩
    let constant (w : UInt64) : Value := { solver := none, constraints := [], expr := .const (some w.toNat) ⟨w, 16⟩ }
    let orders := [(0, .branch), (0, .readBytes 5 1), (1, .readBytes 5 1),
      (1, .store (constant 6) (.var (some 0) ⟨"x", 16⟩)), (1, .load (constant 5) 16)]
    let final := (begin root {}).run orders
    final.handed = ["m_0", "m_1"] ∧ final.handed.Nodup ∧
      ∃ m lineage, final.bench.memories[1]? = some m ∧ final.lineages[1]? = some lineage ∧
        ∃ σ : Equiv.Perm String, σ "x" = "x" ∧ σ "m_1" = "m_0" ∧
          (∀ address, ((root.alone {} (lineage.map Prod.fst)).2.1.cell? address).map Expr.erase =
            (m.cell? address).map fun cell => cell.erase.rename σ) ∧
          (root.alone {} (lineage.map Prod.fst)).1.map (Except.map (List.map Expr.erase)) =
            lineage.map fun stage => stage.2.map (List.map fun e => e.erase.rename σ) := by
  intro root constant orders
  have other : ¬ root.Pending {} "x" := not_pending_of_length (show "x".length ≤ "m".length by decide)
  have settled : ∀ address cell, root.cell? address = some cell → cell.Settled (root.Pending {}) := by
    intro address cell held
    have empty : root.cell? address = none := Std.TreeMap.getElem?_emptyc
    cases empty.symm.trans held
  have allowed : ∀ order ∈ orders, order.2.Allowed (root.Pending {}) := by
    have value : (Expr.var (some 0) ⟨"x", 16⟩).Settled (root.Pending {}) := by
      refine ⟨rfl, fun v occurs => ?_⟩
      rw [List.mem_singleton.mp occurs]
      exact other
    simp only [orders, List.forall_mem_cons, Act.Allowed]
    exact ⟨trivial, trivial, trivial, ⟨⟨_, _, rfl⟩, value⟩, ⟨_, _, rfl⟩, fun _ none => by cases none⟩
  have kept := @run_keeps_apart root {} settled orders allowed
  -- The run gets a name, lest unification looks into it.
  generalize run : (begin root {}).run orders = final at kept ⊢
  have fresh : final.bench.session.freshBytes = 2 := by
    simp only [← run, orders, constant, root]
    cbv
  have handed : final.handed = ["m_0", "m_1"] := by
    simp only [← run, orders, constant, root]
    cbv
  have here : final.bench.memories[1]?.map (fun m => (m.cell? 5).map Expr.erase) =
      some (some (.var none ⟨"m_1", 8⟩)) := by
    simp only [← run, orders, constant, root]
    cbv
  have alone : final.lineages[1]?.map (fun lineage =>
      ((root.alone {} (lineage.map Prod.fst)).2.1.cell? 5).map Expr.erase) =
      some (some (.var none ⟨"m_0", 8⟩)) := by
    simp only [← run, orders, constant, root]
    cbv
  obtain ⟨⟨nodup, _⟩, members⟩ := kept (by rw [fresh]; decide)
  obtain ⟨m, held, there⟩ := Option.map_eq_some_iff.mp here
  obtain ⟨lineage, its, σ, fixes, cells, answers⟩ := members 1 m held
  rw [its, Option.map_some, Option.some.injEq] at alone
  have renamed : σ "m_1" = "m_0" := by
    have byte := cells 5
    rw [alone, ← Function.comp_def (Expr.rename σ), ← Option.map_map, there] at byte
    injection byte with byte
    injection byte with _ byte
    injection byte with byte
    exact byte.symm
  exact ⟨handed, nodup, m, lineage, held, its, σ, fixes "x" other, renamed, cells, answers⟩

end Isolation

end SymbolicMemory
