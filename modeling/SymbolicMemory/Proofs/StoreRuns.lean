import Mathlib.Data.Fintype.Card
import SymbolicMemory.Proofs.DistinctNames

/-! # Runs of reads and writes

A store is a map of bytes that comes into being as it is used. Whatever is read and written, in any
order, an address has the cell that was written there last; without a write, the cell that the
first read made, from the image or as a variable with a name of its own. One access is described by a
relation with a rule for each way it can go. What a run keeps is shown for one access and follows
for the run by induction on its end.
-/

namespace SymbolicMemory

open Names

theorem Names.after_append (names : Names) (calls more : List Call) :
    names.after (calls ++ more) = (names.after calls).after more := List.foldl_append

/-- The name that a byte would get is taken: under an id that `_addr` behind it makes the id of the
    byte, a loaded value got the number. -/
def Names.Taken (names : Names) (calls : List Call) (id : String) (number : UInt64) : Prop :=
  ∃ (i : Nat) (value : String), calls[i]? = some (.addr value) ∧ value ++ "_addr" = id ∧
    (names.after (calls.take i)).addrs = number

/-- Calls for bytes take no name away. -/
theorem Names.taken_append_bytes_iff (names : Names) (calls : List Call) {bytes : List Call}
    (only : ∀ call ∈ bytes, call.isVar = true) {id : String} {number : UInt64} :
    names.Taken (calls ++ bytes) id number ↔ names.Taken calls id number := by
  refine exists_congr fun i => exists_congr fun value => ?_
  rcases Nat.lt_or_ge i calls.length with inside | beyond
  · rw [List.getElem?_append_left inside, List.take_append_of_le_length (Nat.le_of_lt inside)]
  · rw [List.getElem?_append_right beyond, List.getElem?_eq_none beyond]
    refine ⟨fun ⟨there, _⟩ => ?_, nofun⟩
    cases only _ (List.mem_of_getElem? there)

/-- The next name of a byte was handed out before exactly if it is taken, unless the numbers came
    round. -/
theorem Names.nextVar_mem_serve_iff (names : Names) {calls : List Call} {id : String}
    (few : calls.length < UInt64.size) :
    byteName id (names.after calls).vars ∈ names.serve calls ↔ names.Taken calls id (names.after calls).vars := by
  rw [List.mem_iff_getElem?]
  refine exists_congr fun i => ?_
  rw [serve_getElem?, Option.map_eq_some_iff]
  constructor
  · rintro ⟨call, here, same⟩
    obtain ⟨stems, numbers⟩ := byteName_eq_iff.mp same
    cases call with
    | addr value => exact ⟨value, here, stems, numbers⟩
    | var id' =>
        -- another byte got another number
        have inside := (List.getElem?_eq_some_iff.mp here).1
        have ahead : (calls ++ [.var id])[i]? = some (.var id') := by
          rw [List.getElem?_append_left inside, here]
        have distinct := ofNat_countP_ne (by simpa using few) inside (by simp) ahead (p := Call.isVar) rfl names.vars
        rw [List.take_append_of_le_length (Nat.le_of_lt inside), List.take_left] at distinct
        rw [after_eq, after_eq] at numbers
        exact absurd numbers distinct
  · rintro ⟨value, here, stems, numbers⟩
    exact ⟨.addr value, here, byteName_eq_iff.mpr ⟨stems, numbers⟩⟩

namespace Store

/-- One access to a store. -/
inductive Step where
  | read (address : UInt64)
  | write (address : UInt64) (cell : Expr)

namespace Step

def address : Step → UInt64
  | read a | write a _ => a

/-- What is written at an address, if that is what is done. -/
def written? (a : UInt64) : Step → Option Expr
  | read _ => none
  | write b cell => if b = a then some cell else none

theorem written?_other {step : Step} {a : UInt64} (other : step.address ≠ a) : step.written? a = none := by
  cases step with
  | read b => rfl
  | write b cell => exact if_neg other

/-- Only bytes are written. -/
def Bytewise : Step → Prop
  | read _ => True
  | write _ cell => cell.width = 8

end Step

/-- Makes one access. What is returned is the cell at the address from then on. -/
def perform : Step → On Store Expr
  | .read a => read a
  | .write a cell => do
    write a cell
    return cell

/-- Makes one access after the other. -/
def run (steps : List Step) : On Store (List Expr) := steps.mapM perform

/-- What was written last at an address, if anything was. -/
def lastWritten (steps : List Step) (a : UInt64) : Option Expr := steps.reverse.findSome? (·.written? a)

/-- The first access to an address is a read. -/
def ReadFirst (steps : List Step) (a : UInt64) : Prop := steps.find? (·.address = a) = some (.read a)

/-- A store with another cell at an address. -/
def put (s : Store) (a : UInt64) (cell : Expr) : Store := { s with cells := s.cells.insert a cell }

theorem getElem?_put (s : Store) (a : UInt64) (cell : Expr) (b : UInt64) :
    (s.put a cell).cells[b]? = if a = b then some cell else s.cells[b]? := by
  simp [put, Std.TreeMap.getElem?_insert]

/-- The ways in which an access can go, with the cell at the address from then on and the store and
    session that are left. -/
inductive Goes (s : Store) (session : Session) : Step → Expr → Store → Session → Prop
  | writes {a : UInt64} {cell : Expr} (byte : cell.width = 8) :
      Goes s session (.write a cell) cell (s.put a cell) session
  | finds {a : UInt64} {cell : Expr} (present : s.cells[a]? = some cell) :
      Goes s session (.read a) cell s session
  | loads {a : UInt64} {b : UInt8} {cell : Expr} {left : Session} (absent : s.cells[a]? = none)
      (image : s.image a = some b) (made : cell = .const (some session.nextTag) ⟨b.toUInt64, 8⟩)
      (next : left.nextTag = session.nextTag + 1)
      (supplied : left.supplied s.supply = session.supplied s.supply) :
      Goes s session (.read a) cell (s.put a cell) left
  | draws {a : UInt64} {cell : Expr} {left : Session} (absent : s.cells[a]? = none)
      (image : s.image a = none)
      (made : cell = .var (some session.nextTag) ⟨byteName s.id (session.supplied s.supply).vars, 8⟩)
      (next : left.nextTag = session.nextTag + 1)
      (supplied : left.supplied s.supply = (session.supplied s.supply).after [.var s.id]) :
      Goes s session (.read a) cell (s.put a cell) left

theorem read_present {s : Store} {a : UInt64} {cell : Expr} (present : s.cells[a]? = some cell)
    (session : Session) : read a (s, session) = .ok cell (s, session) := by
  simp only [read, On.thing, bind, EStateM.bind, Std.TreeMap.get?_eq_getElem?, present]
  rfl

theorem read_absent {s : Store} {a : UInt64} (absent : s.cells[a]? = none) {session left : Session}
    {cell : Expr} (made : s.materialize a session = .ok cell left) :
    read a (s, session) = .ok cell (s.put a cell, left) := by
  simp only [read, On.thing, bind, EStateM.bind, Std.TreeMap.get?_eq_getElem?, absent, liftM, monadLift,
    MonadLift.monadLift, On.run, made]
  rfl

theorem materialize_image {s : Store} {a : UInt64} {b : UInt8} (image : s.image a = some b) (session : Session) :
    ∃ left, s.materialize a session = .ok (.const (some session.nextTag) ⟨b.toUInt64, 8⟩) left ∧
      left.nextTag = session.nextTag + 1 ∧ left.supplied s.supply = session.supplied s.supply := by
  rw [materialize, image]
  cases s.supply <;> exact ⟨_, rfl, rfl, rfl⟩

theorem materialize_fresh {s : Store} {a : UInt64} (image : s.image a = none) (session : Session) :
    ∃ left, s.materialize a session =
        .ok (.var (some session.nextTag) ⟨byteName s.id (session.supplied s.supply).vars, 8⟩) left ∧
      left.nextTag = session.nextTag + 1 ∧
      left.supplied s.supply = (session.supplied s.supply).after [.var s.id] := by
  rw [materialize, image]
  cases s.supply <;> exact ⟨_, rfl, rfl, rfl⟩

theorem perform_goes (s : Store) (session : Session) {step : Step} (bytewise : step.Bytewise) :
    ∃ cell after left, perform step (s, session) = .ok cell (after, left) ∧
      Goes s session step cell after left := by
  cases step with
  | write a cell =>
      have byte : cell.width = 8 := bytewise
      refine ⟨cell, s.put a cell, session, ?_, .writes byte⟩
      simp only [perform, write, byte]
      rfl
  | read a =>
      cases present : s.cells[a]? with
      | some cell => exact ⟨cell, s, session, read_present present session, .finds present⟩
      | none =>
          cases image : s.image a with
          | some b =>
              obtain ⟨left, made, next, supplied⟩ := materialize_image image session
              exact ⟨_, _, left, read_absent present made, .loads present image rfl next supplied⟩
          | none =>
              obtain ⟨left, made, next, supplied⟩ := materialize_fresh image session
              exact ⟨_, _, left, read_absent present made, .draws present image rfl next supplied⟩

section Runs

variable {initial s after : Store} {start session left : Session} {steps : List Step} {cells : List Expr}
  {drawn : List UInt64} {step : Step} {cell : Expr}

namespace Goes

theorem settings_eq (goes : Goes s session step cell after left) : after = { s with cells := after.cells } := by
  cases goes <;> rfl

theorem lookup_self (goes : Goes s session step cell after left) : after.cells[step.address]? = some cell := by
  cases goes with
  | finds present => exact present
  | writes | loads | draws => exact (getElem?_put s _ cell _).trans (if_pos rfl)

theorem lookup_other (goes : Goes s session step cell after left) {b : UInt64} (other : step.address ≠ b) :
    after.cells[b]? = s.cells[b]? := by
  cases goes with
  | finds => rfl
  | writes | loads | draws => exact (getElem?_put s _ cell b).trans (if_neg other)

/-- A cell that is there is what is read. -/
theorem eq_of_present {a : UInt64} (goes : Goes s session (.read a) cell after left) {old : Expr}
    (present : s.cells[a]? = some old) : cell = old := by
  cases goes with
  | finds there => exact Option.some.inj (there.symm.trans present)
  | loads absent | draws absent => cases absent.symm.trans present

theorem byte (goes : Goes s session step cell after left)
    (bytes : ∀ (a : UInt64) (cell : Expr), s.cells[a]? = some cell → cell.width = 8) : cell.width = 8 := by
  cases goes with
  | writes byte => exact byte
  | finds present => exact bytes _ _ present
  | loads _ _ made | draws _ _ made => rw [made]; rfl

end Goes

theorem lastWritten_concat (steps : List Step) (step : Step) (a : UInt64) :
    lastWritten (steps ++ [step]) a = (step.written? a).or (lastWritten steps a) := by
  rw [lastWritten, List.reverse_concat, List.findSome?_cons]
  cases step.written? a <;> rfl

theorem getElem?_concat_cases {α : Type} {xs : List α} {x y : α} {i : Nat} (there : (xs ++ [x])[i]? = some y) :
    xs[i]? = some y ∨ i = xs.length ∧ x = y := by
  rcases Nat.lt_or_ge i xs.length with inside | beyond
  · rw [List.getElem?_append_left inside] at there
    exact .inl there
  · rw [List.getElem?_append_right beyond, List.getElem?_singleton] at there
    split at there
    · next last => exact .inr ⟨by omega, Option.some.inj there⟩
    · cases there

/-- What a store holds is what its accesses tell: the last cell that was written, or the cell that
    every read returned. -/
structure Recalls (steps : List Step) (cells : List Expr) (s : Store) : Prop where
  length_eq : cells.length = steps.length
  written : ∀ (a : UInt64) (cell : Expr), lastWritten steps a = some cell → s.cells[a]? = some cell
  kept : ∀ (i : Nat) (a : UInt64), lastWritten steps a = none → steps[i]? = some (.read a) →
    s.cells[a]? = cells[i]?
  touched : ∀ a : UInt64, s.cells[a]?.isSome ↔ a ∈ steps.map Step.address
  bytes : ∀ (a : UInt64) (cell : Expr), s.cells[a]? = some cell → cell.width = 8

theorem Recalls.nil (empty : ∀ a : UInt64, s.cells[a]? = none) : Recalls [] [] s :=
  ⟨rfl, by simp [lastWritten], by simp, by simp [empty], by simp [empty]⟩

theorem Recalls.concat (recalls : Recalls steps cells s) (goes : Goes s session step cell after left) :
    Recalls (steps ++ [step]) (cells ++ [cell]) after where
  length_eq := by simp [recalls.length_eq]
  written a c last := by
    rw [lastWritten_concat] at last
    by_cases here : step.address = a
    · cases here
      rw [goes.lookup_self]
      cases step with
      | read b => rw [goes.eq_of_present (recalls.written b c last)]
      | write b c' =>
          cases goes
          simpa [Step.written?, Step.address] using last
    · rw [Step.written?_other here, Option.none_or] at last
      rw [goes.lookup_other here]
      exact recalls.written a c last
  kept i a unwritten read := by
    rw [lastWritten_concat, Option.or_eq_none_iff] at unwritten
    obtain ⟨unwritten, before⟩ := unwritten
    rcases getElem?_concat_cases read with earlier | ⟨rfl, rfl⟩
    · have inside := (List.getElem?_eq_some_iff.mp earlier).1
      rw [List.getElem?_append_left (recalls.length_eq ▸ inside), ← recalls.kept i a before earlier]
      by_cases here : step.address = a
      · cases step with
        | read b =>
            cases here
            have touched := List.mem_map_of_mem (f := Step.address) (List.mem_of_getElem? earlier)
            obtain ⟨old, present⟩ := Option.isSome_iff_exists.mp ((recalls.touched b).mpr touched)
            rw [← goes.eq_of_present present] at present
            exact goes.lookup_self.trans present.symm
        | write b c => simp [Step.written?, show b = a from here] at unwritten
      · exact goes.lookup_other here
    · rw [← recalls.length_eq, List.getElem?_concat_length]
      exact goes.lookup_self
  touched a := by
    rw [List.map_append, List.mem_append, ← recalls.touched]
    by_cases here : step.address = a
    · cases here
      simp [goes.lookup_self]
    · simp [goes.lookup_other here, Ne.symm here]
  bytes a c there := by
    by_cases here : step.address = a
    · cases here
      cases goes.lookup_self.symm.trans there
      exact goes.byte recalls.bytes
    · rw [goes.lookup_other here] at there
      exact recalls.bytes a c there

theorem lastWritten_eq_none_iff {a : UInt64} :
    lastWritten steps a = none ↔ ∀ step ∈ steps, step.written? a = none := by
  simp [lastWritten]

theorem readFirst_concat (steps : List Step) (step : Step) (a : UInt64) :
    ReadFirst (steps ++ [step]) a ↔
      ReadFirst steps a ∨ a ∉ steps.map Step.address ∧ step = .read a := by
  unfold ReadFirst
  rw [List.find?_append]
  cases first : steps.find? (·.address = a) with
  | some other =>
      have member : a ∈ steps.map Step.address := by
        have same : other.address = a := by simpa using List.find?_some first
        exact List.mem_map.mpr ⟨other, List.mem_of_find?_eq_some first, same⟩
      simp [member]
  | none =>
      have untouched : a ∉ steps.map Step.address := by
        simpa using List.find?_eq_none.mp first
      by_cases here : step.address = a
      · simp [here, untouched]
      · have other : step ≠ .read a := by
          rintro rfl
          exact here rfl
        simp [here, other]

theorem ReadFirst.mem {a : UInt64} (first : ReadFirst steps a) :
    a ∈ steps.map Step.address := List.mem_map_of_mem (List.mem_of_find?_eq_some first)

/-- The names that were drawn: one for each address that was read first and has no byte in the image. -/
structure Supplies (initial : Store) (start : Session) (steps : List Step) (drawn : List UInt64)
    (session : Session) : Prop where
  nodup : drawn.Nodup
  mem_iff : ∀ a, a ∈ drawn ↔ initial.image a = none ∧ ReadFirst steps a
  supplied : session.supplied initial.supply =
    (start.supplied initial.supply).after (drawn.map fun _ => .var initial.id)

theorem Supplies.concat (supplies : Supplies initial start steps drawn session) (recalls : Recalls steps cells s)
    (settings : s = { initial with cells := s.cells }) (goes : Goes s session step cell after left) :
    ∃ drawn, Supplies initial start (steps ++ [step]) drawn left := by
  have absent_iff : ∀ a : UInt64, s.cells[a]? = none ↔ a ∉ steps.map Step.address := by
    intro a
    rw [← recalls.touched, Option.not_isSome_iff_eq_none]
  -- only a byte that no access touched before and that the image does not have draws a name
  have same : (∀ a : UInt64, initial.image a = none → s.cells[a]? = none → step ≠ .read a) →
      left.supplied initial.supply = session.supplied initial.supply →
      Supplies initial start (steps ++ [step]) drawn left := by
    intro other unchanged
    refine ⟨supplies.nodup, fun a => ?_, unchanged.trans supplies.supplied⟩
    rw [supplies.mem_iff, readFirst_concat, ← absent_iff]
    refine and_congr_right fun image => (or_iff_left ?_).symm
    rintro ⟨absent, is⟩
    exact other a image absent is
  rw [settings] at goes
  cases goes with
  | writes => exact ⟨drawn, same (by simp) rfl⟩
  | finds present =>
      refine ⟨drawn, same (fun a _ absent is => ?_) rfl⟩
      cases is
      cases absent.symm.trans present
  | loads absent image made next supplied =>
      refine ⟨drawn, same (fun a none_ _ is => ?_) supplied⟩
      cases is
      cases none_.symm.trans image
  | @draws a _ _ absent image made next supplied =>
      have untouched := (absent_iff a).mp absent
      have undrawn : a ∉ drawn := fun member => untouched ((supplies.mem_iff a).mp member).2.mem
      refine ⟨drawn ++ [a], ?_, fun b => ?_, ?_⟩
      · have apart : ∀ b ∈ drawn, ¬ b = a := fun b member same => undrawn (same ▸ member)
        simpa [List.nodup_append, supplies.nodup] using apart
      · rw [List.mem_append, List.mem_singleton, supplies.mem_iff, readFirst_concat]
        by_cases here : b = a
        · simp [here, untouched, show initial.image a = none from image]
        · simp [here, Ne.symm here]
      · rw [List.map_append, after_append, ← supplies.supplied]
        exact supplied

/-- A constant or a variable with a tag below some number. -/
def TaggedBelow (next : Nat) (cell : Expr) : Prop :=
  ∃ n < next, (∃ w, cell = .const (some n) w) ∨ ∃ v, cell = .var (some n) v

theorem TaggedBelow.mono {next later : Nat} (below : TaggedBelow next cell) (le : next ≤ later) :
    TaggedBelow later cell := by
  obtain ⟨n, less, shape⟩ := below
  exact ⟨n, Nat.lt_of_lt_of_le less le, shape⟩

/-- A read that no write at its address preceded returned a node with a tag below some number, which the
    next node gets. -/
def MadeBefore (steps : List Step) (cells : List Expr) (next : Nat) : Prop :=
  ∀ (i : Nat) (a : UInt64) (cell : Expr), steps[i]? = some (.read a) → lastWritten (steps.take i) a = none →
    cells[i]? = some cell → TaggedBelow next cell

/-- Of an address that was touched and never written, some read returned the cell. -/
theorem Recalls.exists_read (recalls : Recalls steps cells s) {a : UInt64} (present : s.cells[a]? = some cell)
    (unwritten : lastWritten steps a = none) :
    ∃ i : Nat, steps[i]? = some (.read a) ∧ cells[i]? = some cell := by
  have touched := (recalls.touched a).mp (Option.isSome_iff_exists.mpr ⟨cell, present⟩)
  obtain ⟨step, member, same⟩ := List.mem_map.mp touched
  obtain ⟨i, there⟩ := List.mem_iff_getElem?.mp member
  cases step with
  | read b =>
      cases same
      exact ⟨i, there, (recalls.kept i _ unwritten there).symm.trans present⟩
  | write b c =>
      have never := lastWritten_eq_none_iff.mp unwritten _ member
      simp [Step.written?, show b = a from same] at never

theorem MadeBefore.concat (made : MadeBefore steps cells session.nextTag) (recalls : Recalls steps cells s)
    (goes : Goes s session step cell after left) :
    MadeBefore (steps ++ [step]) (cells ++ [cell]) left.nextTag := by
  have grows : session.nextTag ≤ left.nextTag := by
    cases goes with
    | writes | finds => exact Nat.le_refl _
    | loads _ _ _ next | draws _ _ _ next => omega
  intro i a c read unwritten there
  rcases getElem?_concat_cases read with earlier | ⟨rfl, rfl⟩
  · have inside := (List.getElem?_eq_some_iff.mp earlier).1
    rw [List.take_append_of_le_length (Nat.le_of_lt inside)] at unwritten
    rw [List.getElem?_append_left (recalls.length_eq ▸ inside)] at there
    exact (made i a c earlier unwritten there).mono grows
  · rw [← recalls.length_eq, List.getElem?_concat_length] at there
    cases there
    rw [List.take_left] at unwritten
    cases goes with
    | finds present =>
        obtain ⟨i, earlier, same⟩ := recalls.exists_read present unwritten
        refine made i a cell earlier (lastWritten_eq_none_iff.mpr fun step member => ?_) same
        exact lastWritten_eq_none_iff.mp unwritten step (List.mem_of_mem_take member)
    | loads _ _ shape next => exact ⟨session.nextTag, by omega, .inl ⟨_, shape⟩⟩
    | draws _ _ shape next => exact ⟨session.nextTag, by omega, .inr ⟨_, shape⟩⟩

/-- What is so after some accesses to a store. -/
structure Trace (initial : Store) (start : Session) (steps : List Step) (cells : List Expr) (drawn : List UInt64)
    (s : Store) (session : Session) : Prop where
  settings_eq : s = { initial with cells := s.cells }
  recalls : Recalls steps cells s
  supplies : Supplies initial start steps drawn session
  made : MadeBefore steps cells session.nextTag

theorem run_concat {first mid last : Store × Session} (begun : run steps first = .ok cells mid)
    (ended : perform step mid = .ok cell last) : run (steps ++ [step]) first = .ok (cells ++ [cell]) last := by
  rw [run, List.mapM_append]
  simp only [bind, EStateM.bind]
  rw [show List.mapM perform steps first = _ from begun]
  simp only [List.mapM_cons, bind, EStateM.bind, ended]
  rfl

/-- A run on an empty store always succeeds, and leaves what its accesses tell. -/
theorem run_trace (empty : ∀ a : UInt64, initial.cells[a]? = none) (start : Session)
    (bytewise : ∀ step ∈ steps, step.Bytewise) :
    ∃ cells drawn s session, run steps (initial, start) = .ok cells (s, session) ∧
      Trace initial start steps cells drawn s session := by
  induction steps using List.reverseRecOn with
  | nil =>
      refine ⟨[], [], initial, start, rfl, rfl, .nil empty, ⟨.nil, ?_, rfl⟩, ?_⟩
      · simp [ReadFirst]
      · simp [MadeBefore]
  | append_singleton steps step ih =>
      obtain ⟨cells, drawn, s, session, begun, trace⟩ := ih fun step member => bytewise step (by simp [member])
      obtain ⟨cell, after, left, ended, goes⟩ := perform_goes s session (bytewise step (by simp))
      obtain ⟨drawn', supplies⟩ := trace.supplies.concat trace.recalls trace.settings_eq goes
      refine ⟨cells ++ [cell], drawn', after, left, run_concat begun ended, ?_, trace.recalls.concat goes, supplies,
        trace.made.concat trace.recalls goes⟩
      rw [goes.settings_eq, trace.settings_eq]

/-- How new the name of a byte is that a run on a store draws next. In the run it is new. Given what the
    supply was asked for before, it was not handed out then either, exactly if it is not taken. -/
structure Draws (initial : Store) (start : Session) (drawn : List UInt64) (number : UInt64) : Prop where
  unused : byteName initial.id number ∉ (start.supplied initial.supply).serve (drawn.map fun _ => .var initial.id)
  unused_iff : ∀ (names : Names) (calls : List Call), start.supplied initial.supply = names.after calls →
    calls.length + drawn.length < UInt64.size →
    (byteName initial.id number ∉ names.serve (calls ++ drawn.map fun _ => .var initial.id) ↔
      ¬ names.Taken calls initial.id number)

/-- What a read returns after some accesses: what was written last, else what the reads before
    returned, else a new constant from the image, else a new variable, with the next name of the
    supply. -/
inductive Answers (initial : Store) (start : Session) (steps : List Step) (cells : List Expr)
    (drawn : List UInt64) (session : Session) (a : UInt64) : Expr → Prop
  | written {cell : Expr} (last : lastWritten steps a = some cell) :
      Answers initial start steps cells drawn session a cell
  | kept {cell : Expr} (unwritten : lastWritten steps a = none) (read : .read a ∈ steps)
      (same : ∀ i : Nat, steps[i]? = some (.read a) → cells[i]? = some cell) :
      Answers initial start steps cells drawn session a cell
  | imaged {b : UInt8} (untouched : a ∉ steps.map Step.address) (image : initial.image a = some b) :
      Answers initial start steps cells drawn session a (.const (some session.nextTag) ⟨b.toUInt64, 8⟩)
  | fresh {number : UInt64} (untouched : a ∉ steps.map Step.address) (image : initial.image a = none)
      (next : number = (start.supplied initial.supply).vars + .ofNat drawn.length)
      (draws : Draws initial start drawn number) :
      Answers initial start steps cells drawn session a (.var (some session.nextTag) ⟨byteName initial.id number, 8⟩)

theorem length_lt_of_notMem (nodup : drawn.Nodup) {a : UInt64} (undrawn : a ∉ drawn) :
    drawn.length < UInt64.size := by
  have distinct : ((a :: drawn).map UInt64.toFin).Nodup :=
    (List.nodup_cons.mpr ⟨undrawn, nodup⟩).map fun _ _ => UInt64.toFin_inj.mp
  have le := distinct.length_le_card
  rw [Fintype.card_fin, List.length_map, List.length_cons] at le
  exact le

theorem Supplies.vars_eq (supplies : Supplies initial start steps drawn session) :
    (session.supplied initial.supply).vars = (start.supplied initial.supply).vars + .ofNat drawn.length := by
  have bytes : (drawn.map fun _ => Call.var initial.id).countP Call.isVar = drawn.length := by
    rw [List.countP_map]
    exact List.countP_eq_length.mpr fun _ _ => rfl
  rw [supplies.supplied, after_eq, bytes]

theorem Supplies.draws (supplies : Supplies initial start steps drawn session) {a : UInt64} (undrawn : a ∉ drawn) :
    Draws initial start drawn (session.supplied initial.supply).vars := by
  have only : ∀ call ∈ drawn.map fun _ => Call.var initial.id, call.isVar = true := by
    simp [Call.isVar]
  have handedOut_iff (names : Names) (calls : List Call) (past : start.supplied initial.supply = names.after calls)
      (few : calls.length + drawn.length < UInt64.size) :
      byteName initial.id (session.supplied initial.supply).vars ∈
          names.serve (calls ++ drawn.map fun _ => .var initial.id) ↔
        names.Taken calls initial.id (session.supplied initial.supply).vars := by
    rw [supplies.supplied, past, ← after_append, nextVar_mem_serve_iff names (by simpa using few),
      taken_append_bytes_iff names calls only]
  refine ⟨fun member => ?_, fun names calls past few => not_congr (handedOut_iff names calls past few)⟩
  have few : ([] : List Call).length + drawn.length < UInt64.size := by
    simpa using length_lt_of_notMem supplies.nodup undrawn
  obtain ⟨i, value, there, _⟩ := (handedOut_iff _ [] rfl few).mp member
  cases there

theorem Trace.answers (trace : Trace initial start steps cells drawn s session) (a : UInt64) :
    ∃ cell after, read a (s, session) = .ok cell after ∧ Answers initial start steps cells drawn session a cell := by
  have recalls := trace.recalls
  cases last : lastWritten steps a with
  | some cell => exact ⟨cell, _, read_present (recalls.written a cell last) session, .written last⟩
  | none =>
      cases present : s.cells[a]? with
      | some cell =>
          obtain ⟨i, there, _⟩ := recalls.exists_read present last
          refine ⟨cell, _, read_present present session, .kept last (List.mem_of_getElem? there) fun j again => ?_⟩
          exact (recalls.kept j a last again).symm.trans present
      | none =>
          have untouched : a ∉ steps.map Step.address := by simp [← recalls.touched, present]
          obtain ⟨cell, after, left, done, goes⟩ := @perform_goes s session (.read a) trivial
          refine ⟨cell, _, done, ?_⟩
          rw [trace.settings_eq] at goes
          cases goes with
          | finds there => cases present.symm.trans there
          | loads _ image made => exact made ▸ .imaged untouched image
          | draws _ image made =>
              have undrawn : a ∉ drawn := fun member => untouched ((trace.supplies.mem_iff a).mp member).2.mem
              exact made ▸ .fresh untouched image trace.supplies.vars_eq (trace.supplies.draws undrawn)

/-- What a store is after some accesses: every read has its answer, an access leaves the other addresses
    alone, every cell is a byte, and the cells are listed by the addresses that were touched, each once and
    in ascending order. -/
structure LazyMap (initial : Store) (start : Session) (steps : List Step) (cells : List Expr)
    (drawn : List UInt64) (s : Store) (session : Session) : Prop where
  supplies : Supplies initial start steps drawn session
  made : MadeBefore steps cells session.nextTag
  answers : ∀ a, ∃ cell after, read a (s, session) = .ok cell after ∧
    Answers initial start steps cells drawn session a cell
  frame : ∀ step, step.Bytewise → ∃ cell after, perform step (s, session) = .ok cell after ∧
    ∀ other, other ≠ step.address → after.1.cells[other]? = s.cells[other]?
  bytes : ∀ entry ∈ s.toList, entry.2.width = 8
  holds : ∀ entry ∈ s.toList, read entry.1 (s, session) = .ok entry.2 (s, session)
  visited : ∀ a, a ∈ s.toList.map Prod.fst ↔ a ∈ steps.map Step.address
  ascending : (s.toList.map Prod.fst).Pairwise (· < ·)
  size_eq : s.size = (steps.map Step.address).toFinset.card

theorem mem_toList {a : UInt64} : (a, cell) ∈ s.toList ↔ s.cells[a]? = some cell :=
  Std.TreeMap.mem_toList_iff_getElem?_eq_some

theorem toList_ascending (s : Store) : (s.toList.map Prod.fst).Pairwise (· < ·) := by
  rw [toList, Std.TreeMap.map_fst_toList_eq_keys]
  exact Std.TreeMap.ordered_keys.imp Std.compare_eq_lt.mp

theorem mem_map_fst_toList (s : Store) (a : UInt64) : a ∈ s.toList.map Prod.fst ↔ s.cells[a]?.isSome := by
  rw [toList, Std.TreeMap.map_fst_toList_eq_keys, Std.TreeMap.mem_keys, Std.TreeMap.mem_iff_isSome_getElem?]

/-- There is a cell for each address that was touched. -/
theorem size_eq_card {touched : List UInt64} (touched_iff : ∀ a : UInt64, s.cells[a]?.isSome ↔ a ∈ touched) :
    s.size = touched.toFinset.card := by
  have distinct : (s.toList.map Prod.fst).Nodup := s.toList_ascending.imp UInt64.ne_of_lt
  have same : touched.toFinset = (s.toList.map Prod.fst).toFinset := by
    ext a
    rw [List.mem_toFinset, List.mem_toFinset, mem_map_fst_toList, touched_iff]
  rw [same, List.toFinset_card_of_nodup distinct, List.length_map]
  exact Std.TreeMap.length_toList.symm

theorem Trace.lazyMap (trace : Trace initial start steps cells drawn s session) :
    LazyMap initial start steps cells drawn s session where
  supplies := trace.supplies
  made := trace.made
  answers := trace.answers
  frame step bytewise := by
    obtain ⟨cell, after, left, done, goes⟩ := perform_goes s session bytewise
    exact ⟨cell, _, done, fun other apart => goes.lookup_other apart.symm⟩
  bytes entry member := trace.recalls.bytes entry.1 entry.2 (mem_toList.mp member)
  holds entry member := read_present (mem_toList.mp member) session
  visited a := by rw [mem_map_fst_toList, trace.recalls.touched]
  ascending := s.toList_ascending
  size_eq := size_eq_card trace.recalls.touched

end Runs

/-- Whatever is read and written, with any image, a new store is a map of bytes that comes into being as
    it is used. The run succeeds, and the next access finds a map as its accesses tell. A fresh byte has
    a name that is new in the run, and that was not handed out before the run either unless a loaded
    value took it. -/
theorem run_is_lazy_map (id : String) (image : Image) (supply : Supply) (start : Session) {steps : List Step}
    (bytewise : ∀ step ∈ steps, step.Bytewise) :
    ∃ cells drawn s session,
      run steps ({ id := id, image := image, supply := supply }, start) = .ok cells (s, session) ∧
      cells.length = steps.length ∧
      LazyMap { id := id, image := image, supply := supply } start steps cells drawn s session := by
  have empty : ∀ a : UInt64, (∅ : Std.TreeMap UInt64 Expr)[a]? = none := fun _ => Std.TreeMap.getElem?_emptyc
  obtain ⟨cells, drawn, s, session, done, trace⟩ :=
    @run_trace { id := id, image := image, supply := supply } steps empty start bytewise
  exact ⟨cells, drawn, s, session, done, trace.recalls.length_eq, trace.lazyMap⟩

/-- One byte is read, overwritten and read again; one comes from the image, and one has the next name. -/
theorem run_is_lazy_map_overwritten :
    let initial : Store := { id := "mem", image := .ofList [(2, 7)] }
    let steps := [Step.read 5, .write 5 (.ofByte 1), .read 5, .read 2, .read 9]
    ∃ cells drawn s session, run steps (initial, {}) = .ok cells (s, session) ∧
      cells = [.var (some 0) ⟨"mem_0", 8⟩, .ofByte 1, .ofByte 1, .const (some 1) ⟨7, 8⟩, .var (some 2) ⟨"mem_1", 8⟩] ∧
      LazyMap initial {} steps cells drawn s session := by
  intro initial steps
  have bytewise : ∀ step ∈ steps, step.Bytewise := by simp [steps, Step.Bytewise, Expr.ofByte, Expr.width]
  obtain ⟨cells, drawn, s, session, done, _, map⟩ := run_is_lazy_map "mem" (.ofList [(2, 7)]) .own {} bytewise
  have returned : returned? (run steps (initial, {})) =
      some [.var (some 0) ⟨"mem_0", 8⟩, .ofByte 1, .ofByte 1, .const (some 1) ⟨7, 8⟩, .var (some 2) ⟨"mem_1", 8⟩] := by
    rfl
  rw [show run steps (initial, {}) = _ from done] at returned
  exact ⟨cells, drawn, s, session, done, Option.some.inj returned, map⟩

/-- A name that a loaded value took is handed out again for a byte. -/
theorem not_read_names_anew :
    ¬ ∀ (calls : List Call) (id : String) (image : Image) (supply : Supply) (start : Session) (a : UInt64),
      start.supplied supply = ({} : Names).after calls → image a = none →
      ∃ tag name left, read a ({ id := id, image := image, supply := supply }, start) = .ok (.var tag ⟨name, 8⟩) left ∧
        name ∉ ({} : Names).serve calls := by
  intro every
  obtain ⟨tag, name, left, done, new⟩ :=
    every [.addr "mem"] "mem_addr" .empty .own { names := { addrs := 1 } } 0 rfl rfl
  have again : returned? (read 0 ({ id := "mem_addr" }, { names := { addrs := 1 } })) =
      some (.var (some 0) ⟨"mem_addr_0", 8⟩) := by rfl
  rw [show read 0 ({ id := "mem_addr" }, { names := { addrs := 1 } }) = _ from done] at again
  cases again
  exact new (by decide)

end Store

end SymbolicMemory
