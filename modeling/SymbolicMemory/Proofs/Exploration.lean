import Mathlib
import SymbolicMemory.Proofs.Replay
import SymbolicMemory.Workbench

/-! # Trees of paths

An exploration begins with one path over a new memory and goes on move by move: a path takes on
a constraint, stores, loads, or is forked. Moves may fail. On the workbench every path has a
memory of its own, so a move on one path leaves all others alone. Along every exploration each
path keeps a history that can be replayed on a plain memory, whatever the solver answers.
-/

namespace SymbolicMemory

/-- A move on the path of a number. -/
inductive Move where
  | assume (number : Nat) (e : Expr)
  | store (number : Nat) (address value : Expr)
  | load (number : Nat) (address : Expr) (width : UInt64)
  | fork (number : Nat) (constraint : Option Expr)

namespace Move

/-- The addresses and values of accesses are well-formed. -/
def WellFormed : Move → Prop
  | assume .. => True
  | store _ address value => address.WellFormed ∧ value.WellFormed
  | load _ address _ => address.WellFormed
  | fork .. => True

instance decidableWellFormed : (move : Move) → Decidable move.WellFormed
  | assume .. => .isTrue True.intro
  | store _ address value => inferInstanceAs (Decidable (address.WellFormed ∧ value.WellFormed))
  | load _ address _ => inferInstanceAs (Decidable address.WellFormed)
  | fork .. => .isTrue True.intro

end Move

/-- The cell at an address of the memory of a path. -/
def Workbench.cell? (b : Workbench) (number : Nat) (address : UInt64) : Option Expr :=
  match path number b with
  | .ok p _ => p.memory.cell? address
  | .error _ _ => none

/-- A workbench together with the histories of its paths. -/
structure Exploration where
  bench : Workbench
  histories : Array History

namespace Exploration

/-- One path over a memory, and nothing else. -/
def start (solver : Option Solver) (m : Memory) (session : Session) : Exploration :=
  let begin : Bench Nat := do
    let number ← Workbench.addMemory m
    Workbench.newPath solver (← Workbench.placeOf number)
  match begin { session := session } with
  | .ok _ b => ⟨b, #[{}]⟩
  | .error _ b => ⟨b, #[]⟩

/-- Works on a path. Its history is changed according to what was returned, if anything, and to
    the cells before and after. -/
def work {α : Type} (x : Exploration) (number : Nat) (operation : On Path α)
    (change : Option α → (before after : UInt64 → Option Expr) → History → History) : Exploration :=
  let (returned, b) := match Workbench.onPath number operation x.bench with
    | .ok a b => (some a, b)
    | .error _ b => (none, b)
  ⟨b, x.histories.modify number (change returned (x.bench.cell? number) (b.cell? number))⟩

/-- Makes a move, which may fail. -/
def step (x : Exploration) : Move → Exploration
  | .assume number e => x.work number (Path.assume e) fun _ _ _ h => h
  | .store number address value =>
    x.work number (Path.store address value) fun
      | some _, _, _, h => h.add (.stored address value)
      | none, _, _, h => h
  | .load number address width =>
    x.work number (Path.load address width) fun
      | some result, before, after, h => (h.keep before after).add (.loaded address width result)
      | none, before, after, h => h.keep before after
  | .fork number constraint =>
    match Workbench.fork number constraint x.bench with
    | .ok _ b => ⟨b, x.histories.push (x.histories.getD number {})⟩
    | .error _ b => ⟨b, x.histories⟩

/-- Makes one move after the other. -/
def run (x : Exploration) (moves : List Move) : Exploration := moves.foldl step x

/-- Every path has a memory of its own and a history that accounts for it. -/
structure Tracks (l : Layout) (x : Exploration) : Prop where
  recorded : x.histories.size = x.bench.paths.size
  apart : ∀ (i j : Nat) p q place, x.bench.paths[i]? = some (p, place) →
    x.bench.paths[j]? = some (q, place) → i = j
  accounts : ∀ (i : Nat) p place, x.bench.paths[i]? = some (p, place) → ∃ m h,
    x.bench.memories[place]? = some m ∧ x.histories[i]? = some h ∧
      h.Accounts l { p with memory := m }

end Exploration

namespace Workbench

variable {b : Workbench} {number place : Nat} {p : Path} {m : Memory}

theorem lookup_some {α : Type} {things : Array α} {thing : α}
    (there : things[number]? = some thing) : lookup things number b = .ok thing b := by
  rw [lookup, there]
  rfl

theorem bind_ok_eq {α β : Type} {x : Bench α} {a : α} {after : Workbench} (rest : α → Bench β)
    (done : x b = .ok a after) : (x >>= rest) b = rest a after := by
  simp only [bind, EStateM.bind, done]

theorem path_eq (there : b.paths[number]? = some (p, place)) (held : b.memories[place]? = some m) :
    path number b = .ok { p with memory := m } b :=
  (bind_ok_eq _ (lookup_some there)).trans (bind_ok_eq _ (lookup_some held))

theorem path_absent (absent : b.paths[number]? = none) :
    path number b = .error (.fault (.noSuchNumber number)) b := by
  simp only [path, lookup, bind, EStateM.bind, get, getThe, MonadStateOf.get, EStateM.get, absent]
  rfl

theorem cell?_eq (there : b.paths[number]? = some (p, place))
    (held : b.memories[place]? = some m) : b.cell? number = m.cell? := by
  funext address
  rw [cell?, path_eq there held]

/-- The cells of a path that was put back are those of its memory. -/
theorem cell?_putPath (there : b.paths[number]? = some (p, place))
    (held : b.memories[place]? = some m) (new : Path) (session : Session) :
    (b.putPath number place new session).cell? number = new.memory.cell? := by
  obtain ⟨inPaths, _⟩ := Array.getElem?_eq_some_iff.mp there
  obtain ⟨inMemories, _⟩ := Array.getElem?_eq_some_iff.mp held
  exact cell?_eq (Array.getElem?_setIfInBounds_self_of_lt inPaths)
    (Array.getElem?_setIfInBounds_self_of_lt inMemories)

theorem onPath_eq {α : Type} (there : b.paths[number]? = some (p, place))
    (held : b.memories[place]? = some m) (operation : On Path α) :
    onPath number operation b = match operation ({ p with memory := m }, b.session) with
      | .ok a (new, session) => .ok a (b.putPath number place new session)
      | .error e (new, session) => .error e (b.putPath number place new session) :=
  (bind_ok_eq _ (lookup_some there)).trans (bind_ok_eq _ (path_eq there held))

theorem onPath_absent {α : Type} (absent : b.paths[number]? = none) (operation : On Path α) :
    onPath number operation b = .error (.fault (.noSuchNumber number)) b := by
  simp only [onPath, lookup, bind, EStateM.bind, get, getThe, MonadStateOf.get, EStateM.get, absent]
  rfl

end Workbench

namespace Exploration

variable {l : Layout} {x : Exploration}

/-- A move on one path leaves the others alone. -/
theorem Tracks.put (tracks : x.Tracks l) {number place : Nat} {p new : Path}
    (there : x.bench.paths[number]? = some (p, place)) {change : History → History}
    (changed : ∀ h, x.histories[number]? = some h → (change h).Accounts l new)
    (session : Session) :
    Tracks l ⟨x.bench.putPath number place new session, x.histories.modify number change⟩ := by
  obtain ⟨m, h, held, recorded, _⟩ := tracks.accounts number p place there
  obtain ⟨inPaths, _⟩ := Array.getElem?_eq_some_iff.mp there
  obtain ⟨inMemories, _⟩ := Array.getElem?_eq_some_iff.mp held
  have entry : ∀ (i : Nat) q spot,
      (x.bench.putPath number place new session).paths[i]? = some (q, spot) →
      (i = number ∧ q = new ∧ spot = place) ∨
        (i ≠ number ∧ x.bench.paths[i]? = some (q, spot)) := by
    intro i q spot found
    by_cases same : i = number
    · subst same
      rw [Workbench.putPath, Array.getElem?_setIfInBounds_self_of_lt inPaths] at found
      cases found
      exact .inl ⟨rfl, rfl, rfl⟩
    · rw [Workbench.putPath, Array.getElem?_setIfInBounds_ne (Ne.symm same)] at found
      exact .inr ⟨same, found⟩
  have before : ∀ (i : Nat) q spot,
      (x.bench.putPath number place new session).paths[i]? = some (q, spot) →
      ∃ old, x.bench.paths[i]? = some (old, spot) := by
    intro i q spot found
    obtain ⟨rfl, rfl, rfl⟩ | ⟨_, found⟩ := entry i q spot found
    · exact ⟨p, there⟩
    · exact ⟨q, found⟩
  refine ⟨?_, ?_, ?_⟩
  · simpa [Workbench.putPath] using tracks.recorded
  · intro i j q r spot first second
    obtain ⟨_, first⟩ := before i q spot first
    obtain ⟨_, second⟩ := before j r spot second
    exact tracks.apart i j _ _ spot first second
  · intro i q spot found
    obtain ⟨rfl, rfl, rfl⟩ | ⟨other, found⟩ := entry i q spot found
    · refine ⟨q.memory, change h, ?_, ?_, changed h recorded⟩
      · rw [Workbench.putPath, Array.getElem?_setIfInBounds_self_of_lt inMemories]
      · rw [Array.getElem?_modify, if_pos rfl, recorded]
        rfl
    · obtain ⟨m, h, held, recorded, accounts⟩ := tracks.accounts i q spot found
      have elsewhere : place ≠ spot := by
        rintro rfl
        exact other (tracks.apart i number q p place found there)
      refine ⟨m, h, ?_, ?_, accounts⟩
      · rw [Workbench.putPath, Array.getElem?_setIfInBounds_ne elsewhere]
        exact held
      · rw [Array.getElem?_modify, if_neg (Ne.symm other)]
        exact recorded

/-- A path with a memory of its own joins the others. -/
theorem Tracks.push (tracks : x.Tracks l) {p : Path} {h : History} (accounts : h.Accounts l p) :
    Tracks l ⟨{ x.bench with
        memories := x.bench.memories.push p.memory
        paths := x.bench.paths.push (p, x.bench.memories.size) }, x.histories.push h⟩ := by
  have entry : ∀ (i : Nat) q spot,
      (x.bench.paths.push (p, x.bench.memories.size))[i]? = some (q, spot) →
      (i = x.bench.paths.size ∧ q = p ∧ spot = x.bench.memories.size) ∨
        (x.bench.paths[i]? = some (q, spot) ∧ spot < x.bench.memories.size) := by
    intro i q spot found
    rw [Array.getElem?_push] at found
    split at found
    · next last =>
      cases found
      exact .inl ⟨last, rfl, rfl⟩
    · obtain ⟨m, _, held, _⟩ := tracks.accounts i q spot found
      exact .inr ⟨found, (Array.getElem?_eq_some_iff.mp held).1⟩
  refine ⟨?_, ?_, ?_⟩
  · simpa using tracks.recorded
  · intro i j q r spot first second
    obtain ⟨rfl, _, rfl⟩ | ⟨first, below⟩ := entry i q spot first
    · obtain ⟨rfl, _, _⟩ | ⟨_, below⟩ := entry j r _ second
      · rfl
      · exact absurd below (Nat.lt_irrefl _)
    · obtain ⟨_, _, rfl⟩ | ⟨second, _⟩ := entry j r spot second
      · exact absurd below (Nat.lt_irrefl _)
      · exact tracks.apart i j q r spot first second
  · intro i q spot found
    obtain ⟨rfl, rfl, rfl⟩ | ⟨found, below⟩ := entry i q spot found
    · refine ⟨q.memory, h, Array.getElem?_push_size, ?_, accounts⟩
      rw [← tracks.recorded]
      exact Array.getElem?_push_size
    · obtain ⟨m, h, held, recorded, accounts⟩ := tracks.accounts i q spot found
      refine ⟨m, h, ?_, ?_, accounts⟩
      · rw [Array.getElem?_push, if_neg (Nat.ne_of_lt below)]
        exact held
      · have inHistories := (Array.getElem?_eq_some_iff.mp recorded).1
        rw [Array.getElem?_push, if_neg (Nat.ne_of_lt inHistories)]
        exact recorded

/-- Work on a path keeps the histories if it keeps the history of any path. -/
theorem Tracks.work (tracks : x.Tracks l) {α : Type} (number : Nat) {operation : On Path α}
    {change : Option α → (before after : UInt64 → Option Expr) → History → History}
    (keeps : ∀ {h p}, h.Accounts l p → On.Ensures operation p
      (fun a new => (change (some a) p.memory.cell? new.memory.cell? h).Accounts l new)
      (fun new => (change none p.memory.cell? new.memory.cell? h).Accounts l new)) :
    Tracks l (x.work number operation change) := by
  cases there : x.bench.paths[number]? with
  | none =>
      rw [Exploration.work, Workbench.onPath_absent there]
      refine ⟨by simpa using tracks.recorded, tracks.apart, fun i p place found => ?_⟩
      obtain ⟨m, h, held, recorded, accounts⟩ := tracks.accounts i p place found
      refine ⟨m, h, held, ?_, accounts⟩
      rw [Array.getElem?_modify, if_neg ?_]
      · exact recorded
      · rintro rfl
        rw [there] at found
        cases found
  | some entry =>
      obtain ⟨p, place⟩ := entry
      obtain ⟨m, h, held, recorded, accounts⟩ := tracks.accounts number p place there
      have outcome := keeps accounts x.bench.session
      have before := Workbench.cell?_eq there held
      have after := Workbench.cell?_putPath there held
      have only : ∀ h', x.histories[number]? = some h' → h' = h := fun h' found =>
        Option.some.inj (found.symm.trans recorded)
      rw [Exploration.work, Workbench.onPath_eq there held]
      cases result : operation ({ p with memory := m }, x.bench.session) with
      | ok a left =>
          rw [result] at outcome
          simp only [before, after]
          exact tracks.put there (fun h' found => only h' found ▸ outcome) left.2
      | error e left =>
          rw [result] at outcome
          simp only [before, after]
          exact tracks.put there (fun h' found => only h' found ▸ outcome) left.2

/-- A fork starts with the history of the path that it comes from. -/
theorem Tracks.fork (tracks : x.Tracks l) (number : Nat) (constraint : Option Expr) :
    Tracks l (x.step (.fork number constraint)) := by
  cases there : x.bench.paths[number]? with
  | none =>
      have failed := Workbench.onPath_absent there (Path.fork constraint)
      simp only [Exploration.step, Workbench.fork, bind, EStateM.bind, failed]
      exact tracks
  | some entry =>
      obtain ⟨p, place⟩ := entry
      obtain ⟨m, h, held, recorded, accounts⟩ := tracks.accounts number p place there
      have outcome := Path.fork_accounts accounts constraint x.bench.session
      have done := Workbench.onPath_eq there held (Path.fork constraint)
      have same : x.histories.modify number id = x.histories :=
        Array.ext_getElem? fun i => by simp [Array.getElem?_modify]
      have parent : ∀ {new session}, h.Accounts l new →
          Tracks l ⟨x.bench.putPath number place new session, x.histories⟩ := by
        intro new session accounts
        rw [← same]
        refine tracks.put there (fun h' found => ?_) session
        cases found.symm.trans recorded
        exact accounts
      cases result : Path.fork constraint ({ p with memory := m }, x.bench.session) with
      | ok child left =>
          rw [result] at outcome done
          have inherited : x.histories.getD number {} = h := by
            rw [Array.getD_eq_getD_getElem?, recorded, Option.getD_some]
          simp only [Exploration.step, Workbench.fork, bind, EStateM.bind, done, inherited]
          exact (parent outcome.2).push outcome.1
      | error e left =>
          rw [result] at outcome done
          simp only [Exploration.step, Workbench.fork, bind, EStateM.bind, done]
          exact parent outcome

theorem Tracks.step (tracks : x.Tracks l) {move : Move} (wf : move.WellFormed) :
    Tracks l (x.step move) := by
  cases move with
  | assume number e =>
      rw [Exploration.step]
      refine tracks.work number ?_
      intro h p accounts
      exact Path.assume_accounts accounts e
  | store number address value =>
      rw [Exploration.step]
      refine tracks.work number ?_
      intro h p accounts
      exact Path.store_accounts accounts wf.1 wf.2
  | load number address width =>
      rw [Exploration.step]
      refine tracks.work number ?_
      intro h p accounts
      exact Path.load_accounts accounts wf width
  | fork number constraint => exact tracks.fork number constraint

theorem Tracks.run (tracks : x.Tracks l) {moves : List Move}
    (wf : ∀ move ∈ moves, move.WellFormed) : Tracks l (x.run moves) := by
  induction moves generalizing x with
  | nil => exact tracks
  | cons move rest ih =>
      obtain ⟨here, later⟩ := List.forall_mem_cons.mp wf
      exact ih (tracks.step here) later

theorem Tracks.path (tracks : x.Tracks l) {number : Nat} {p : Path}
    {left : Workbench} (found : Workbench.path number x.bench = .ok p left) :
    ∃ h, x.histories[number]? = some h ∧ h.Accounts l p := by
  cases there : x.bench.paths[number]? with
  | none =>
      rw [Workbench.path_absent there] at found
      cases found
  | some entry =>
      obtain ⟨q, place⟩ := entry
      obtain ⟨m, h, held, recorded, accounts⟩ := tracks.accounts number q place there
      rw [Workbench.path_eq there held] at found
      cases found
      exact ⟨h, recorded, accounts⟩

/-- The first path over a memory without cells has an empty history. -/
theorem start_tracks {m : Memory} (fits : m.Fits l) (empty : ∀ address, m.cell? address = none)
    (solver : Option Solver) (session : Session) : Tracks l (start solver m session) := by
  let bench : Workbench := {
    session := { session with paths := session.paths + 1 }
    numbered := #[0] }
  have nothing : Tracks l ⟨bench, #[]⟩ :=
    ⟨rfl, fun i j p q place found => by simp [bench] at found,
      fun i p place found => by simp [bench] at found⟩
  have root : History.Accounts {} l { id := session.paths + 1, solver := solver, memory := m } := by
    refine ⟨fits, nofun, fun ρ _ anything => ⟨_, rfl, fun address cell present => ?_, ?_⟩⟩
    · rw [empty] at present
      cases present
    · exact fun _ _ _ => rfl
  exact nothing.push root

end Exploration

/-- The layout of a memory made from options. -/
def MemoryOptions.layout (options : MemoryOptions) (valid : options.bits ≤ 64) : Layout where
  bits := if options.bits = 0 then Memory.defaultBits else options.bits
  littleEndian := options.littleEndian
  image := options.image
  bits_pos := by
    split
    · decide
    · next given => exact UInt64.pos_iff_ne_zero.mpr given
  bits_le := by
    split
    · decide
    · exact valid

/-- A new memory has no cells. -/
theorem Memory.new_fits {options : MemoryOptions} (valid : options.bits ≤ 64) :
    ∃ m, Memory.new options = .ok m ∧ m.Fits (options.layout valid) ∧
      ∀ address, m.cell? address = none := by
  have vacant : ∀ address, (∅ : Std.TreeMap UInt64 Expr).get? address = none := fun address =>
    Std.TreeMap.getElem?_emptyc
  refine ⟨_, if_neg ?_, ⟨rfl, rfl, rfl, fun address cell present => ?_⟩, vacant⟩
  · exact UInt64.not_lt.mpr (options.layout valid).bits_le
  · cases (vacant address).symm.trans present

/-- Whether a path is there and passes a test, with its history. -/
def Exploration.shows (x : Exploration) (number : Nat) (test : Path → History → Bool) : Bool :=
  match Workbench.path number x.bench, x.histories[number]? with
  | .ok p _, some h => test p h
  | _, _ => false

theorem Exploration.shows_iff {x : Exploration} {number : Nat} {test : Path → History → Bool} :
    x.shows number test = true ↔ ∃ p left h, Workbench.path number x.bench = .ok p left ∧
      x.histories[number]? = some h ∧ test p h = true := by
  unfold shows
  constructor
  · intro shown
    split at shown
    · next p left h found recorded => exact ⟨p, left, h, found, recorded, shown⟩
    · cases shown
  · rintro ⟨p, left, h, found, recorded, shown⟩
    rw [found, recorded]
    exact shown

/-- Symbolic execution is sound for plain bytes, whatever the solver answers. Take any tree of paths
    over a new memory, and any path of it under a valuation that meets all its constraints. The
    accesses that succeeded from the root on can be replayed on a plain memory, which starts with
    the image, the values of the variables for bytes that were read first, and anything elsewhere.
    Every load returned what the plain memory holds at that point, and at the end every cell of the
    path evaluates to the byte of the plain memory. -/
theorem Exploration.run_replays_on_bytes (options : MemoryOptions) (valid : options.bits ≤ 64) :
    ∃ m, Memory.new options = .ok m ∧
      ∀ (solver : Option Solver) (session : Session) (moves : List Move) (x : Exploration),
        (∀ move ∈ moves, move.WellFormed) → x = (start solver m session).run moves →
        ∀ number p left, Workbench.path number x.bench = .ok p left →
          ∃ h, x.histories[number]? = some h ∧
            ∀ ρ, p.Satisfied ρ → ∀ anything, ∃ final,
              h.replay (options.layout valid) ρ anything = some final ∧
              ∀ address cell, p.memory.cell? address = some cell →
                cell.eval (.total ρ) =
                  .ok (.ofNat (final ((options.layout valid).place address)).toNat 8) := by
  obtain ⟨m, made, fits, empty⟩ := Memory.new_fits valid
  refine ⟨m, made, ?_⟩
  rintro solver session moves x wf rfl number p left found
  have tracks := (start_tracks fits empty solver session).run wf
  obtain ⟨h, recorded, accounts⟩ := tracks.path found
  refine ⟨h, recorded, fun ρ satisfied anything => ?_⟩
  obtain ⟨final, replayed, mirrors⟩ := accounts.replays ρ satisfied anything
  refine ⟨final, replayed, fun address cell present => ?_⟩
  obtain ⟨_, wf, byte⟩ := accounts.fits.cells address cell present
  rw [Expr.eval_eq wf (Assignment.total_binds ρ cell), Assignment.valuation_total, Expr.value, byte,
    mirrors.shown address cell present]

/-- A store through a symbolic address, a load that runs over the end of the address space, a
    fork, and a store on the fork; the solver says that every variable is one. -/
theorem Exploration.run_replays_on_bytes_forked :
    let a : Expr := .var none ⟨"a", 4⟩
    let x : Expr := .var none ⟨"x", 8⟩
    let moves : List Move := [.store 0 a x, .load 0 (.const none ⟨1, 1⟩) 16,
      .fork 0 (some (.binary none .eq x (.const none ⟨5, 8⟩))), .store 1 (.const none ⟨0, 1⟩) x]
    let solver : Solver := { solve := fun _ _ vars => .ok (some (vars.map fun _ => 1)) }
    let l : Layout := MemoryOptions.layout { bits := 1 } (by decide)
    let ρ : Valuation := fun name => if name = "a" then 3 else if name = "x" then 5 else 8
    ∃ m explored p left h, Memory.new { bits := 1 } = .ok m ∧
      explored = (start (some solver) m {}).run moves ∧
      Workbench.path 1 explored.bench = .ok p left ∧ explored.histories[1]? = some h ∧
      h.operations.length = 3 ∧ p.constraints.length = 2 ∧ p.Satisfied ρ ∧
      ∀ anything : l.Bytes, ∃ final : l.Bytes, h.replay l ρ anything = some final ∧
        ∀ address cell, p.memory.cell? address = some cell →
          cell.eval (.total ρ) = .ok (.ofNat (final (l.place address)).toNat 8) := by
  intro a x moves solver l ρ
  obtain ⟨m, made, all⟩ := run_replays_on_bytes { bits := 1 } (by decide)
  have wf : ∀ move ∈ moves, move.WellFormed := by decide
  have right := all (some solver) {} moves _ wf rfl 1
  have met : ((start (some solver) m {}).run moves).shows 1 (fun p h =>
      h.operations.length = 3 ∧ p.constraints.length = 2 ∧ p.Satisfied ρ) = true := by
    cases made
    cbv
  obtain ⟨p, left, h, found, recorded, shown⟩ := shows_iff.mp met
  obtain ⟨operations, constraints, satisfied⟩ := of_decide_eq_true shown
  obtain ⟨_, recorded', replays⟩ := right p left found
  cases recorded.symm.trans recorded'
  exact ⟨m, _, p, left, h, made, rfl, found, recorded, operations, constraints, satisfied,
    replays ρ satisfied⟩

end SymbolicMemory
