import SymbolicMemory.Expr.Stamp
import SymbolicMemory.Names
import SymbolicMemory.Solver.Basic
import SymbolicMemory.Strategy

/-! # Sessions

The memories, paths and queries of one run share a session: the numbers for new
nodes, the supplies of names, the count of solver calls, and a record of what
happened. An operation keeps what it changed in the session even if it fails.
-/

namespace SymbolicMemory

/-- How an address was resolved. -/
inductive Resolution where
  /-- It had one value only. -/
  | unique
  /-- A strategy chose. -/
  | strategy (s : Strategy)
  deriving DecidableEq, Repr

/-- The word for a resolution. -/
def Resolution.name : Resolution → String
  | unique => "unique"
  | strategy s => s.name

/-- What is written to the log. -/
inductive Event where
  /-- A memory that holds `bytes` cells was branched. -/
  | branching (id : String) (bytes : Nat)
  /-- An address was narrowed down to `count` concrete ones. -/
  | concretized (resolution : Resolution) (count : Nat)
  /-- The values of an address lie too far apart to list them. -/
  | rangeTooWide (min max : UInt64) (limit : Int)
  /-- A value was loaded from several addresses at once. -/
  | loadedFromMany (id var : String) (candidates : Nat)
  /-- A configuration was read. -/
  | configLoaded (path id : String) (bits : UInt64)
  /-- An address range is about to be concretized. -/
  | concretizing (lo hi : UInt64) (strategies : List Strategy)
  /-- A branch holds its value. -/
  | branchWritten (branch : Nat) (value : Expr)
  /-- A solver could not be closed. -/
  | closeFailed (problem : String)
  deriving DecidableEq, Repr

namespace Event

/-- Whether an event is shown without asking for details. -/
def isWarning : Event → Bool
  | closeFailed _ => true
  | _ => false

/-- The line of an event: its level, what happened, and the particulars in order of their keys. -/
def text : Event → String
  | branching id bytes => "debug: branching memory bytes=" ++ bytes.repr ++ " id=" ++ id
  | concretized resolution count =>
    "debug: concretized address n=" ++ count.repr ++ " strategy=" ++ resolution.name
  | rangeTooWide min max limit =>
    "debug: symbolic address range exceeds limit limit=" ++ Text.decimalInt limit ++ " max=" ++
      Text.decimal max ++ " min=" ++ Text.decimal min
  | loadedFromMany id var candidates =>
    "debug: load from multiple addresses candidates=" ++ candidates.repr ++ " id=" ++ id ++ " var=" ++ var
  | configLoaded path id bits =>
    "debug: configuration loaded bits=" ++ Text.decimal bits ++ " id=" ++ id ++ " path=" ++ path
  | concretizing lo hi strategies =>
    "debug: concretizing hi=" ++ Text.decimal hi ++ " lo=" ++ Text.decimal lo ++ " strategies=[" ++
      " ".intercalate (strategies.map Strategy.name) ++ "]"
  | branchWritten branch value =>
    "debug: branch written branch=" ++ branch.repr ++ " value=" ++ value.text
  | closeFailed problem => "warning: close solver error=" ++ problem

end Event

/-- What is counted. -/
inductive Counter where
  /-- A byte that was made from the image. -/
  | imageByte
  /-- A byte that was made as a fresh variable. -/
  | freshByte
  /-- A branched store. -/
  | branch
  /-- A resolved address. -/
  | concretization (resolution : Resolution)
  /-- A load that was begun. -/
  | load
  /-- A store that was begun. -/
  | store
  deriving DecidableEq, Repr

/-- The name under which a count is reported. -/
def Counter.name : Counter → String
  | imageByte => "symmem_bytes_materialized_total\x7bsource=image\x7d"
  | freshByte => "symmem_bytes_materialized_total\x7bsource=fresh\x7d"
  | branch => "symmem_branches_total"
  | concretization r => "symmem_concretizations_total\x7bstrategy=" ++ r.name ++ "\x7d"
  | load => "symmem_accesses_total\x7bop=load\x7d"
  | store => "symmem_accesses_total\x7bop=store\x7d"

/-- What the parts of one run share. -/
structure Session where
  /-- The number for the next new node. -/
  nextTag : Nat := 0
  /-- The supply that belongs to the session. -/
  names : Names := {}
  /-- The supply used where none is named. -/
  standardNames : Names := {}
  /-- How many solver calls were made. -/
  calls : Nat := 0
  /-- How many paths were begun. -/
  paths : Nat := 0
  /-- How many solvers were closed. -/
  closed : Nat := 0
  /-- The log, last event first. -/
  log : List Event := []
  /-- One entry for each thing counted. -/
  counted : List Counter := []

/-- What was counted and how often. -/
def Session.counts (s : Session) : List (Counter × Nat) :=
  s.counted.eraseDups.map fun c => (c, s.counted.count c)

/-- A computation within a session. -/
abbrev Run (α : Type) := EStateM Failure Session α

namespace Session

/-- Writes to the log. -/
def record (event : Event) : Run Unit := modify fun s => { s with log := event :: s.log }

/-- Counts one. -/
def count (counter : Counter) : Run Unit := modify fun s => { s with counted := counter :: s.counted }

/-- Passes a fault on. -/
def check {α : Type} : Except Fault α → Run α
  | .ok a => pure a
  | .error fault => throw (.fault fault)

/-- Takes over an expression that has just been built: its new nodes get their tags. -/
def make (built : Except Fault Expr) : Run Expr := do
  let e ← check built
  modifyGet fun s =>
    let (e, next) := e.stamp s.nextTag
    (e, { s with nextTag := next })

/-- A name from a supply. -/
def draw (supply : Supply) (next : Names → String × Names) : Run String :=
  modifyGet fun s =>
    match supply with
    | .own => let (name, names) := next s.names; (name, { s with names := names })
    | .standard => let (name, names) := next s.standardNames; (name, { s with standardNames := names })

/-- Puts a question to a solver. Errors come back in their context. -/
def ask {α : Type} (context : String) (question : (calls : Nat) → Except Failure α) : Run α := do
  let calls ← modifyGet fun s => (s.calls, { s with calls := s.calls + 1 })
  match question calls with
  | .ok a => pure a
  | .error failure => throw (failure.within context)

end Session

/-- A computation on one thing within a session. -/
abbrev On (σ α : Type) := EStateM Failure (σ × Session) α

namespace On

/-- A computation that leaves the thing alone. -/
def run {σ α : Type} (x : Run α) : On σ α := fun (thing, session) =>
  match x session with
  | .ok a session => .ok a (thing, session)
  | .error e session => .error e (thing, session)

/-- A computation on a part of the thing. -/
def part {σ τ α : Type} (part : τ → σ) (replace : σ → τ → τ) (x : On σ α) : On τ α :=
  fun (whole, session) =>
    match x (part whole, session) with
    | .ok a (new, session) => .ok a (replace new whole, session)
    | .error e (new, session) => .error e (replace new whole, session)

/-- The thing itself. -/
def thing {σ : Type} : On σ σ := fun (thing, session) => .ok thing (thing, session)

/-- Changes the thing. -/
def change {σ : Type} (f : σ → σ) : On σ Unit := fun (thing, session) => .ok () (f thing, session)

end On

instance {σ : Type} : MonadLift (EStateM Failure Session) (EStateM Failure (σ × Session)) := ⟨On.run⟩

end SymbolicMemory
