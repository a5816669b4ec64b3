import SymbolicMemory.Path

/-! # Workbenches

A workbench holds memories, paths and stores by number within one session. Several
paths may work on one memory, and each sees what the others do to it; forking a
path gives the new one a memory of its own.
-/

namespace SymbolicMemory

/-- Everything a session works with. -/
structure Workbench where
  session : Session := {}
  /-- Every memory, by place. -/
  memories : Array Memory := #[]
  /-- The places of the memories that have a number. -/
  numbered : Array Nat := #[]
  /-- Every path, with the place of its memory. -/
  paths : Array (Path × Nat) := #[]
  stores : Array Store := #[]

/-- A computation on a workbench. -/
abbrev Bench (α : Type) := EStateM Failure Workbench α

namespace Workbench

/-- Looks something up by its number. -/
def lookup {α : Type} (things : Array α) (number : Nat) : Bench α :=
  match things[number]? with
  | some thing => return thing
  | none => throw (.fault (.noSuchNumber number))

/-- A computation within the session. -/
def run {α : Type} (x : Run α) : Bench α := fun b =>
  match x b.session with
  | .ok a session => .ok a { b with session := session }
  | .error e session => .error e { b with session := session }

/-- The place of a numbered memory. -/
def placeOf (number : Nat) : Bench Nat := do lookup (← get).numbered number

/-- A computation on the memory at a place. -/
def onMemory {α : Type} (place : Nat) (x : On Memory α) : Bench α := do
  let m ← lookup (← get).memories place
  fun b =>
    match x (m, b.session) with
    | .ok a (m, session) =>
      .ok a { b with session := session, memories := b.memories.setIfInBounds place m }
    | .error e (m, session) =>
      .error e { b with session := session, memories := b.memories.setIfInBounds place m }

/-- A computation on a store. -/
def onStore {α : Type} (number : Nat) (x : On Store α) : Bench α := do
  let s ← lookup (← get).stores number
  fun b =>
    match x (s, b.session) with
    | .ok a (s, session) =>
      .ok a { b with session := session, stores := b.stores.setIfInBounds number s }
    | .error e (s, session) =>
      .error e { b with session := session, stores := b.stores.setIfInBounds number s }

/-- A path as it stands, with its memory as it stands. -/
def path (number : Nat) : Bench Path := do
  let (p, place) ← lookup (← get).paths number
  let m ← lookup (← get).memories place
  return { p with memory := m }

/-- Puts a path and its memory back. -/
def putPath (b : Workbench) (number place : Nat) (p : Path) (session : Session) : Workbench :=
  { b with
    session := session
    memories := b.memories.setIfInBounds place p.memory
    paths := b.paths.setIfInBounds number (p, place) }

/-- A computation on a path and its memory. -/
def onPath {α : Type} (number : Nat) (x : On Path α) : Bench α := do
  let (_, place) ← lookup (← get).paths number
  let p ← path number
  fun b =>
    match x (p, b.session) with
    | .ok a (p, session) => .ok a (b.putPath number place p session)
    | .error e (p, session) => .error e (b.putPath number place p session)

/-- Puts a memory on the workbench. Returns its place. -/
def placeMemory (m : Memory) : Bench Nat :=
  modifyGet fun b => (b.memories.size, { b with memories := b.memories.push m })

/-- Puts a memory on the workbench. Returns its number. -/
def addMemory (m : Memory) : Bench Nat := do
  let place ← placeMemory m
  modifyGet fun b => (b.numbered.size, { b with numbered := b.numbered.push place })

/-- Puts a store on the workbench. Returns its number. -/
def addStore (s : Store) : Bench Nat :=
  modifyGet fun b => (b.stores.size, { b with stores := b.stores.push s })

/-- Puts a path over the memory at a place on the workbench. Returns its number. -/
def addPath (p : Path) (place : Nat) : Bench Nat :=
  modifyGet fun b => (b.paths.size, { b with paths := b.paths.push (p, place) })

/-- Begins a path over the memory at a place. Returns its number. -/
def newPath (solver : Option Solver) (place : Nat) : Bench Nat := do
  let m ← lookup (← get).memories place
  addPath (← run (Path.new solver m)) place

/-- Forks a path. Returns the number of the new one, whose memory is its own. -/
def fork (number : Nat) (constraint : Option Expr) : Bench Nat := do
  let child ← onPath number (Path.fork constraint)
  addPath child (← placeMemory child.memory)

/-- Gives every path that has a solver a new one. -/
def replaceSolver (solver : Solver) : Bench Unit :=
  modify fun b =>
    { b with paths := b.paths.map fun (p, place) => ({ p with solver := p.solver.map fun _ => solver }, place) }

end Workbench

end SymbolicMemory
