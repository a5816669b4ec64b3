import SymbolicMemory.Memory

/-! # Paths

A path is one course of a program under exploration: a memory together with the
constraints that were met on the way. Forking a path branches its memory.
-/

namespace SymbolicMemory

/-- Adds a constraint to a list. One-bit conjunctions are taken apart. -/
def addConstraint (constraints : List Expr) (e : Expr) : List Expr :=
  constraints ++ e.conjuncts

/-- A path under exploration. -/
structure Path where
  id : Nat
  /-- The path that this one was forked from. -/
  parent : Option Nat := none
  /-- The paths that were forked from this one. -/
  children : List Nat := []
  solver : Option Solver
  memory : Memory
  constraints : List Expr := []

namespace Path

/-- The number of a new path. -/
def nextId : Run Nat := modifyGet fun s => (s.paths + 1, { s with paths := s.paths + 1 })

/-- The first path over a memory. -/
def new (solver : Option Solver) (memory : Memory) : Run Path := do
  return { id := ← nextId, solver := solver, memory := memory }

/-- An expression under the constraints of the path. -/
def value (p : Path) (e : Expr) : Value := ⟨p.solver, p.constraints, e⟩

/-- A computation on the memory of a path. -/
def onMemory {α : Type} (x : On Memory α) : On Path α :=
  On.part Path.memory (fun memory p => { p with memory := memory }) x

/-- Adds a constraint. The constant that holds says nothing, any other constant is refused. -/
def constrain (p : Path) (e : Expr) : Except Fault Path :=
  match e with
  | .const _ w => if w.isTrue then .ok p else .error .falseConstraint
  | e => .ok { p with constraints := addConstraint p.constraints e }

/-- Adds a constraint to the path at hand. -/
def assume (e : Expr) : On Path Unit := do
  let p ← On.thing
  let p ← Session.check (p.constrain e)
  On.change fun _ => p

/-- Stores a value at an address and keeps the constraints that come of it. -/
def store (address value : Expr) : On Path Unit := do
  let p ← On.thing
  let constraints ← onMemory (Memory.storeAt (p.value address) value)
  constraints.forM assume

/-- Loads a value from an address and keeps the constraints that come of it. -/
def load (address : Expr) (width : UInt64) : On Path Expr := do
  let p ← On.thing
  let (value, constraints) ← onMemory (Memory.loadFrom (p.value address) width)
  constraints.forM assume
  return value

/-- A path with the same constraints and, if given, one more, over a branch of the memory. -/
def fork (constraint : Option Expr) : On Path Path := do
  let p ← On.thing
  let id ← nextId
  let memory ← onMemory Memory.branch
  let child : Path := {
    id := id
    parent := some p.id
    solver := p.solver
    memory := memory
    constraints := p.constraints }
  let child ← match constraint with
    | some e => Session.check (child.constrain e)
    | none => pure child
  On.change fun p => { p with children := p.children ++ [id] }
  return child

/-- Whether the constraints have a solution. -/
def isFeasible (p : Path) : Run Bool := (p.value (.ofBool true)).isSatisfiable

/-- The variables of the constraints and a value for each. -/
def model (p : Path) : Run (List Var × List UInt64) := do
  let vars ← Session.check (Vars.find p.constraints)
  match p.solver with
  | none => throw (.fault .absentSolver)
  | some solver =>
    match ← Session.ask "solve" fun calls => solver.solve calls p.constraints vars with
    | some values => return (vars, values)
    | none => throw (.error .unsat)

/-- What the path holds, memory first. -/
def dump (p : Path) : String :=
  "STATE\n=====\nid=" ++ p.id.repr ++ "\n\n== MEMORY\n" ++ p.memory.dump ++ "\n== CONSTRAINTS\n" ++
    String.join (p.constraints.mapIdx fun i e => i.repr ++ ". " ++ e.text ++ "\n")

end Path

end SymbolicMemory
