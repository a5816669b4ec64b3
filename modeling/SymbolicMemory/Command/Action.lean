import SymbolicMemory.Command.Usage
import SymbolicMemory.Config
import SymbolicMemory.Solver.Exhaustive

/-! # What the commands do

Each command works on a configuration and, apart from the listing of addresses, on
the memory that this describes. It ends with the text that it shows.
-/

namespace SymbolicMemory

/-- Why a command ends without a result. -/
inductive Stop where
  | usage (error : UsageError)
  | failure (failure : Failure)
  deriving DecidableEq, Repr

/-- The report of a stop. -/
def Stop.message : Stop → String
  | usage e => e.message
  | failure (.error e) => e.message
  | failure (.fault f) => f.message

/-- A command at work. What it notes in the session stays there however it ends. -/
abbrev Action (α : Type) := EStateM Stop Session α

namespace Action

/-- A computation within the session. -/
def run {α : Type} (x : Run α) : Action α := fun s =>
  match x s with
  | .ok a s => .ok a s
  | .error f s => .error (.failure f) s

/-- An outcome with nothing to note. -/
def ofExcept {α : Type} : Except Failure α → Action α
  | .ok a => return a
  | .error f => throw (.failure f)

/-- Turns a call down. -/
def refuse {α : Type} (e : UsageError) : Action α := throw (.usage e)

/-- A computation on one thing within the session, with what becomes of the thing. -/
def on {σ α : Type} (thing : σ) (x : On σ α) : Action (α × σ) := fun s =>
  match x (thing, s) with
  | .ok a (thing, s) => .ok (a, thing) s
  | .error f (_, s) => .error (.failure f) s

/-- Does something afterwards, however a computation ends. -/
def afterwards {α : Type} (x : Action α) (last : Action Unit) : Action α := fun s =>
  match x s with
  | .ok a s => (do last; return a : Action α) s
  | .error e s => (do last; throw e : Action α) s

end Action

/-! ## Solvers -/

/-- What happens when a solver is closed. -/
inductive Closing where
  /-- Nothing; it holds nothing that has to be given back. -/
  | needless
  | done
  | fails (problem : String)
  deriving DecidableEq, Repr

/-- A solver that is offered by name. -/
structure Backend where
  /-- The solver for a variable that lies in a range. A backend may leave it to the constraints
      to say so. -/
  solver : (var : String) → (lo hi : UInt64) → Solver
  closing : Closing := .needless

namespace Backend

/-- Searches the range. -/
def exhaustive (settings : Exhaustive) : Backend where
  solver var lo hi := (settings.bound var lo hi).solver

/-- The backends that are always there. -/
def standard : List (String × Backend) := [("naive", exhaustive {})]

/-- Closes the solver. That it fails is worth a warning only. -/
def close (b : Backend) : Run Unit :=
  match b.closing with
  | .needless => return ()
  | .done => modify fun s => { s with closed := s.closed + 1 }
  | .fails problem => do
    modify fun s => { s with closed := s.closed + 1 }
    Session.record (.closeFailed problem)

/-- The backend of a name. -/
def find (backends : List (String × Backend)) (name : String) : Except UsageError Backend :=
  match backends.lookup name with
  | some b => .ok b
  | none =>
    .error (.unknownSolver name ((backends.map (·.1)).mergeSort fun a b => decide (a ≤ b)).eraseDups)

end Backend

/-! ## Listing addresses -/

/-- What addresses are asked for. -/
structure RangeRequest where
  lo : UInt64 := 0
  hi : UInt64 := 0
  /-- The strategies to try, with commas between them. -/
  strategies : String := "symbolic,any"
  /-- How many addresses are listed at most; as configured if not positive. -/
  limit : Int := 0
  /-- The name of the backend. -/
  solver : String := "naive"

namespace RangeRequest

/-- The range runs forward and lies in the address space. -/
def check (r : RangeRequest) (bits : UInt64) : Except UsageError Unit :=
  if r.hi < r.lo then .error (.reversedRange r.lo r.hi)
  else if bits < 64 ∧ 1 <<< bits ≤ r.hi then .error (.addressBeyond r.hi bits)
  else .ok ()

/-- The limit in force. -/
def effectiveLimit (r : RangeRequest) (config : Config) : Int :=
  if 0 < r.limit then r.limit else config.limit

/-- A fresh address that is constrained to the range. -/
def address (r : RangeRequest) (bits : UInt64) (solver : Solver) : Run Value := do
  let addr ← Session.make (Expr.named "addr" bits)
  let above ← Session.make do Expr.apply .uge addr (← Expr.constant r.lo bits)
  let below ← Session.make do Expr.apply .ule addr (← Expr.constant r.hi bits)
  return ⟨some solver, [above, below], addr⟩

/-- The concrete addresses that a backend finds. -/
def resolve (r : RangeRequest) (config : Config) (strategies : List Strategy) (b : Backend) :
    Run Addresses := do
  let regions ← match config.table with
    | .ok table => pure table
    | .error e => throw (.error e)
  let concretizer : Concretizer := { limit := r.effectiveLimit config, regions := regions }
  let v ← r.address config.bits (b.solver "addr" r.lo r.hi)
  Session.record (.concretizing r.lo r.hi strategies)
  tryCatch (concretizer.concretize v strategies) fun
    | .error e => throw (.error (.access .concretize v.expr e))
    | failure => throw failure

/-- Lists the addresses, one per line. -/
def list (r : RangeRequest) (backends : List (String × Backend)) (config : Config) : Action String := do
  if let .error e := r.check config.bits then Action.refuse e
  let strategies ← Action.ofExcept (Failure.ofError (Strategy.parseList r.strategies))
  match Backend.find backends r.solver with
  | .error e => Action.refuse e
  | .ok backend =>
    let addresses ← Action.afterwards (Action.run (r.resolve config strategies backend))
      (Action.run backend.close)
    return String.join (addresses.toList.map fun a => Text.hex a ++ "\n")

end RangeRequest

/-! ## Showing a memory -/

/-- What bytes are asked for. -/
structure DumpRequest where
  address : UInt64 := 0
  size : Int := 0
  /-- Whether the bytes are shown by their structure. -/
  raw : Bool := false

namespace DumpRequest

/-- The name of the kind of a node. -/
def kindName : Expr.Kind → String
  | .const => "ConstantExpr"
  | .var => "VarExpr"
  | .concat => "ConcatExpr"
  | .extract => "ExtractExpr"
  | .not => "NotExpr"
  | .zext => "CastExpr"
  | .binary => "BinaryExpr"

/-- Bytes by their structure, with a stand-in for the place of each node. -/
def structureText (cells : List Expr) : String :=
  let lines := cells.map fun e => " (*symmem." ++ kindName e.kind ++ ")(PTR)(" ++ e.text ++ ")"
  let size := if cells.isEmpty then "" else
    "(len=" ++ cells.length.repr ++ " cap=" ++ cells.length.repr ++ ") "
  "([]symmem.Expr) " ++ size ++ "\x7b\n" ++ ",\n".intercalate lines ++
    (if cells.isEmpty then "" else "\n") ++ "\x7d\n"

/-- Reads the bytes of a memory and shows them, or all that the memory holds then. -/
def showBytes (r : DumpRequest) : On Memory String := do
  let cells ← Memory.readBytes r.address r.size
  if r.raw then return structureText cells
  let m ← On.thing
  return m.dump

/-- Shows the memory of a configuration. -/
def report (r : DumpRequest) (config : Config) (image : Except Error Image) : Action String := do
  if r.size < 0 then Action.refuse (.negativeSize r.size)
  let m ← Action.ofExcept (config.memory image)
  return (← Action.on m r.showBytes).1

end DumpRequest

/-! ## Branching a memory -/

/-- What branches are asked for. -/
structure ForkRequest where
  count : Int := 4
  address : UInt64 := 0

namespace ForkRequest

/-- The most branches that can be asked for. -/
def maxCount : Int := 256

/-- Branches of a memory. -/
def branches : (count : Nat) → On Memory (List Memory)
  | 0 => return []
  | count + 1 => do
    let m ← Memory.branch
    return m :: (← branches count)

/-- Stores the number of a branch and loads it again. -/
def writeNumber (address : Value) (number : Nat) : On Memory Expr := do
  let byte ← Session.make (Expr.constant (UInt64.ofNat number) 8)
  discard (Memory.storeAt address byte)
  let (value, _) ← Memory.loadFrom address 8
  Session.record (.branchWritten number value)
  return value

/-- Writes to each branch in turn, and returns what each then holds. -/
def writeAll (address : Value) : (number : Nat) → List Memory → Action (List Expr)
  | _, [] => return []
  | number, m :: rest => do
    let (value, _) ← Action.on m (writeNumber address number)
    return value :: (← writeAll address (number + 1) rest)

/-- Branches the memory of a configuration, writes to every branch, and shows what each of them
    and the memory itself holds. -/
def report (r : ForkRequest) (canceled : Bool) (config : Config) (image : Except Error Image) :
    Action String := do
  if r.count ≤ 0 ∨ maxCount < r.count then Action.refuse (.branchCount r.count)
  let m ← Action.ofExcept (config.memory image)
  let address ← Action.run (Session.make (Expr.constant r.address config.bits))
  let address : Value := ⟨none, [], address⟩
  let (children, m) ← Action.on m (branches r.count.toNat)
  if canceled then Action.refuse .canceled
  let values ← writeAll address 0 children
  let ((value, _), _) ← Action.on m (Memory.loadFrom address 8)
  let lines := values.mapIdx fun i e => "branch " ++ i.repr ++ ": " ++ e.text ++ "\n"
  return String.join lines ++ "base: " ++ value.text ++ "\n"

end ForkRequest

end SymbolicMemory
