import SymbolicMemory.Expr.Basic
import SymbolicMemory.Region

/-! # Errors

An error is an answer that a caller has to expect: constraints without a solution, a
search that gives up, a configuration that cannot be used. Errors are causes, and
an operation that passes one on may add its context.
-/

namespace SymbolicMemory

/-- What was done at an address. -/
inductive Access where
  | load
  | store
  | concretize
  deriving DecidableEq, Repr

/-- The word for an access. -/
def Access.name : Access → String
  | load => "load"
  | store => "store"
  | concretize => "concretize"

/-- Why a file could not be read. -/
inductive FileProblem where
  | missing
  | notDirectory
  | isDirectory
  /-- The name, or a part of it, is too long for any file. -/
  | longName
  /-- The name has a character that no file name has. -/
  | impossibleName
  deriving DecidableEq, Repr

/-- The report on a file, which shows the name it was asked for by. -/
def FileProblem.message (name : String) : FileProblem → String
  | missing => "open " ++ name ++ ": no such file or directory"
  | notDirectory => "open " ++ name ++ ": not a directory"
  | isDirectory => "read " ++ name ++ ": is a directory"
  | longName => "open " ++ name ++ ": file name too long"
  | impossibleName => "open " ++ name ++ ": invalid argument"

/-- The reasons for which an operation fails. -/
inductive Error where
  /-- A value was asked for under constraints that have no solution. -/
  | unsat
  /-- The constraints on an address have no solution. -/
  | unsatAddress
  /-- No strategy found a concrete address. -/
  | unresolvableAddress
  /-- The solver ran out of time. -/
  | solverTimeout
  /-- The solver was stopped. -/
  | solverCanceled
  /-- The solver gave up. -/
  | solverResourceLimit
  /-- The solver does not know. -/
  | solverUnknown
  /-- An evaluation met a variable without a value. -/
  | unboundVariable (name : String)
  /-- Constraints with variables were to be checked without a solver. -/
  | constraintsNeedSolver
  /-- A symbolic value was to be found without a solver. -/
  | valueNeedsSolver
  /-- A name that is no strategy. -/
  | unknownStrategy (name : String)
  /-- A letter that is no permission. -/
  | unknownPermission (letter : Char) (text : String)
  /-- A region that ends before it starts. -/
  | reversedRegion (region : Region)
  /-- Two regions that share an address. -/
  | overlappingRegions (left right : Region)
  /-- Two image segments that share an address, by their bases. -/
  | overlappingSegments (left right : UInt64)
  /-- A configured address width outside 1 to 64. -/
  | addressWidth (bits : UInt64)
  /-- A configuration with an empty memory id. -/
  | emptyId
  /-- A configured limit that is not positive. -/
  | limit (limit : Int)
  /-- A configured region beyond the address space. -/
  | regionBeyond (first last bits : UInt64)
  /-- A configuration text that cannot be read. -/
  | malformedConfig
  /-- A file that cannot be read. -/
  | file (name : String) (problem : FileProblem)
  /-- An error of a solver from elsewhere, in its own words. -/
  | foreign (text : String)
  /-- An error with the context in which it arose. -/
  | within (context : String) (cause : Error)
  /-- An access that failed, with the address that it was for. -/
  | access (access : Access) (address : Expr) (cause : Error)
  deriving DecidableEq, Repr

namespace Error

/-- The error at the bottom of its contexts. -/
def root : Error → Error
  | within _ cause => cause.root
  | access _ _ cause => cause.root
  | e => e

/-- The outermost access that failed. -/
def access? : Error → Option Access
  | within _ cause => cause.access?
  | access a _ _ => some a
  | _ => none

/-- The report of an error, contexts first. -/
def message : Error → String
  | unsat => "Unsatisfiable constraints"
  | unsatAddress => "Address is unsatisfiable under current constraints"
  | unresolvableAddress => "Unable to concretize address with the provided strategies"
  | solverTimeout => "Solver timeout"
  | solverCanceled => "Solver canceled"
  | solverResourceLimit => "Solver resource limit"
  | solverUnknown => "Solver unknown error"
  | unboundVariable name => "var not bound: " ++ name
  | constraintsNeedSolver => "symbolic constraints require a solver"
  | valueNeedsSolver => "symbolic value requires a solver"
  | unknownStrategy name => "unknown concretization strategy: " ++ Text.quote name
  | unknownPermission letter text =>
    "invalid permission " ++ Text.quoteChar letter ++ " in " ++ Text.quote text
  | reversedRegion region => "invalid region " ++ region.text ++ ": end before start"
  | overlappingRegions left right => "regions overlap: " ++ left.text ++ " and " ++ right.text
  | overlappingSegments left right =>
    "image segments overlap: " ++ Text.hex left ++ " and " ++ Text.hex right
  | addressWidth bits => "invalid address width: " ++ Text.decimal bits
  | emptyId => "memory id required"
  | limit n => "invalid enumeration limit: " ++ Text.decimalInt n
  | regionBeyond first last bits =>
    "region [" ++ Text.hex first ++ "-" ++ Text.hex last ++ "] exceeds " ++ Text.decimal bits ++
      "-bit address space"
  | malformedConfig => "malformed configuration"
  | file name problem => problem.message name
  | foreign text => text
  | within context cause => context ++ ": " ++ cause.message
  | access a address cause => a.name ++ " " ++ address.text ++ ": " ++ cause.message

end Error

/-- An operation that does not succeed reports an error or breaks off at a fault. -/
inductive Failure where
  | error (error : Error)
  | fault (fault : Fault)
  deriving DecidableEq, Repr

/-- A failure in a context. Faults carry none. -/
def Failure.within (context : String) : Failure → Failure
  | .error e => .error (.within context e)
  | .fault f => .fault f

/-- An outcome that can only break off, as one that can also report an error. -/
def Failure.ofFault {α : Type} : Except Fault α → Except Failure α
  | .ok a => .ok a
  | .error f => .error (.fault f)

/-- An outcome that can only report an error, as one that can also break off. -/
def Failure.ofError {α : Type} : Except Error α → Except Failure α
  | .ok a => .ok a
  | .error e => .error (.error e)

instance : MonadLift (Except Fault) (Except Failure) := ⟨Failure.ofFault⟩

instance : MonadLift (Except Error) (Except Failure) := ⟨Failure.ofError⟩

end SymbolicMemory
