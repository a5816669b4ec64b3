import SymbolicMemory.Error
import SymbolicMemory.Text.Blank
import SymbolicMemory.Text.Split

/-! # Strategies

The ways of narrowing a symbolic address down to concrete ones.
-/

namespace SymbolicMemory

/-- A way of choosing concrete addresses. -/
inductive Strategy where
  /-- An address outside every region. -/
  | free
  /-- An address in a region that may be written. -/
  | writeable
  /-- An address in a region that may be executed. -/
  | executable
  /-- Every address, if they lie close together. -/
  | symbolic
  /-- Any one address. -/
  | any
  /-- A name that stands for no strategy. -/
  | unknown (name : String)
  deriving DecidableEq, Repr

namespace Strategy

/-- The strategy of a name. -/
def ofName : String → Strategy
  | "free" => free
  | "writeable" => writeable
  | "executable" => executable
  | "symbolic" => symbolic
  | "any" => any
  | name => unknown name

/-- The name of a strategy. -/
def name : Strategy → String
  | free => "free"
  | writeable => "writeable"
  | executable => "executable"
  | symbolic => "symbolic"
  | any => "any"
  | unknown name => name

/-- What stores try, in this order. -/
def forStore : List Strategy := [free, writeable, any]

/-- What loads try, in this order. -/
def forLoad : List Strategy := [symbolic, any]

/-- Reads a comma-separated list of known names. White space around names and empty items
    are passed over. -/
def parseList (s : String) : Except Error (List Strategy) :=
  let names := (Text.pieces ',' s.toList).map fun piece => String.ofList (Text.trimBlank piece)
  (names.filter (· ≠ "")).mapM fun name =>
    match ofName name with
    | unknown name => .error (.unknownStrategy name)
    | strategy => .ok strategy

end Strategy

end SymbolicMemory
