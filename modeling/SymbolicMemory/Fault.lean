import SymbolicMemory.Expr.Op
import SymbolicMemory.Text.Quoted
import SymbolicMemory.Text.Numeral

/-! # Broken preconditions

A fault means that a caller asked for something that has no answer: operands of
different widths, a constant of no width, a variable used at two widths. It is not
an error that a correct caller has to expect, and no operation recovers from one.
-/

namespace SymbolicMemory

/-- A precondition that does not hold, with what is needed to say so. -/
inductive Fault where
  /-- The operands of a binary operator differ in width. -/
  | operandWidths (op : Op) (lhs rhs : UInt64)
  /-- The operator number names no operator. -/
  | unassignedOp
  /-- A variable needs 1 to 64 bits. -/
  | variableWidth (width : UInt64)
  /-- A constant needs 1 to 64 bits. -/
  | constantWidth (width : UInt64)
  /-- Two constants of different widths are compared. -/
  | comparedWidths (lhs rhs : UInt64)
  /-- A concatenation has more than 64 bits. -/
  | concatWidth (msb lsb : UInt64)
  /-- No bits are extracted. -/
  | emptyExtract
  /-- Bits are extracted past the end. -/
  | extractRange (offset width available : UInt64)
  /-- One variable name is used at two widths. -/
  | variableWidths (name : String) (first second : UInt64)
  /-- An assignment lists more variables than values, or fewer. -/
  | assignmentSizes (vars values : Nat)
  /-- An assignment lists a variable twice. -/
  | assignedTwice (name : String)
  /-- A memory cell is not a byte. -/
  | cellWidth (width : UInt64)
  /-- A stored value is not made of bytes. -/
  | storedWidth (width : UInt64)
  /-- A load is not for one to eight bytes. -/
  | loadedWidth (width : UInt64)
  /-- Addresses have at most 64 bits. -/
  | addressWidth (bits : UInt64)
  /-- A path is constrained by a constant that is not true. -/
  | falseConstraint
  /-- A search has undecided constraints and no variable left to try. -/
  | noOpenVariable
  /-- An expression whose variables all have values has none itself. -/
  | openProjection (text : String)
  /-- A search for an extreme never ends, since the solver keeps answering out of range. -/
  | endlessSearch
  /-- A query was put to a solver that is not there. -/
  | absentSolver
  /-- A number of cells is negative, or more than can be held. -/
  | cellCount (count : Int)
  /-- No object has this number. -/
  | noSuchNumber (number : Nat)
  /-- A flag is asked for that is not there, or not of this type. -/
  | flagAccess (name reason : String)
  /-- A mapping that takes entries from others has a collection as a key. -/
  | collectionKey
  deriving DecidableEq, Repr

/-- The report of a fault. -/
def Fault.message : Fault → String
  | operandWidths op lhs rhs =>
    "assert: binary expr width mismatch: op=" ++ op.name ++ " " ++ Text.decimal lhs ++ " != " ++
      Text.decimal rhs
  | unassignedOp => "unreachable"
  | variableWidth width => "assert: invalid variable width: " ++ Text.decimal width
  | constantWidth width => "assert: invalid constant width: " ++ Text.decimal width
  | comparedWidths lhs rhs =>
    "assert: eq: width mismatch: " ++ Text.decimal lhs ++ " != " ++ Text.decimal rhs
  | concatWidth msb lsb => "assert: concat too wide: " ++ Text.decimal msb ++ "+" ++ Text.decimal lsb
  | emptyExtract => "assert: extract width cannot be zero"
  | extractRange offset width available =>
    "assert: extract out of bounds: " ++ Text.decimal offset ++ "+" ++ Text.decimal width ++ " > " ++
      Text.decimal available
  | variableWidths name first second =>
    "assert: variable " ++ Text.quote name ++ " used with widths " ++ Text.decimal first ++ " and " ++
      Text.decimal second
  | assignmentSizes vars values =>
    "assert: var/value count mismatch: " ++ vars.repr ++ " != " ++ values.repr
  | assignedTwice name => "assert: duplicate var: " ++ name
  | cellWidth width => "assert: store write: invalid cell width: " ++ Text.decimal width
  | storedWidth width => "assert: store: invalid value width: " ++ Text.decimal width
  | loadedWidth width => "assert: load: invalid width: " ++ Text.decimal width
  | addressWidth bits => "assert: invalid address width: " ++ Text.decimal bits
  | falseConstraint => "assert: invalid false constraint"
  | noOpenVariable => "assert: no unassigned variable for pending constraints"
  | openProjection text => "assert: projected expression not evaluable: " ++ text
  | endlessSearch => "search for an extreme does not end"
  | absentSolver => "no solver to ask"
  | cellCount count => "cannot hold " ++ Text.decimalInt count ++ " cells"
  | noSuchNumber number => "nothing has the number " ++ number.repr
  | collectionKey => "a collection is no key to compare"
  | flagAccess name reason => "flag " ++ Text.quote name ++ ": " ++ reason

end SymbolicMemory
