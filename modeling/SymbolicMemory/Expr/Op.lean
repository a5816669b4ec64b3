import SymbolicMemory.Text.Numeral

/-! # Binary operators

Operators are numbered, and the numbers order expressions. A number that names no
operator can still stand in an expression that was put together by hand; it has a
printed form and no meaning.
-/

namespace SymbolicMemory

/-- The numbers that name an operator: ten arithmetic ones and six comparisons. -/
def OpCode.Assigned (code : Int) : Prop :=
  (1 ≤ code ∧ code ≤ 10) ∨ (13 ≤ code ∧ code ≤ 18)

instance (code : Int) : Decidable (OpCode.Assigned code) := by
  unfold OpCode.Assigned; infer_instance

/-- An operation on two words of one width. -/
inductive Op where
  | add
  | sub
  | mul
  /-- Unsigned quotient; all ones for a zero divisor. -/
  | udiv
  /-- Unsigned remainder; the dividend for a zero divisor. -/
  | urem
  | and
  | or
  | xor
  /-- Shift left; zero from the width on. -/
  | shl
  /-- Shift right, filling with zeros; zero from the width on. -/
  | lshr
  | eq
  | ne
  | ult
  | ule
  | ugt
  | uge
  /-- A number that names no operator. -/
  | unassigned (code : Int) (free : ¬ OpCode.Assigned code)
  deriving DecidableEq, Repr

namespace Op

/-- The number of an operator. -/
def code : Op → Int
  | add => 1
  | sub => 2
  | mul => 3
  | udiv => 4
  | urem => 5
  | and => 6
  | or => 7
  | xor => 8
  | shl => 9
  | lshr => 10
  | eq => 13
  | ne => 14
  | ult => 15
  | ule => 16
  | ugt => 17
  | uge => 18
  | unassigned code _ => code

/-- The operator with a given number. -/
def ofCode (code : Int) : Op :=
  if h : OpCode.Assigned code then
    match code.toNat with
    | 1 => add
    | 2 => sub
    | 3 => mul
    | 4 => udiv
    | 5 => urem
    | 6 => and
    | 7 => or
    | 8 => xor
    | 9 => shl
    | 10 => lshr
    | 13 => eq
    | 14 => ne
    | 15 => ult
    | 16 => ule
    | 17 => ugt
    | _ => uge
  else unassigned code h

/-- The printed name. -/
def name : Op → String
  | add => "add"
  | sub => "sub"
  | mul => "mul"
  | udiv => "udiv"
  | urem => "urem"
  | and => "and"
  | or => "or"
  | xor => "xor"
  | shl => "shl"
  | lshr => "lshr"
  | eq => "eq"
  | ne => "ne"
  | ult => "ult"
  | ule => "ule"
  | ugt => "ugt"
  | uge => "uge"
  | unassigned code _ => "BinaryOp<" ++ Text.decimalInt code ++ ">"

/-- Operators whose result has the width of the operands. -/
def isArithmetic : Op → Bool
  | add | sub | mul | udiv | urem | and | or | xor | shl | lshr => true
  | _ => false

/-- Operators whose result is one bit. -/
def isCompare : Op → Bool
  | eq | ne | ult | ule | ugt | uge => true
  | _ => false

end Op

end SymbolicMemory
