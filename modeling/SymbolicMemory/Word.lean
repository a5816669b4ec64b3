import SymbolicMemory.Fault

/-! # Words

A word is a bit pattern with its width. The operations mask their result to the
width, so that on masked words they are the usual ones on bit vectors; a word put
together by hand may carry bits beyond its width, and the operations that return
an operand unchanged keep them.
-/

namespace SymbolicMemory

/-- The word with the lowest `width` bits set, all of them from 64 on. -/
def mask (width : UInt64) : UInt64 :=
  if 64 ≤ width then 0xffffffffffffffff else (1 <<< width) - 1

/-- Shift left where an amount of 64 or more leaves nothing. -/
def shiftUp (value amount : UInt64) : UInt64 :=
  if amount < 64 then value <<< amount else 0

/-- Shift right where an amount of 64 or more leaves nothing. -/
def shiftDown (value amount : UInt64) : UInt64 :=
  if amount < 64 then value >>> amount else 0

/-- A concrete bit vector. -/
structure Word where
  value : UInt64
  width : UInt64
  deriving DecidableEq, Repr

namespace Word

/-- A value masked to a width of 1 to 64 bits. -/
def make (value width : UInt64) : Except Fault Word :=
  if 0 < width ∧ width ≤ 64 then .ok ⟨value &&& mask width, width⟩
  else .error (.constantWidth width)

/-- A truth value as one bit. -/
def ofBool (b : Bool) : Word := ⟨if b then 1 else 0, 1⟩

/-- One bit, set. -/
def isTrue (w : Word) : Bool := w.width == 1 && w.value != 0

/-- One bit, clear. -/
def isFalse (w : Word) : Bool := w.width == 1 && w.value == 0

/-- Every bit of the width is set, and none beyond. -/
def isAllOnes (w : Word) : Bool := w.value == mask w.width

def add (a b : Word) : Except Fault Word := make (a.value + b.value) a.width

def sub (a b : Word) : Except Fault Word := make (a.value - b.value) a.width

def mul (a b : Word) : Except Fault Word := make (a.value * b.value) a.width

/-- The quotient, all ones for a zero divisor. -/
def udiv (a b : Word) : Except Fault Word :=
  if b.value = 0 then make (mask a.width) a.width else make (a.value / b.value) a.width

/-- The remainder, the dividend itself for a zero divisor. -/
def urem (a b : Word) : Except Fault Word :=
  if b.value = 0 then .ok a else make (a.value % b.value) a.width

def and (a b : Word) : Except Fault Word := make (a.value &&& b.value) a.width

def or (a b : Word) : Except Fault Word := make (a.value ||| b.value) a.width

def xor (a b : Word) : Except Fault Word := make (a.value ^^^ b.value) a.width

/-- Shift left by the value of `b`, zero from the width on. -/
def shl (a b : Word) : Except Fault Word :=
  if a.width ≤ b.value then make 0 a.width else make (shiftUp a.value b.value) a.width

/-- Shift right by the value of `b`, zero from the width on. -/
def lshr (a b : Word) : Except Fault Word :=
  if a.width ≤ b.value then make 0 a.width else make (shiftDown a.value b.value) a.width

/-- Equality of two words of one width. -/
def eq (a b : Word) : Except Fault Word :=
  if a.width = b.width then .ok (ofBool (a.value == b.value))
  else .error (.comparedWidths a.width b.width)

def ult (a b : Word) : Word := ofBool (a.value < b.value)

def ule (a b : Word) : Word := ofBool (a.value ≤ b.value)

/-- The value at another width: extended by zeros, or cut off. -/
def resize (a : Word) (width : UInt64) : Except Fault Word := make a.value width

/-- Every bit of the width flipped. -/
def not (a : Word) : Except Fault Word := make (~~~a.value) a.width

/-- `width` bits from bit `offset` on. -/
def extract (a : Word) (offset width : UInt64) : Except Fault Word :=
  make (shiftDown a.value offset) width

/-- The bits of `msb` above those of `lsb`. -/
def concat (msb lsb : Word) : Except Fault Word :=
  make (shiftUp msb.value lsb.width ||| lsb.value) (msb.width + lsb.width)

/-- The outcome of an operation on two words: one of the operands itself, or a new word. -/
inductive Folded where
  | lhs
  | rhs
  | word (w : Word)

/-- The operand or new word that a folded operation stands for. -/
def Folded.resolve (a b : Word) : Folded → Word
  | .lhs => a
  | .rhs => b
  | .word w => w

/-- An operator on two words of one width. A zero summand, a one or zero factor and a zero
    divisor of a remainder give an operand back as it is. -/
def fold (op : Op) (a b : Word) : Except Fault Folded :=
  match op with
  | .add =>
    if a.value = 0 then .ok .rhs
    else if a.width = 1 then (a.xor b).map .word
    else (a.add b).map .word
  | .sub => if a = b then (make 0 a.width).map .word else (a.sub b).map .word
  | .mul =>
    if a.width = 1 then (a.and b).map .word
    else if a.value = 1 then .ok .rhs
    else if a.value = 0 then .ok .lhs
    else (a.mul b).map .word
  | .udiv => (a.udiv b).map .word
  | .urem => if b.value = 0 then .ok .lhs else (a.urem b).map .word
  | .and => (a.and b).map .word
  | .or => (a.or b).map .word
  | .xor => if a.value = 0 then .ok .rhs else (a.xor b).map .word
  | .shl => (a.shl b).map .word
  | .lshr => (a.lshr b).map .word
  | .eq => (a.eq b).map .word
  | .ne => (a.eq b).map fun w => .word (ofBool w.isFalse)
  | .ult => .ok (.word (a.ult b))
  | .ule => .ok (.word (a.ule b))
  | .ugt => .ok (.word (b.ult a))
  | .uge => .ok (.word (b.ule a))
  | .unassigned .. => .error .unassignedOp

/-- An operator on two words, which must have one width. -/
def binary (op : Op) (a b : Word) : Except Fault Word :=
  if a.width = b.width then (fold op a b).map (Folded.resolve a b)
  else .error (.operandWidths op a.width b.width)

end Word

end SymbolicMemory
