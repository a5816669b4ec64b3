/-! # Numerals

Numbers are written in decimal or lower-case hex. They are read with an optional
base mark (`0x`, `0o`, `0b`, or a leading `0` for octal), and with single
underscores between digits. A reader tells a malformed numeral from one that does
not fit its range, and reports the first of the two that it meets.
-/

namespace SymbolicMemory.Text

/-- Lower-case hex with its base mark, `0x0` for zero. -/
def hex (n : UInt64) : String :=
  "0x" ++ String.ofList (Nat.toDigits 16 n.toNat)

/-- Lower-case hex filled up with zeros to sixteen digits. -/
def hexAddress (n : UInt64) : String :=
  let digits := Nat.toDigits 16 n.toNat
  String.ofList (List.replicate (16 - digits.length) '0' ++ digits)

/-- Decimal digits. -/
def decimal (n : UInt64) : String := n.toNat.repr

/-- Decimal digits, behind a minus sign if negative. -/
def decimalInt : Int → String
  | .ofNat n => n.repr
  | .negSucc n => "-" ++ (n + 1).repr

/-- Why a text is not the numeral that was asked for. -/
inductive NumeralError where
  /-- No numeral at all. -/
  | malformed
  /-- A numeral beyond the range. -/
  | outOfRange
  deriving DecidableEq, Repr

namespace Numeral

/-- The value of a letter or digit as a digit, up to thirty-five. -/
def digitValue? (c : Char) : Option Nat :=
  if '0' ≤ c ∧ c ≤ '9' then some (c.toNat - '0'.toNat)
  else if 'a' ≤ c ∧ c ≤ 'z' then some (c.toNat - 'a'.toNat + 10)
  else if 'A' ≤ c ∧ c ≤ 'Z' then some (c.toNat - 'A'.toNat + 10)
  else none

/-- Splits off the base mark. A lone mark is not one: `0x` is read as octal. -/
def splitBase : List Char → Nat × List Char
  | '0' :: mark :: c :: rest =>
    if mark = 'b' ∨ mark = 'B' then (2, c :: rest)
    else if mark = 'o' ∨ mark = 'O' then (8, c :: rest)
    else if mark = 'x' ∨ mark = 'X' then (16, c :: rest)
    else (8, mark :: c :: rest)
  | '0' :: rest => (8, rest)
  | s => (10, s)

/-- Reads digits to the end, passing over underscores, and stops at the first digit
    that takes the value beyond `max`. -/
def digits (base max : Nat) : List Char → Nat → Except NumeralError Nat
  | [], n => .ok n
  | '_' :: rest, n => digits base max rest n
  | c :: rest, n =>
    match digitValue? c with
    | none => .error .malformed
    | some d =>
      if base ≤ d then .error .malformed
      else if max < n * base + d then .error .outOfRange
      else digits base max rest (n * base + d)

/-- What was last seen while checking underscores. -/
inductive Seen where
  | start
  | digit
  | underscore
  | other
  deriving DecidableEq

/-- Every underscore stands between two digits. -/
def separated (isHex : Bool) : List Char → Seen → Bool
  | [], seen => seen != .underscore
  | c :: rest, seen =>
    if c.isDigit ∨ (isHex ∧ (('a' ≤ c ∧ c ≤ 'f') ∨ ('A' ≤ c ∧ c ≤ 'F'))) then
      separated isHex rest .digit
    else if c = '_' then seen == .digit && separated isHex rest .underscore
    else seen != .underscore && separated isHex rest .other

/-- Underscores are placed well; a base mark counts as a digit. -/
def underscoresOk : List Char → Bool
  | '0' :: mark :: rest =>
    if mark = 'x' ∨ mark = 'X' then separated true rest .digit
    else if mark = 'b' ∨ mark = 'B' ∨ mark = 'o' ∨ mark = 'O' then separated false rest .digit
    else separated false ('0' :: mark :: rest) .start
  | s => separated false s .start

/-- An unsigned number of at most `max`. -/
def readNat (max : Nat) (s : List Char) : Except NumeralError Nat := do
  if s.isEmpty then throw .malformed
  let (base, rest) := splitBase s
  let n ← digits base max rest 0
  if s.contains '_' && !underscoresOk s then throw .malformed
  return n

/-- The largest unsigned word. -/
def maxUnsigned : Nat := Nat.pow 2 64 - 1

/-- A 64-bit unsigned number, without a sign. -/
def readUnsigned (s : List Char) : Except NumeralError UInt64 :=
  (readNat maxUnsigned s).map UInt64.ofNat

/-- Digits in a given base, without a base mark, of at most `max`. -/
def readNatIn (base max : Nat) (s : List Char) : Except NumeralError Nat :=
  if s.isEmpty then .error .malformed else digits base max s 0

/-- A 64-bit signed number with an optional sign, given how its magnitude is read. -/
def readSignedBy (read : List Char → Except NumeralError Nat) (s : List Char) :
    Except NumeralError Int :=
  let (negative, magnitude) := match s with
    | '+' :: rest => (false, rest)
    | '-' :: rest => (true, rest)
    | s => (false, s)
  match read magnitude with
  | .error e => .error e
  | .ok n =>
    if negative then (if Nat.pow 2 63 < n then .error .outOfRange else .ok (-(n : Int)))
    else if Nat.pow 2 63 ≤ n then .error .outOfRange else .ok n

/-- A 64-bit signed number with an optional sign. -/
def readSigned (s : List Char) : Except NumeralError Int := readSignedBy (readNat maxUnsigned) s

end Numeral

end SymbolicMemory.Text
