import SymbolicMemory.Text.Numeral
import SymbolicMemory.Yaml.Binary
import SymbolicMemory.Yaml.Timestamp

/-! # Scalars

What text stands for: nothing, a truth value, a number, a point in time, or just
text. If it is written plainly its form decides, unless a tag does. Whole numbers
may have a base mark and underscores anywhere. A number with a point or an exponent
is the nearest double, of which only the integer part is ever used.
-/

namespace SymbolicMemory.Yaml

/-- A floating-point number, cut to its integer part. -/
inductive Whole where
  | nan
  | infinite (negative : Bool)
  | finite (n : Int)
  deriving DecidableEq, Repr

/-- What a scalar stands for. -/
inductive Scalar where
  | null
  | bool (b : Bool)
  | int (n : Int)
  | float (value : Whole)
  | timestamp
  | text (s : List Char)
  deriving DecidableEq, Repr

/-- The integer nearest to a quotient; a half goes to the even neighbour. -/
def roundDiv (n d : Nat) : Nat :=
  let q := n / d
  let r := n % d
  if d < 2 * r ∨ (2 * r = d ∧ q % 2 = 1) then q + 1 else q

/-- The integer part of the double nearest to a quotient. Below one it takes the grid of the
    doubles next below one, since no other can reach one. -/
def wholeDouble (n d : Nat) : Nat :=
  if n / d = 0 then roundDiv (n <<< 53) d >>> 53
  else
    let log := (n / d).log2
    if log ≤ 52 then roundDiv (n <<< (52 - log)) d >>> (52 - log)
    else roundDiv n (d <<< (log - 52)) <<< (log - 52)

/-- The integer part of the double nearest to `digits * 10 ^ exponent`, unless that is too large
    for a double. -/
def wholeDecimal (digits : Nat) (exponent : Int) : Option Nat :=
  let size := (digits.repr.length : Int) + exponent
  if digits = 0 ∨ size < 0 then some 0
  else if 309 < size then none
  else
    let whole :=
      if exponent < 0 then wholeDouble digits (Nat.pow 10 exponent.natAbs)
      else wholeDouble (digits * Nat.pow 10 exponent.natAbs) 1
    if whole < Nat.pow 2 1024 then some whole else none

/-- The digits at the start of a text and what follows them. -/
def splitDigits (s : List Char) : List Char × List Char :=
  (s.takeWhile Char.isDigit, s.dropWhile Char.isDigit)

/-- The number that some digits stand for. -/
def decimalNat (digits : List Char) : Nat :=
  digits.foldl (fun n c => 10 * n + (c.toNat - '0'.toNat)) 0

/-- The exponent at the end of a number: a letter, a sign if any, and digits. No exponent is
    zero. -/
def exponent : List Char → Option Int
  | [] => some 0
  | e :: rest =>
    if e != 'e' && e != 'E' then none
    else
      let (negative, digits) := match rest with
        | '+' :: digits => (false, digits)
        | '-' :: digits => (true, digits)
        | digits => (false, digits)
      if digits.isEmpty || !digits.all Char.isDigit then none
      else some (if negative then -(decimalNat digits : Int) else decimalNat digits)

/-- Splits a sign off. -/
def splitSign : List Char → Bool × List Char
  | '+' :: rest => (false, rest)
  | '-' :: rest => (true, rest)
  | rest => (false, rest)

/-- The integer part of a number with a point or an exponent. Digits have to stand before the
    point or behind it. -/
def floatWhole (s : List Char) : Option Int := do
  let (negative, magnitude) := splitSign s
  let (before, rest) := splitDigits magnitude
  let (after, rest) := match rest with
    | '.' :: rest => splitDigits rest
    | rest => ([], rest)
  if before.isEmpty && after.isEmpty then none
  let e ← exponent rest
  let whole ← wholeDecimal (decimalNat (before ++ after)) (e - after.length)
  return if negative then -(whole : Int) else whole

/-- The number behind a mark for its base. Other than in most numerals, a sign may follow the
    mark; one may also stand before it, but not both. -/
def markedNumber : List Char → Option Int
  | '0' :: 'b' :: rest => inBase 2 rest
  | '0' :: 'o' :: rest => inBase 8 rest
  | '-' :: '0' :: 'b' :: rest => (signedIn 2 ('-' :: rest)).toOption
  | '-' :: '0' :: 'o' :: rest => (signedIn 8 ('-' :: rest)).toOption
  | _ => none
where
  signedIn (base : Nat) : List Char → Except Text.NumeralError Int :=
    Text.Numeral.readSignedBy (Text.Numeral.readNatIn base Text.Numeral.maxUnsigned)
  inBase (base : Nat) (rest : List Char) : Option Int :=
    match signedIn base rest with
    | .ok n => some n
    | .error _ =>
      (Text.Numeral.readNatIn base Text.Numeral.maxUnsigned rest).toOption.map fun n => (n : Int)

/-- The number that a text stands for, if it is one. -/
def number? (s : List Char) : Option Scalar :=
  let plain := s.filter (· != '_')
  match Text.Numeral.readSigned plain with
  | .ok n => some (.int n)
  | .error _ =>
    match Text.Numeral.readUnsigned plain with
    | .ok n => some (.int n.toNat)
    | .error _ =>
      match floatWhole plain with
      | some n => some (.float (.finite n))
      | none => (markedNumber plain).map .int

/-- What plain text stands for. Points in time may be told from other text, or not. -/
def Scalar.ofPlain (timestamps : Bool) (s : List Char) : Scalar :=
  match String.ofList s with
  | "" | "~" | "null" | "Null" | "NULL" => .null
  | "true" | "True" | "TRUE" => .bool true
  | "false" | "False" | "FALSE" => .bool false
  | ".nan" | ".NaN" | ".NAN" => .float .nan
  | ".inf" | ".Inf" | ".INF" | "+.inf" | "+.Inf" | "+.INF" => .float (.infinite false)
  | "-.inf" | "-.Inf" | "-.INF" => .float (.infinite true)
  | _ =>
    match s with
    | [] => .null
    | c :: _ =>
      if c.isDigit || c == '+' || c == '-' then
        if timestamps && Timestamp.isTimestamp s then .timestamp else (number? s).getD (.text s)
      else if c == '.' then
        if s.contains '_' && !Text.Numeral.underscoresOk s then .text s
        else match floatWhole (s.filter (· != '_')) with
          | some n => .float (.finite n)
          | none => .text s
      else .text s

/-! ## Tags -/

/-- Kinds of scalars. -/
inductive Tag where
  | null
  | bool
  | int
  | float
  | timestamp
  | text
  /-- Bytes written as text. -/
  | binary
  /-- The key whose value is another mapping to take entries from. -/
  | merge
  /-- A kind that has no meaning here. -/
  | other
  deriving DecidableEq, Repr

/-- What the tags of common kinds start with, in full and in short. -/
def Tag.starts : List (List Char) := ["tag:yaml.org,2002:".toList, "!!".toList]

/-- The kind that a tag names. A lone exclamation mark names none. -/
def Tag.ofText? (tag : List Char) : Option Tag :=
  if tag = [] ∨ tag = ['!'] then none
  else some (((Tag.starts.findSome? (strip tag)).map fun s => ofName (String.ofList s)).getD .other)
where
  strip (tag start : List Char) : Option (List Char) :=
    if start.isPrefixOf tag then some (tag.drop start.length) else none
  ofName : String → Tag
    | "null" => .null
    | "bool" => .bool
    | "int" => .int
    | "float" => .float
    | "timestamp" => .timestamp
    | "str" => .text
    | "binary" => .binary
    | "merge" => .merge
    | _ => .other

namespace Scalar

/-- The kind of a scalar. -/
def tag : Scalar → Tag
  | null => .null
  | bool _ => .bool
  | int _ => .int
  | float _ => .float
  | timestamp => .timestamp
  | text _ => .text

/-- The text of the key that stands for entries of another mapping. -/
def mergeKey : List Char := ['<', '<']

/-- The kind of a scalar as it is written: its tag decides, or else its form. -/
def tagOf (plain : Bool) (tag : Option (List Char)) (text : List Char) : Tag :=
  match tag.bind Tag.ofText? with
  | some t => t
  | none =>
    if !plain then .text
    else if text = mergeKey then .merge
    else (ofPlain true text).tag

/-- A scalar of a given kind. A whole number may be written where a fraction is expected. -/
def ofTagged (t : Tag) (s : List Char) : Option Scalar :=
  match t with
  | .text | .merge | .other => some (text s)
  | .binary => (Binary.ofText s).map fun bytes => text (Binary.toText bytes)
  | t =>
    match t, ofPlain (t = .timestamp) s with
    | .float, int n =>
      if n < Int.pow 2 63 then some (float (.finite (n.sign * wholeDouble n.natAbs 1))) else none
    | t, value => if value.tag = t then some value else none

end Scalar

namespace Scalar

/-- The smallest signed number, which also stands for what cannot be represented. -/
def leastSigned : Int := -Int.pow 2 63

/-- A 64-bit signed number. -/
def toSigned : Scalar → Option Int
  | int n => if leastSigned ≤ n ∧ n < Int.pow 2 63 then some n else none
  | float (.finite n) =>
    if Int.pow 2 63 < n then none
    else if leastSigned ≤ n ∧ n < Int.pow 2 63 then some n
    else some leastSigned
  | float (.infinite true) => some leastSigned
  | _ => none

/-- A 64-bit unsigned number. A negative float counts modulo the range. -/
def toUnsigned : Scalar → Option UInt64
  | int n => if 0 ≤ n ∧ n < Int.pow 2 64 then some (UInt64.ofInt n) else none
  | float (.finite n) =>
    if Int.pow 2 64 < n then none
    else if leastSigned ≤ n ∧ n < Int.pow 2 64 then some (UInt64.ofInt n)
    else some (UInt64.ofInt leastSigned)
  | float (.infinite true) => some (UInt64.ofInt leastSigned)
  | _ => none

end Scalar

end SymbolicMemory.Yaml
