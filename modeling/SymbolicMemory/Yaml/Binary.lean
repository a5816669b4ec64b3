import SymbolicMemory.Yaml.Encoding

/-! # Bytes written as text

Four letters stand for three bytes, six bits each. At the end, equals signs fill up
the last four letters. Breaks between letters do not count.
-/

namespace SymbolicMemory.Yaml.Binary

/-- The six bits that a letter stands for. -/
def sextet? (c : Char) : Option Nat :=
  if c.isUpper then some (c.toNat - 'A'.toNat)
  else if c.isLower then some (c.toNat - 'a'.toNat + 26)
  else if c.isDigit then some (c.toNat - '0'.toNat + 52)
  else if c = '+' then some 62
  else if c = '/' then some 63
  else none

/-- The bytes that letters without breaks stand for. -/
def bytesOf : List Char → Option (List UInt8)
  | [] => some []
  | [a, b, '=', '='] => do return (← group a b 'A' 'A').take 1
  | [a, b, c, '='] => do return (← group a b c 'A').take 2
  | a :: b :: c :: d :: rest => do return (← group a b c d) ++ (← bytesOf rest)
  | _ => none
where
  group (a b c d : Char) : Option (List UInt8) := do
    let n := ((← sextet? a) * 64 + (← sextet? b)) * 4096 + (← sextet? c) * 64 + (← sextet? d)
    return [UInt8.ofNat (n / 65536), UInt8.ofNat (n / 256), UInt8.ofNat n]

/-- The bytes that a text stands for. -/
def ofText (s : List Char) : Option (List UInt8) := bytesOf (s.filter fun c => c ≠ '\n' ∧ c ≠ '\r')

/-- Bytes as text. What is no character becomes the replacement character. -/
def toText (bytes : List UInt8) : List Char := go bytes.length bytes
where
  go : Nat → List UInt8 → List Char
    | 0, _ => []
    | _, [] => []
    | fuel + 1, b :: rest =>
      match decodeUtf8 (rest.length + 1) (b :: rest) with
      | .char c width => c :: go fuel (rest.drop (width - 1))
      | _ => '\ufffd' :: go fuel rest

end SymbolicMemory.Yaml.Binary
