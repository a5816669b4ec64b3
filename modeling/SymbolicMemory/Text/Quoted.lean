import SymbolicMemory.Text.Printable

/-! # Quoted text

Messages show names and arguments between quotes, so that a reader sees where
they begin and end. The active quote and the backslash are escaped, control
characters get their short escape or two hex digits, and every other character
that is not printable is written by its code.
-/

namespace SymbolicMemory.Text

/-- The low `digits` hex digits of `n`, zeros included. -/
def hexFixed : (digits n : Nat) → List Char
  | 0, _ => []
  | digits + 1, n => hexFixed digits (n / 16) ++ [Nat.digitChar (n % 16)]

/-- The short escape letter of a control character. -/
def shortEscape? (c : Char) : Option Char :=
  match c.toNat with
  | 7 => some 'a'
  | 8 => some 'b'
  | 12 => some 'f'
  | 10 => some 'n'
  | 13 => some 'r'
  | 9 => some 't'
  | 11 => some 'v'
  | _ => none

/-- One character as it stands between two `mark`s. -/
def escape (mark c : Char) : List Char :=
  if c = mark ∨ c = '\\' then ['\\', c]
  else if isPrintable c then [c]
  else match shortEscape? c with
    | some letter => ['\\', letter]
    | none =>
      if c.toNat < 0x20 ∨ c.toNat = 0x7f then '\\' :: 'x' :: hexFixed 2 c.toNat
      else if c.toNat < 0x10000 then '\\' :: 'u' :: hexFixed 4 c.toNat
      else '\\' :: 'U' :: hexFixed 8 c.toNat

/-- A text between double quotes. -/
def quote (s : String) : String :=
  String.ofList ('"' :: s.toList.flatMap (escape '"') ++ ['"'])

/-- A character between single quotes. -/
def quoteChar (c : Char) : String :=
  String.ofList ('\'' :: escape '\'' c ++ ['\''])

end SymbolicMemory.Text
