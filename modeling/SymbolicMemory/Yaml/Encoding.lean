/-! # Encoded text

A document is a sequence of bytes, in UTF-8 or, behind a byte order mark that says
so, in UTF-16. It is decoded block by block as it is read, so a block that cannot
be decoded does no harm if nothing in it is ever needed.
-/

namespace SymbolicMemory.Yaml

/-- Characters that a document may hold: no control characters but tabs and breaks. -/
def isAllowed (c : Char) : Bool :=
  let n := c.toNat
  n == 0x9 || n == 0xa || n == 0xd || (0x20 ≤ n && n ≤ 0x7e) || n == 0x85 ||
    (0xa0 ≤ n && n ≤ 0xfffd) || 0x10000 ≤ n

/-- How characters are written as bytes. -/
inductive Encoding where
  | utf8
  /-- Two bytes for a unit, the low one first or last. -/
  | utf16 (lowFirst : Bool)
  deriving DecidableEq, Repr

/-- What some bytes start with. -/
inductive Decoded where
  /-- A character, and how many bytes it takes. -/
  | char (c : Char) (width : Nat)
  /-- A character that the bytes at hand end within. -/
  | cut
  /-- No character. -/
  | bad

/-- The character of a code, unless there is none. -/
def Decoded.ofCode (code width : Nat) : Decoded :=
  if h : code.isValidChar then .char (Char.ofNatAux code h) width else .bad

/-- How many bytes a character has by its first byte, and what that byte adds to its code. -/
def utf8Lead (b : UInt8) : Option (Nat × Nat) :=
  let n := b.toNat
  if n < 0x80 then some (1, n)
  else if n < 0xc0 then none
  else if n < 0xe0 then some (2, n - 0xc0)
  else if n < 0xf0 then some (3, n - 0xe0)
  else if n < 0xf8 then some (4, n - 0xf0)
  else none

/-- The code that a byte within a character adds to. -/
def utf8Trail (code : Nat) (b : UInt8) : Option Nat :=
  if 0x80 ≤ b.toNat ∧ b.toNat < 0xc0 then some (code * 64 + (b.toNat - 0x80)) else none

/-- The least code that takes a number of bytes. -/
def utf8Least : (width : Nat) → Nat
  | 2 => 0x80
  | 3 => 0x800
  | 4 => 0x10000
  | _ => 0

/-- The character that some bytes start with in UTF-8, of which `available` are at hand. -/
def decodeUtf8 (available : Nat) : List UInt8 → Decoded
  | [] => .cut
  | b :: rest =>
    match utf8Lead b with
    | none => .bad
    | some (width, lead) =>
      if available < width then .cut
      else match (rest.take (width - 1)).foldlM utf8Trail lead with
        | none => .bad
        | some code => if code < utf8Least width then .bad else .ofCode code width

/-- The character that some bytes start with in UTF-16, of which `available` are at hand. A
    character beyond the first plane takes two units. -/
def decodeUtf16 (lowFirst : Bool) (available : Nat) : List UInt8 → Decoded
  | a :: b :: rest =>
    let high := unit a b
    if available < 2 then .cut
    else if high / 0x400 = 0xdc00 / 0x400 then .bad
    else if high / 0x400 = 0xd800 / 0x400 then
      if available < 4 then .cut
      else match rest with
        | c :: d :: _ =>
          let low := unit c d
          if low / 0x400 = 0xdc00 / 0x400 then
            .ofCode (0x10000 + (high % 0x400) * 0x400 + low % 0x400) 4
          else .bad
        | _ => .cut
    else .ofCode high 2
  | _ => .cut
where
  unit (a b : UInt8) : Nat :=
    if lowFirst then a.toNat + 256 * b.toNat else 256 * a.toNat + b.toNat

/-- The character that some bytes start with. -/
def Encoding.decode (available : Nat) (bytes : List UInt8) (e : Encoding) : Decoded :=
  if available = 0 then .cut
  else
    let decoded := match e with
      | utf8 => decodeUtf8 available bytes
      | utf16 lowFirst => decodeUtf16 lowFirst available bytes
    match decoded with
    | .char c width => if isAllowed c then .char c width else .bad
    | other => other

/-- The encoding of some bytes by the mark that they start with, and the size of the mark. -/
def Encoding.ofBytes : List UInt8 → Encoding × Nat
  | 0xff :: 0xfe :: _ => (.utf16 true, 2)
  | 0xfe :: 0xff :: _ => (.utf16 false, 2)
  | 0xef :: 0xbb :: 0xbf :: _ => (.utf8, 3)
  | _ => (.utf8, 0)

/-- A text that was encoded, as far as it can be decoded. -/
structure DecodedText where
  chars : List Char
  /-- How many of the characters lie in each block. -/
  blocks : List Nat
  /-- Whether that is all of it. -/
  complete : Bool

namespace DecodedText

/-- How many bytes a block has at most. -/
def blockSize : Nat := 512

/-- Decodes bytes, of which `left` belong to a block that has `count` characters so far. A
    character that would go beyond its block starts the next one. What was decoded before is
    listed last first. -/
def decode (e : Encoding) (left : Nat) (bytes : List UInt8) (count : Nat) (chars : List Char)
    (blocks : List Nat) : DecodedText :=
  match bytes with
  | [] => ⟨chars.reverse, (count :: blocks).reverse, true⟩
  | byte :: more =>
    match e.decode left (byte :: more) with
    | .char c width =>
      decode e (left - width) (more.drop (width - 1)) (count + 1) (c :: chars) blocks
    | .cut =>
      if left < blockSize ∧ left ≤ more.length then
        decode e blockSize (byte :: more) 0 chars (count :: blocks)
      else ⟨chars.reverse, (count :: blocks).reverse, false⟩
    | .bad => ⟨chars.reverse, blocks.reverse, false⟩
termination_by (bytes.length, blockSize - left)
decreasing_by
  · simp only [Prod.lex_def, List.length_drop, List.length_cons]; omega
  · rename_i h
    exact Prod.Lex.right _ (by have := h.1; omega)

/-- The text that some bytes stand for. -/
def ofBytes (bytes : List UInt8) : DecodedText :=
  let (e, mark) := Encoding.ofBytes bytes
  decode e (blockSize - mark) (bytes.drop mark) 0 [] []

end DecodedText

end SymbolicMemory.Yaml
