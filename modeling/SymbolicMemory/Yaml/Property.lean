import SymbolicMemory.Yaml.ScalarText

/-! # Names, tags and directives

A value may be named by an anchor, so that aliases can stand for it, and may carry
a tag that says what kind of value it is. A tag is given in full, or by a handle
and a suffix; directives before a document say what its handles stand for.
-/

namespace SymbolicMemory.Yaml

/-- Characters of names and handles. -/
def isNameChar (c : Char) : Bool := c.isAlphanum || c == '_' || c == '-'

/-- Marks that may follow a name without a blank between. -/
def endsName (rest : List Char) : Bool :=
  endsWord rest || rest.head?.any fun c => "?:,]\x7d%@`".toList.contains c

/-- Reads a name behind the mark of an anchor or an alias. -/
def readName (c : Cursor) : Option (List Char × Cursor) := do
  let (name, c) ← (← c.skip.need 1).takeWhile 1 isNameChar
  if name.isEmpty || !endsName c.rest then none else return (name, c)

/-! ## Tags -/

/-- A tag as it is written: what its handle stands for comes before the suffix. -/
structure TagName where
  handle : List Char
  suffix : List Char
  deriving DecidableEq, Repr

/-- Characters of a suffix, escapes apart. -/
def isSuffixChar (c : Char) : Bool := isNameChar c || ";/?:@&=+$,.!~*'()[]".toList.contains c

/-- Reads an escaped octet: a percent sign and two hex digits. -/
def readOctet (c : Cursor) : Option (UInt8 × Cursor) := do
  let c ← c.need 3
  match c.rest with
  | '%' :: high :: low :: _ => return (UInt8.ofNat (← hexNumber [high, low]), c.skips 3)
  | _ => none

/-- Reads an escaped character, all of whose octets are escaped. -/
def readOctets (c : Cursor) : Option (List Char × Cursor) := do
  let (lead, c) ← readOctet c
  let (width, _) ← utf8Lead lead
  let (octets, c) ← (List.range (width - 1)).foldlM trail ([lead], c)
  return (octets.reverse.map fun o => Char.ofNat o.toNat, c)
where
  trail : List UInt8 × Cursor → Nat → Option (List UInt8 × Cursor)
    | (octets, c), _ => do
      let (octet, c) ← readOctet c
      if octet &&& 0xc0 = 0x80 then return (octet :: octets, c) else none

/-- Reads a suffix as far as it goes. -/
def readSuffix (c : Cursor) : Option (List Char × Cursor) := do go (c.rest.length + 1) (← c.need 1) []
where
  go : Nat → Cursor → List Char → Option (List Char × Cursor)
    | 0, _, _ => none
    | fuel + 1, c, suffix =>
      match c.rest with
      | [] => some (suffix.reverse, c)
      | ch :: _ => do
        if ch == '%' then
          let (octets, c) ← readOctets c
          go fuel (← c.need 1) (octets.reverse ++ suffix)
        else if isSuffixChar ch then go fuel (← c.skip.need 1) (ch :: suffix)
        else return (suffix.reverse, c)

/-- Reads a handle: an exclamation mark, a name, and another mark if there is one. -/
def readHandle (c : Cursor) : Option (List Char × Cursor) := do
  let c ← c.need 1
  if c.rest.head? != some '!' then none
  let (name, c) ← (← c.skip.need 1).takeWhile 1 isNameChar
  if c.rest.head? == some '!' then return ('!' :: name ++ ['!'], c.skip) else return ('!' :: name, c)

/-- Whether a handle has a mark at its end too. -/
def isClosed (handle : List Char) : Bool := 1 < handle.length && handle.getLast? == some '!'

/-- Reads a tag. A lone exclamation mark is a tag in full. -/
def readTag (c : Cursor) : Option (TagName × Cursor) := do
  let c ← c.need 2
  let (tag, c) ←
    if (c.rest.drop 1).head? == some '<' then full (c.skips 2)
    else do
      let (handle, c) ← readHandle c
      let (suffix, c) ← readSuffix c
      if isClosed handle then
        if suffix.isEmpty then none else pure (⟨handle, suffix⟩, c)
      else if (handle.drop 1 ++ suffix).isEmpty then pure (⟨[], ['!']⟩, c)
      else pure (⟨['!'], handle.drop 1 ++ suffix⟩, c)
  let c ← c.need 1
  if endsWord c.rest then return (tag, c) else none
where
  full (c : Cursor) : Option (TagName × Cursor) := do
    let (suffix, c) ← readSuffix c
    if suffix.isEmpty || c.rest.head? != some '>' then none else return (⟨[], suffix⟩, c.skip)

/-! ## Directives -/

/-- What is said about a document before it starts. -/
inductive Directive where
  /-- The version of the format. -/
  | version (major minor : Nat)
  /-- What a handle stands for. -/
  | handle (handle start : List Char)
  deriving DecidableEq, Repr

/-- Reads a number of one or two digits. -/
def readVersionNumber (c : Cursor) : Option (Nat × Cursor) := do
  let (digits, c) ← (← c.need 1).takeWhile 1 Char.isDigit
  if digits.isEmpty || 2 < digits.length then none
  else return (digits.foldl (fun n d => 10 * n + (d.toNat - '0'.toNat)) 0, c)

/-- Reads the version that is given in a directive. -/
def readVersion (c : Cursor) : Option (Directive × Cursor) := do
  let (major, c) ← readVersionNumber (← (← c.need 1).skipWhile isBlank)
  if c.rest.head? != some '.' then none
  let (minor, c) ← readVersionNumber c.skip
  return (.version major minor, c)

/-- Reads the handle that is given in a directive, and what it stands for. -/
def readHandleMeaning (c : Cursor) : Option (Directive × Cursor) := do
  let (handle, c) ← readHandle (← (← c.need 1).skipWhile isBlank)
  if handle != ['!'] && !isClosed handle then none
  let c ← c.need 1
  if !c.rest.head?.any isBlank then none
  let (start, c) ← readSuffix (← c.skipWhile isBlank)
  let c ← c.need 1
  if start.isEmpty || !endsWord c.rest then none else return (.handle handle start, c)

/-- Reads a directive up to the end of its line. There are two kinds. -/
def readDirective (c : Cursor) : Option (Directive × Cursor) := do
  let (name, c) ← (← c.skip.need 1).takeWhile 1 isNameChar
  if !endsWord c.rest then none
  let (directive, c) ←
    if name == "YAML".toList then readVersion c
    else if name == "TAG".toList then readHandleMeaning c
    else none
  let c ← (← c.need 1).skipWhile isBlank
  let c ← if c.rest.head? == some '#' then c.skipWhile fun ch => !isBreak ch else some c
  if endsLine c.rest then return (directive, ← c.skipBreak?) else none

end SymbolicMemory.Yaml
