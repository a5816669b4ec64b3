import SymbolicMemory.Yaml.Encoding

/-! # Places in a text of lines

A cursor walks over a text and knows the line and column it stands at. Blanks are
spaces and tabs; a line ends at any of the usual breaks, and a carriage return
with a line feed is one break. Before the cursor looks at characters it makes sure
that they have been decoded, which fails where the text cannot be.
-/

namespace SymbolicMemory.Yaml

/-- A space or a tab. -/
def isBlank (c : Char) : Bool := c == ' ' || c == '\t'

/-- The end of a line. -/
def isBreak (c : Char) : Bool :=
  c == '\r' || c == '\n' || c == '\u0085' || c == '\u2028' || c == '\u2029'

/-- Whether nothing but a break or the end follows. -/
def endsLine : List Char → Bool
  | [] => true
  | c :: _ => isBreak c

/-- Whether nothing but a blank, a break or the end follows. -/
def endsWord : List Char → Bool
  | [] => true
  | c :: _ => isBlank c || isBreak c

/-- How a break counts within a text: the rare ones as themselves, all others as a line feed. -/
def breakText (c : Char) : Char :=
  if c == '\u2028' || c == '\u2029' then c else '\n'

/-- The mark by which the encoding of a text is told. -/
def byteOrderMark : Char := '\ufeff'

/-- A place in a text. -/
structure Cursor where
  /-- What lies ahead. -/
  rest : List Char
  /-- How many characters ahead have been decoded; the end counts as one. -/
  ready : Nat := 0
  /-- How many characters there are in each block that has not been decoded. -/
  blocks : List Nat := []
  /-- Whether the text ends behind the last block, or cannot be decoded there. -/
  complete : Bool := true
  /-- The character at which the text was last decoded any further. -/
  window : Option Char := none
  /-- How many characters lie behind. -/
  index : Nat := 0
  line : Nat := 0
  column : Nat := 0
  /-- How many breaks lie between here and the last character that is no blank. -/
  breaks : Nat := 0

namespace Cursor

/-- The start of an encoded text. A text without any content is an empty line. -/
def ofBytes (bytes : List UInt8) : Cursor :=
  let text := DecodedText.ofBytes (if bytes.isEmpty then [0x0a] else bytes)
  { rest := text.chars, blocks := text.blocks, complete := text.complete }

/-- Decodes blocks until `n` characters are ready or the text ends. -/
def load (n : Nat) (complete : Bool) : (blocks : List Nat) → (ready : Nat) → Option (List Nat × Nat)
  | [], ready => if complete then some ([], ready + 1) else none
  | block :: blocks, ready =>
    if n ≤ ready + block then some (blocks, ready + block) else load n complete blocks (ready + block)

/-- Makes sure that the next `n` characters are ready. -/
def need (n : Nat) (c : Cursor) : Option Cursor :=
  if n ≤ c.ready then some c
  else (load n c.complete c.blocks c.ready).map fun (blocks, ready) =>
    { c with blocks := blocks, ready := ready, window := c.rest.head? }

/-- Moves on by one character within a line. -/
def skip (c : Cursor) : Cursor :=
  { c with
    rest := c.rest.drop 1
    ready := c.ready - 1
    index := c.index + 1
    column := c.column + 1
    breaks := if c.rest.head?.any isBlank then c.breaks else 0 }

/-- Moves on by some characters within a line. -/
def skips : (n : Nat) → (c : Cursor) → Cursor
  | 0, c => c
  | n + 1, c => skips n c.skip

/-- Moves past a break. -/
def skipBreak (c : Cursor) : Cursor :=
  let length := match c.rest with
    | '\r' :: '\n' :: _ => 2
    | _ => 1
  { c with
    rest := c.rest.drop length
    ready := c.ready - length
    index := c.index + length
    line := c.line + 1
    column := 0
    breaks := c.breaks + 1 }

/-- Moves past a break if there is one. -/
def skipBreak? (c : Cursor) : Option Cursor := do
  if c.rest.head?.any isBreak then return (← c.need 2).skipBreak else return c

/-- The characters of a kind from here on, and the place behind them. Each is passed by itself,
    and `ahead` characters are ready behind it. -/
def takeWhile (ahead : Nat) (p : Char → Bool) (c : Cursor) : Option (List Char × Cursor) :=
  go c.rest c []
where
  go : List Char → Cursor → List Char → Option (List Char × Cursor)
    | [], c, taken => some (taken.reverse, c)
    | ch :: rest, c, taken =>
      if p ch then do go rest (← c.skip.need ahead) (ch :: taken) else some (taken.reverse, c)

/-- The place behind the characters of a kind. -/
def skipWhile (p : Char → Bool) (c : Cursor) : Option Cursor := (c.takeWhile 1 p).map (·.2)

/-- Whether a line starts here with three times the same mark and nothing else in the word. -/
def atDocumentMark (c : Cursor) : Bool :=
  c.column == 0 && (c.rest.take 3 == ['-', '-', '-'] || c.rest.take 3 == ['.', '.', '.']) &&
    endsWord (c.rest.drop 3)

/-! ## Comments -/

/-- How far ahead a comment is looked for. -/
def maxCommentSearch : Nat := 512

/-- Moves on until `index` characters lie behind, over breaks too. -/
def moveTo (index : Nat) (c : Cursor) : Option Cursor := go c.rest.length c
where
  go : Nat → Cursor → Option Cursor
    | 0, c => some c
    | fuel + 1, c =>
      if index ≤ c.index then some c
      else do
        let c ← c.need 1
        if c.rest.head?.any isBreak then go fuel (← c.need 2).skipBreak else go fuel c.skip

/-- Moves past a comment that starts `distance` characters ahead, up to the end of its line. -/
def skipComment (distance : Nat) (c : Cursor) : Option Cursor := do
  let c ← c.moveTo (c.index + distance)
  (← c.need 1).skipWhile fun ch => !isBreak ch

/-- Passes over a comment behind other text in a line. -/
def skipLineComment (c : Cursor) : Option Cursor :=
  if c.breaks = 0 then go maxCommentSearch 0 c else some c
where
  go : (steps distance : Nat) → Cursor → Option Cursor
    | 0, _, c => some c
    | steps + 1, distance, c => do
      let c ← c.need (distance + 1)
      match c.rest.drop distance with
      | ch :: _ =>
        if isBlank ch then go steps (distance + 1) c
        else if ch == '#' then c.skipComment distance
        else return c
      | [] => return c

/-- Whether a character takes more than a byte in UTF-8. -/
def isWide (ch : Char) : Bool := 0x80 ≤ ch.toNat

/-- How far ahead the next comment starts, if only blanks and breaks lie before it. Those breaks
    that are wide end the search. -/
def findComment : (steps distance : Nat) → Cursor → Option (Option Nat × Cursor)
  | 0, _, c => some (none, c)
  | steps + 1, distance, c => do
    let c ← c.need (distance + 1)
    match c.rest.drop distance with
    | ch :: _ =>
      if isBlank ch || ch == '\r' || ch == '\n' then findComment steps (distance + 1) c
      else if isBreak ch then return (none, ← c.need (distance + 2))
      else if ch == '#' then return (some distance, c)
      else return (none, c)
    | [] => return (none, c)

/-- Passes over a comment and every further one that only blanks and breaks lie before, each up
    to the end of its line. -/
def skipComments (c : Cursor) : Option Cursor := go c.rest.length 0 c
where
  go : (fuel distance : Nat) → Cursor → Option Cursor
    | 0, _, c => some c
    | fuel + 1, distance, c => do
      if distance = 1 ∧ c.rest.head?.any isWide then c.need 2
      else match ← findComment (maxCommentSearch - distance) distance c with
        | (none, c) => return c
        | (some distance, c) => go fuel 1 (← c.skipComment distance)

end Cursor

/-! ## Gaps -/

/-- Blanks and breaks between two words. -/
structure Gap where
  /-- The blanks on the first line, last first. -/
  blanks : List Char := []
  /-- Whether a line ended. -/
  broken : Bool := false
  /-- The first break, unless it was escaped. -/
  first : Option Char := none
  /-- The other breaks, last first. -/
  more : List Char := []

namespace Gap

/-- What a gap stands for: blanks for themselves, one line break for a space, and each further
    one for itself. -/
def text (g : Gap) : List Char :=
  if g.broken then
    match g.first with
    | none => g.more.reverse
    | some c =>
      if c == '\n' then (if g.more.isEmpty then [' '] else g.more.reverse) else c :: g.more.reverse
  else g.blanks.reverse

/-- Takes one more break in. -/
def addBreak (g : Gap) (c : Char) : Gap :=
  if g.broken then { g with more := c :: g.more }
  else { broken := true, first := some c }

/-- Takes one more blank in. Those at the start of a line do not count. -/
def addBlank (g : Gap) (c : Char) : Gap :=
  if g.broken then g else { g with blanks := c :: g.blanks }

end Gap

/-- Reads a gap to its end. A line may not start with a tab to the left of a column. -/
def Cursor.gap (column : Nat) (c : Cursor) (g : Gap) : Option (Gap × Cursor) := go c.rest.length c g
where
  go : Nat → Cursor → Gap → Option (Gap × Cursor)
    | 0, c, g => some (g, c)
    | fuel + 1, c, g => do
      match c.rest with
      | [] => return (g, c)
      | ch :: _ =>
        if isBlank ch then
          if g.broken && ch == '\t' && c.column < column then none
          go fuel (← c.skip.need 1) (g.addBlank ch)
        else if isBreak ch then
          go fuel (← (← c.need 2).skipBreak.need 1) (g.addBreak (breakText ch))
        else return (g, c)

end SymbolicMemory.Yaml
