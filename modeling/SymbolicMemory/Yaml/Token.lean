import SymbolicMemory.Yaml.Property

/-! # Tokens

The marks and scalars of a text in the order in which they stand. Indentation
becomes explicit: a block starts with a token and ends with one. A mapping key is
only known as one when its colon is met, so the scanner remembers where a key may
have started and puts the key token there afterwards.

Tokens are read one by one as they are asked for, and never further ahead than is
needed to tell whether a key starts. What stands behind a document is not read.
-/

namespace SymbolicMemory.Yaml

/-- A mark or a scalar. -/
inductive Token where
  /-- The start of the text. -/
  | textStart
  /-- The end of the text. -/
  | textEnd
  | directive (d : Directive)
  /-- Three dashes. -/
  | documentStart
  /-- Three dots. -/
  | documentEnd
  /-- The first entry of an indented sequence follows. -/
  | blockSequence
  /-- The first key of an indented mapping follows. -/
  | blockMapping
  /-- The indentation goes back. -/
  | blockEnd
  | openBracket
  | closeBracket
  | openBrace
  | closeBrace
  | comma
  /-- A dash in front of an entry. -/
  | dash
  /-- A key follows. -/
  | key
  /-- The value of a key follows. -/
  | value
  /-- The name of a value that stands elsewhere. -/
  | reference (name : List Char)
  /-- A name for the value that follows. -/
  | anchor (name : List Char)
  /-- What kind of value follows. -/
  | tag (name : TagName)
  /-- Text, and whether it was written plainly. -/
  | scalar (plain : Bool) (text : List Char)
  deriving DecidableEq, Repr

/-- A place where a key may have started. -/
structure KeyPlace where
  /-- How many tokens came before. -/
  place : Nat := 0
  /-- Whether it may still turn out to be a key. -/
  possible : Bool := false
  /-- Whether nothing but a key can stand there. -/
  required : Bool := false
  /-- Whether the token there is held back until it is known. -/
  held : Bool := false
  index : Nat := 0
  line : Nat := 0
  column : Nat := 0

/-- What a scanner knows half-way through a text. -/
structure Scanner where
  cursor : Cursor
  /-- How many characters there are in all. -/
  length : Nat
  /-- The columns of the open blocks, innermost first. -/
  blocks : List Nat := []
  /-- Where a key may have started within the innermost brackets. -/
  openKey : KeyPlace := {}
  /-- The same for the brackets around, innermost first. -/
  outer : List KeyPlace := []
  /-- Whether a key may start here. -/
  keyAllowed : Bool := true
  tokens : Array Token := #[.textStart]
  /-- How many tokens have been handed out. -/
  handed : Nat := 0

namespace Scanner

/-- A scanner at the start of an encoded text. -/
def ofBytes (bytes : List UInt8) : Option Scanner := do
  let cursor ← (Cursor.ofBytes bytes).need 1
  return { cursor := cursor, length := cursor.rest.length }

/-- How deep blocks and brackets may lie in each other. -/
def maxDepth : Nat := 10000

/-- Whether the scanner is within brackets, where indentation means nothing. -/
def inFlow (s : Scanner) : Bool := !s.outer.isEmpty

/-- Adds a token. -/
def emit (s : Scanner) (t : Token) : Scanner := { s with tokens := s.tokens.push t }

/-- Puts a token at a place that has not been handed out, or else at the end. -/
def emitAt (s : Scanner) (place : Nat) (t : Token) : Scanner :=
  if place < s.handed then s.emit t
  else { s with tokens := s.tokens.insertIdxIfInBounds place t }

/-! ## Keys -/

/-- Holds the token where a key may have started back no longer, if it is at a certain place. -/
def release (s : Scanner) (place : Nat) : Scanner :=
  if s.openKey.place = place then { s with openKey := { s.openKey with held := false } } else s

/-- Gives up on the key that may have started. -/
def dropKey (s : Scanner) : Option Scanner :=
  if s.openKey.possible then
    if s.openKey.required then none
    else some { s with openKey := { s.openKey with possible := false, held := false } }
  else some s

/-- Notes that a key may start here. -/
def noteKey (s : Scanner) : Option Scanner := do
  if !s.keyAllowed then return s
  let s ← s.dropKey
  return { s with openKey := {
    place := s.tokens.size
    possible := true
    required := !s.inFlow && s.blocks.head? == some s.cursor.column
    held := true
    index := s.cursor.index
    line := s.cursor.line
    column := s.cursor.column } }

/-- How long a key may be. -/
def maxKeyLength : Nat := 1024

/-- Whether a key that started may still be one: it lies on one line and is not too long. Where
    there has to be one it fails. -/
def isCurrent (s : Scanner) (k : KeyPlace) : Option Bool :=
  if !k.possible then some false
  else if s.cursor.line ≤ k.line && s.cursor.index ≤ k.index + maxKeyLength then some true
  else if k.required then none
  else some false

/-! ## Blocks -/

/-- Opens a block if the indentation grows. -/
def openBlock (s : Scanner) (column : Nat) (emit : Scanner → Scanner) : Option Scanner :=
  if s.inFlow || !s.blocks.head?.all (· < column) then some s
  else if maxDepth ≤ s.blocks.length then none
  else some (emit { s with blocks := column :: s.blocks })

/-- Opens a block here if the indentation grows. Nothing but a key may come before. -/
def openBlockHere (s : Scanner) (t : Token) : Option Scanner :=
  if s.inFlow then some s
  else if !s.keyAllowed then none
  else s.openBlock s.cursor.column (·.emit t)

/-- Closes some of the innermost blocks. -/
def closeBlocks (s : Scanner) (closed : Nat → Bool) : Scanner :=
  if s.inFlow then s
  else
    { s with
      blocks := s.blocks.dropWhile closed
      tokens := s.tokens ++ Array.replicate (s.blocks.takeWhile closed).length .blockEnd }

/-! ## Marks -/

/-- Passes over blanks, comments and breaks. Where a key may start, a tab is not a blank. -/
def skipSpace (s : Scanner) : Option Scanner := go (s.length + 1) s
where
  go : Nat → Scanner → Option Scanner
    | 0, s => some s
    | fuel + 1, s => do
      let c ← s.cursor.need 1
      let c := if c.column = 0 && c.window == some byteOrderMark then c.skip else c
      let c ← (← c.need 1).skipWhile fun ch => ch == ' ' || (ch == '\t' && (s.inFlow || !s.keyAllowed))
      let c ← if c.rest.head? == some '#' then c.skipComments else some c
      if c.rest.head?.any isBreak then
        go fuel { s with cursor := (← c.need 2).skipBreak, keyAllowed := s.keyAllowed || !s.inFlow }
      else return { s with cursor := c }

/-- A mark of some characters that allows a key behind it, or does not. -/
def mark (s : Scanner) (t : Token) (length : Nat) (keyAllowed : Bool) : Scanner :=
  { s.emit t with cursor := s.cursor.skips length, keyAllowed := keyAllowed }

/-- Closes every block where no key can go on. -/
def closeAll (s : Scanner) : Option Scanner := (s.closeBlocks fun _ => true).dropKey

/-- The end of the text, which ends the line too. -/
def finish (s : Scanner) : Option Scanner := do
  let cursor :=
    if s.cursor.column = 0 then s.cursor
    else { s.cursor with column := 0, line := s.cursor.line + 1 }
  let s ← { s with cursor := cursor }.closeAll
  return s.mark .textEnd 0 false

/-- A directive. -/
def directive (s : Scanner) : Option Scanner := do
  let s ← s.closeAll
  let (d, cursor) ← readDirective s.cursor
  return { s.emit (.directive d) with cursor := cursor, keyAllowed := false }

/-- The start or end of a document. -/
def document (s : Scanner) (t : Token) : Option Scanner := do
  let s ← s.closeAll
  return s.mark t 3 false

/-- An opening bracket or brace, which may itself be the start of a key. -/
def openFlow (s : Scanner) (t : Token) : Option Scanner := do
  let s ← s.noteKey
  if maxDepth ≤ s.outer.length then none
  return { s.mark t 1 true with outer := s.openKey :: s.outer, openKey := { place := s.tokens.size } }

/-- A closing bracket or brace. If no key started within, what was opened is not held back for
    being one itself. -/
def closeFlow (s : Scanner) (t : Token) : Option Scanner := do
  let s ← s.dropKey
  let s := match s.outer with
    | [] => s
    | k :: outer => { s with openKey := k, outer := outer }.release s.openKey.place
  return s.mark t 1 false

/-- A comma. -/
def comma (s : Scanner) : Option Scanner := do
  let s ← s.dropKey
  return s.mark .comma 1 true

/-- The dash of a sequence entry. -/
def dash (s : Scanner) : Option Scanner := do
  let s ← (← s.openBlockHere .blockSequence).dropKey
  return s.mark .dash 1 true

/-- The question mark of an explicit key. -/
def explicitKey (s : Scanner) : Option Scanner := do
  let s ← (← s.openBlockHere .blockMapping).dropKey
  return s.mark .key 1 (!s.inFlow)

/-- A colon. What it follows turns out to be a key; without one it has to start a line. -/
def colon (s : Scanner) : Option Scanner := do
  let k := s.openKey
  if ← s.isCurrent k then
    let s ← (s.emitAt k.place .key).openBlock k.column (·.emitAt k.place .blockMapping)
    let s := { s with openKey := { k with possible := false, held := false } }
    return s.mark .value 1 false
  else
    let s := { s with openKey := { k with possible := false } }
    let s ← s.openBlockHere .blockMapping
    return s.mark .value 1 (!s.inFlow)

/-! ## Words -/

/-- Something that may turn out to be a key or to belong to one. -/
def word {α : Type} (s : Scanner) (read : Cursor → Option (α × Cursor)) (t : α → Token) :
    Option Scanner := do
  let s ← s.noteKey
  let (a, cursor) ← read s.cursor
  return { s.emit (t a) with cursor := cursor, keyAllowed := false }

/-- Plain text, which may turn out to be a key. -/
def plain (s : Scanner) : Option Scanner := do
  let s ← s.noteKey
  let (text, cursor, broken) ← plainText s.inFlow (s.blocks.head?.elim 0 (· + 1)) s.cursor
  return { s.emit (.scalar true text) with cursor := cursor, keyAllowed := broken }

/-- Quoted text, which may turn out to be a key. -/
def quoted (s : Scanner) (single : Bool) : Option Scanner :=
  s.word (fun c => quotedText single c.skip) (.scalar false)

/-- A block of text, which is no key. -/
def block (s : Scanner) (literal : Bool) : Option Scanner := do
  let s ← s.dropKey
  let (text, cursor) ← blockText literal s.blocks.head? s.cursor.skip
  return { s.emit (.scalar false text) with cursor := cursor, keyAllowed := true }

/-- Whether plain text can start with a character. -/
def startsPlain (s : Scanner) (c : Char) (rest : List Char) : Bool :=
  !(isBlank c || isBreak c || "-?:,[]\x7b\x7d#&*!|>'\"%@`".toList.contains c) ||
    (c == '-' && !rest.head?.any isBlank) ||
    (!s.inFlow && (c == '?' || c == ':') && !endsWord rest)

/-- Reads the next token within a document, which starts with the given character. -/
def token (s : Scanner) (c : Char) (rest : List Char) : Option Scanner :=
  match c with
  | '[' => s.openFlow .openBracket
  | '\x7b' => s.openFlow .openBrace
  | ']' => s.closeFlow .closeBracket
  | '\x7d' => s.closeFlow .closeBrace
  | ',' => s.comma
  | '*' => s.word readName .reference
  | '&' => s.word readName .anchor
  | '!' => s.word readTag .tag
  | '\'' => s.quoted true
  | '"' => s.quoted false
  | _ =>
    if c == '-' && endsWord rest then s.dash
    else if c == '?' && (s.inFlow || endsWord rest) then s.explicitKey
    else if c == ':' && (s.inFlow || endsWord rest) then s.colon
    else if c == '|' && !s.inFlow then s.block true
    else if c == '>' && !s.inFlow then s.block false
    else if s.startsPlain c rest then s.plain
    else none

/-- Passes over a comment in the line of the last token. Behind a dash it belongs to what
    follows. -/
def skipLineComment (s : Scanner) : Option Scanner := do
  if s.tokens.back? == some .dash then return s
  return { s with cursor := ← s.cursor.skipLineComment }

/-- Reads the next token, and those that show which blocks ended before it. -/
def fetch (s : Scanner) : Option Scanner := do
  let s ← s.skipSpace
  let s := s.closeBlocks (s.cursor.column < ·)
  let s := { s with cursor := ← s.cursor.need 4 }
  match s.cursor.rest with
  | [] => s.finish
  | c :: rest =>
    if s.cursor.column = 0 && c == '%' then s.directive
    else if s.cursor.atDocumentMark then
      s.document (if c == '-' then .documentStart else .documentEnd)
    else (← s.token c rest).skipLineComment

/-- How many tokens have to be known behind the next one. -/
def lookahead : Nat := 2

/-- Whether the next token is known: enough tokens were read, and no key can turn out to start
    before it. -/
def isReady (s : Scanner) : Option Bool :=
  if s.handed + lookahead < s.tokens.size then
    match (s.openKey :: s.outer).find? fun k => k.held && k.place = s.handed with
    | none => some true
    | some k => (s.isCurrent k).map (!·)
  else some false

/-- The next token. -/
def peek (s : Scanner) : Option (Token × Scanner) := go (s.length + lookahead + 4) s
where
  go : Nat → Scanner → Option (Token × Scanner)
    | 0, _ => none
    | fuel + 1, s => do
      if ← s.isReady then return (← s.tokens[s.handed]?, s)
      go fuel (← s.fetch)

/-- Hands the next token out. -/
def next (s : Scanner) : Scanner := { s with handed := s.handed + 1 }

end Scanner

end SymbolicMemory.Yaml
