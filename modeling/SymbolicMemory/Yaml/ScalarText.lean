import SymbolicMemory.Text.Numeral
import SymbolicMemory.Yaml.Cursor

/-! # The text of scalars

Text is written plain, between quotes, or as a block of lines. However it is
written, line breaks within it are folded: one stands for a space and further ones
for themselves. Only a literal block keeps its lines.
-/

namespace SymbolicMemory.Yaml

/-! ## Plain text -/

/-- Marks that end a word of plain text within brackets. -/
def isFlowMark (c : Char) : Bool := ",?[]\x7b\x7d".toList.contains c

/-- Reads a word of plain text. -/
def plainWord (inFlow : Bool) (c : Cursor) : Option (List Char × Cursor) := go c.rest c []
where
  go : List Char → Cursor → List Char → Option (List Char × Cursor)
    | [], c, word => some (word.reverse, c)
    | ch :: rest, c, word =>
      if isBlank ch || isBreak ch || (ch == ':' && endsWord rest) || (inFlow && isFlowMark ch) then
        some (word.reverse, c)
      else do go rest (← c.skip.need 2) (ch :: word)

/-- Reads plain text, which may go on over several lines as long as they are indented up to a
    column. Returns it with the place behind it and whether a line ended there. -/
def plainText (inFlow : Bool) (column : Nat) (c : Cursor) : Option (List Char × Cursor × Bool) :=
  go (c.rest.length + 1) c [] {}
where
  go : Nat → Cursor → List Char → Gap → Option (List Char × Cursor × Bool)
    | 0, _, _, _ => none
    | fuel + 1, c, soFar, g => do
      let c ← c.need 4
      if c.atDocumentMark || c.rest.head? == some '#' then return (soFar, c, g.broken)
      let (word, c) ← plainWord inFlow c
      let (soFar, g) := if word.isEmpty then (soFar, g) else (soFar ++ g.text ++ word, {})
      if c.rest.isEmpty || !endsWord c.rest then return (soFar, c, g.broken)
      let (g, c) ← (← c.need 1).gap column g
      if !inFlow && c.column < column then return (soFar, c, g.broken)
      go fuel c soFar g

/-! ## Quoted text -/

/-- The number that some hex digits stand for. -/
def hexNumber (digits : List Char) : Option Nat :=
  digits.foldlM
    (fun n c => (Text.Numeral.digitValue? c).bind fun d => if d < 16 then some (16 * n + d) else none) 0

/-- How many digits follow the letter of an escape by number. -/
def escapeDigits? : Char → Option Nat
  | 'x' => some 2
  | 'u' => some 4
  | 'U' => some 8
  | _ => none

/-- The character that the letter of an escape stands for. -/
def escapeChar? : Char → Option Char
  | '0' => some '\x00'
  | 'a' => some '\x07'
  | 'b' => some '\x08'
  | 't' => some '\t'
  | '\t' => some '\t'
  | 'n' => some '\n'
  | 'v' => some '\x0b'
  | 'f' => some '\x0c'
  | 'r' => some '\r'
  | 'e' => some '\x1b'
  | ' ' => some ' '
  | '"' => some '"'
  | '\'' => some '\''
  | '\\' => some '\\'
  | 'N' => some '\u0085'
  | '_' => some '\u00a0'
  | 'L' => some '\u2028'
  | 'P' => some '\u2029'
  | _ => none

/-- Reads an escape, which starts at a backslash and has a certain letter behind it. -/
def readEscape (letter : Char) (c : Cursor) : Option (Char × Cursor) := do
  let c := c.skips 2
  match escapeDigits? letter with
  | none => return (← escapeChar? letter, c)
  | some length =>
    let c ← c.need length
    let digits := c.rest.take length
    if digits.length < length then none
    let n ← hexNumber digits
    if h : n.isValidChar then return (Char.ofNatAux n h, c.skips length) else none

/-- The characters of a quoted line, last first, up to a blank, a break or the closing quote.
    Between single quotes a quote is written twice, between double quotes there are escapes. Also
    tells whether a break was escaped. -/
def quotedLine (single : Bool) : (fuel : Nat) → Cursor → List Char → Option (List Char × Cursor × Bool)
  | 0, c, text => some (text, c, false)
  | fuel + 1, c, text =>
    match c.rest with
    | [] => some (text, c, false)
    | ch :: rest =>
      if isBlank ch || isBreak ch then some (text, c, false)
      else if single && ch == '\'' then
        if rest.head? == some '\'' then do quotedLine single fuel (← (c.skips 2).need 2) ('\'' :: text)
        else some (text, c, false)
      else if !single && ch == '"' then some (text, c, false)
      else if !single && ch == '\\' then
        match rest with
        | [] => none
        | letter :: _ =>
          if isBreak letter then do return (text, (← c.need 3).skip.skipBreak, true)
          else do
            let (escaped, c) ← readEscape letter c
            quotedLine single fuel (← c.need 2) (escaped :: text)
      else do quotedLine single fuel (← c.skip.need 2) (ch :: text)

/-- Reads quoted text from behind the opening quote to behind the closing one. -/
def quotedText (single : Bool) (c : Cursor) : Option (List Char × Cursor) :=
  go (c.rest.length + 1) c []
where
  go : Nat → Cursor → List Char → Option (List Char × Cursor)
    | 0, _, _ => none
    | fuel + 1, c, text => do
      let c ← c.need 4
      if c.atDocumentMark || c.rest.isEmpty then none
      let (text, c, escaped) ← quotedLine single (c.rest.length + 1) c text
      let c ← c.need 1
      if c.rest.head? == some (if single then '\'' else '"') then return (text.reverse, c.skip)
      let (g, c) ← c.gap 0 { broken := escaped }
      go fuel c (g.text.reverse ++ text)

/-! ## Blocks of text -/

/-- What becomes of the breaks at the end of a block. -/
inductive Chomping where
  /-- None is kept. -/
  | strip
  /-- One is kept. -/
  | clip
  /-- All are kept. -/
  | keep
  deriving DecidableEq, Repr

/-- The chomping that a sign asks for. -/
def Chomping.ofSign? : Char → Option Chomping
  | '+' => some .keep
  | '-' => some .strip
  | _ => none

/-- Reads the sign of a block, if there is one. -/
def blockSign (c : Cursor) : Option (Option Chomping × Cursor) := do
  match c.rest.head?.bind Chomping.ofSign? with
  | some chomping => return (some chomping, ← c.skip.need 1)
  | none => return (none, c)

/-- Reads the digit of a block, if there is one, which says how far it is indented. -/
def blockDigit (c : Cursor) : Option (Option Nat × Cursor) := do
  match c.rest.head? with
  | some ch =>
    if ch == '0' then none
    else if ch.isDigit then return (some (ch.toNat - '0'.toNat), ← c.skip.need 1)
    else return (none, c)
  | none => return (none, c)

/-- Reads the sign and the digit behind the mark of a block, in any order. -/
def blockMarks (c : Cursor) : Option (Chomping × Option Nat × Cursor) := do
  match ← blockSign c with
  | (some chomping, c) =>
    let (digit, c) ← blockDigit c
    return (chomping, digit, c)
  | (none, c) =>
    let (digit, c) ← blockDigit c
    if digit.isNone then return (.clip, none, c)
    let (chomping, c) ← blockSign c
    return (chomping.getD .clip, digit, c)

/-- Passes over the indentation of lines and over empty lines, whose breaks are added to some
    others, last first. Where the indentation is not known yet, also tells how far the lines were
    indented at most. -/
def blockBreaks (indent : Option Nat) :
    (fuel : Nat) → (most : Nat) → (breaks : List Char) → Cursor → Option (Nat × List Char × Cursor)
  | 0, most, breaks, c => some (most, breaks, c)
  | fuel + 1, most, breaks, c => do
    let limit := indent.elim c.rest.length (· - c.column)
    let c ← skipSpaces limit (← c.need 1)
    let most := max most c.column
    if indent.all (c.column < ·) && c.rest.head? == some '\t' then none
    match c.rest.head? with
    | some ch =>
      if isBreak ch then
        blockBreaks indent fuel most (breakText ch :: breaks) (← c.need 2).skipBreak
      else return (most, breaks, c)
    | none => return (most, breaks, c)
where
  skipSpaces : Nat → Cursor → Option Cursor
    | 0, c => some c
    | n + 1, c => do
      if c.rest.head? == some ' ' then skipSpaces n (← c.skip.need 1) else return c

/-- What a block holds so far. -/
structure BlockText where
  /-- The text, last character first. -/
  text : List Char := []
  /-- The break behind the last line. -/
  first : List Char := []
  /-- The breaks behind that one, last first. -/
  more : List Char := []
  /-- Whether the last line started with a blank. -/
  blank : Bool := false

/-- Joins the next line to what is there. Only lines that do not start with a blank are folded. -/
def BlockText.join (literal blank : Bool) (b : BlockText) : BlockText :=
  let between :=
    if !literal && !b.blank && !blank && b.first == ['\n'] then
      if b.more.isEmpty then [' '] else []
    else b.first
  { text := b.more ++ between ++ b.text, blank := blank }

/-- The text of a block in the end. -/
def BlockText.finish (chomping : Chomping) (b : BlockText) : List Char :=
  let text := if chomping = .strip then b.text else b.first ++ b.text
  (if chomping = .keep then b.more ++ text else text).reverse

/-- Reads the lines of a block. -/
def blockLines (literal : Bool) (indent : Nat) : (fuel : Nat) → Cursor → BlockText →
    Option (BlockText × Cursor)
  | 0, c, b => some (b, c)
  | fuel + 1, c, b => do
    if c.column != indent || c.rest.isEmpty then return (b, c)
    let b := b.join literal (c.rest.head?.any isBlank)
    let (line, c) ← c.takeWhile 1 fun ch => !isBreak ch
    let c ← c.need 2
    let b := { b with text := line.reverse ++ b.text, first := (c.rest.head?.map breakText).toList }
    let c := if c.rest.isEmpty then c else c.skipBreak
    let (_, more, c) ← blockBreaks (some indent) (c.rest.length + 1) 0 [] c
    blockLines literal indent fuel c { b with more := more }

/-- Reads a block from behind its mark. It is indented beyond the column of what it is in, if
    there is one. -/
def blockText (literal : Bool) (outer : Option Nat) (c : Cursor) : Option (List Char × Cursor) := do
  let (chomping, digit, c) ← blockMarks (← c.need 1)
  let c ← c.skipWhile isBlank
  let c ← if c.rest.head? == some '#' then c.skipWhile fun ch => !isBreak ch else some c
  if !endsLine c.rest then none
  let c ← c.skipBreak?
  let given := digit.map fun n => outer.getD 0 + n
  let (most, more, c) ← blockBreaks given (c.rest.length + 1) 0 [] c
  let indent := given.getD (max (max most (outer.elim 0 (· + 1))) 1)
  let (b, c) ← blockLines literal indent (c.rest.length + 1) (← c.need 1) { more := more }
  return (b.finish chomping, c)

end SymbolicMemory.Yaml
