import SymbolicMemory.Yaml.Token

/-! # Nodes

The tree that a document stands for: scalars, sequences and mappings. Where a node
has a name, others may be aliases of it, also such as lie within it. Reading nodes
from tokens takes one token at a time and never looks further than the next.
-/

namespace SymbolicMemory.Yaml

/-- A value in a document. -/
inductive Node where
  /-- Text, its tag if it has one, and whether it was written plainly. -/
  | scalar (plain : Bool) (tag : Option (List Char)) (text : List Char)
  | sequence (items : List Node)
  /-- Keys with their values, in order. -/
  | mapping (entries : List (Node × Node))
  /-- Stands for the named node of a number. Aliases are numbered too. -/
  | reference (number : Nat) (name : List Char) (target : Nat)
  deriving Inhabited

/-- A document: its value, and every node in it that has a name. -/
structure Document where
  root : Node
  named : Array Node

/-- What is known half-way through a document. -/
structure Reader where
  scanner : Scanner
  /-- What the handles of tags stand for. -/
  handles : List (List Char × List Char) := []
  /-- The numbers of named nodes, newest first. -/
  names : List (List Char × Nat) := []
  named : Array Node := #[]
  /-- How many aliases there are. -/
  aliases : Nat := 0

/-- Reading goes from token to token, and may fail. -/
abbrev Reading := StateT Reader Option

namespace Reading

/-- The next token. -/
def peek : Reading Token := fun r => do
  let (t, scanner) ← r.scanner.peek
  return (t, { r with scanner := scanner })

/-- Moves past a token. -/
def next : Reading Unit := modify fun r => { r with scanner := r.scanner.next }

/-- Moves past a token if it is the next one. -/
def skip? (t : Token) : Reading Bool := do
  if (← peek) = t then
    next
    return true
  else return false

/-! ## Names and tags -/

/-- A value that was left out. -/
def absent : Node := .scalar true none []

/-- What is said about a value before it. -/
structure Properties where
  /-- The number of the node if it has a name. -/
  number : Option Nat := none
  tag : Option (List Char) := none

/-- Gives a name to the node that follows, which takes it from any other. -/
def declare (name : List Char) : Reading Nat :=
  modifyGet fun r =>
    (r.named.size, { r with names := (name, r.named.size) :: r.names, named := r.named.push absent })

/-- The full text of a tag. Its handle has to be known. -/
def fullTag (t : TagName) : Reading (List Char) := do
  if t.handle.isEmpty then return t.suffix
  let start ← (← get).handles.lookup t.handle
  return start ++ t.suffix

/-- Reads a name and a tag, in any order, if there are any. -/
def properties : Reading Properties := do
  match ← peek with
  | .anchor name =>
    next
    match ← peek with
    | .tag t =>
      next
      return { tag := some (← fullTag t), number := some (← declare name) }
    | _ => return { number := some (← declare name) }
  | .tag t =>
    next
    let tag ← fullTag t
    match ← peek with
    | .anchor name =>
      next
      return { tag := some tag, number := some (← declare name) }
    | _ => return { tag := some tag }
  | _ => return {}

/-- Keeps a node if it has a name. -/
def keep (number : Option Nat) (n : Node) : Reading Node := do
  number.forM fun i => modify fun r => { r with named := r.named.setIfInBounds i n }
  return n

/-- A reference to a node whose name has been given before. -/
def reference (name : List Char) : Reading Node := do
  let r ← get
  let target ← r.names.lookup name
  set { r with aliases := r.aliases + 1 }
  return .reference r.aliases name target

/-! ## Values -/

/-- A value, or none if one of some tokens shows that it was left out. -/
def optional (ends : Token → Bool) (read : Reading Node) : Reading Node := do
  if ends (← peek) then return absent else read

/-- Tokens before which an entry of an indented sequence is empty. -/
def endsItem (t : Token) : Bool := t = .dash || t = .blockEnd

/-- Tokens before which a key or value of an indented mapping is empty. -/
def endsPart (t : Token) : Bool := t = .key || t = .value || t = .blockEnd

/-- Tokens before which an entry of a sequence at the indentation of its key is empty. -/
def endsFlatItem (t : Token) : Bool := t = .dash || endsPart t

/-- Tokens before which a value within brackets is empty. -/
def endsFlow (close t : Token) : Bool := t = .comma || t = close

/-- Moves past the comma between entries, which stands before all but the first. The closing mark
    needs none before it. -/
def separate (first : Bool) (close : Token) : Reading Unit := do
  if !first && (← peek) ≠ close then
    if !(← skip? .comma) then failure

mutual

/-- Reads a node. Blocks are read outside brackets only, and a sequence without an indentation
    of its own only as a part of a mapping. -/
def value (fuel : Nat) (block flat : Bool) : Reading Node :=
  match fuel with
  | 0 => failure
  | fuel + 1 => do
    match ← peek with
    | .reference name =>
      next
      reference name
    | _ =>
      let p ← properties
      keep p.number (← content fuel block flat p)

/-- Reads a node behind its name and tag, which may be all there is. -/
def content (fuel : Nat) (block flat : Bool) (p : Properties) : Reading Node :=
  match fuel with
  | 0 => failure
  | fuel + 1 => do
    let t ← peek
    match t with
    | .scalar plain text =>
      next
      return .scalar plain p.tag text
    | .openBracket =>
      next
      return .sequence (← flowItems fuel true [])
    | .openBrace =>
      next
      return .mapping (← flowEntries fuel true [])
    | _ =>
      if flat && t = .dash then return .sequence (← flatItems fuel [])
      else if block && t = .blockSequence then
        next
        return .sequence (← blockItems fuel [])
      else if block && t = .blockMapping then
        next
        return .mapping (← blockEntries fuel [])
      else if p.number.isSome || p.tag.isSome then return .scalar true p.tag []
      else failure

/-- Reads the entries of an indented sequence. -/
def blockItems (fuel : Nat) (items : List Node) : Reading (List Node) :=
  match fuel with
  | 0 => failure
  | fuel + 1 => do
    if ← skip? .dash then
      let item ← optional endsItem (value fuel true false)
      blockItems fuel (item :: items)
    else if ← skip? .blockEnd then return items.reverse
    else failure

/-- Reads the entries of a sequence at the indentation of its key. -/
def flatItems (fuel : Nat) (items : List Node) : Reading (List Node) :=
  match fuel with
  | 0 => failure
  | fuel + 1 => do
    if ← skip? .dash then
      let item ← optional endsFlatItem (value fuel true false)
      flatItems fuel (item :: items)
    else return items.reverse

/-- Reads the entries of an indented mapping. -/
def blockEntries (fuel : Nat) (entries : List (Node × Node)) : Reading (List (Node × Node)) :=
  match fuel with
  | 0 => failure
  | fuel + 1 => do
    if ← skip? .key then
      let k ← optional endsPart (value fuel true true)
      let v ← if ← skip? .value then optional endsPart (value fuel true true) else pure absent
      blockEntries fuel ((k, v) :: entries)
    else if ← skip? .blockEnd then return entries.reverse
    else failure

/-- Reads the entries of a sequence in brackets. A key with a value is a mapping of its own. -/
def flowItems (fuel : Nat) (first : Bool) (items : List Node) : Reading (List Node) :=
  match fuel with
  | 0 => failure
  | fuel + 1 => do
    separate first .closeBracket
    if ← skip? .closeBracket then return items.reverse
    else if ← skip? .key then
      let k ← pairKey fuel
      let v ← flowValue fuel .closeBracket
      flowItems fuel false (.mapping [(k, v)] :: items)
    else
      let item ← value fuel false false
      flowItems fuel false (item :: items)

/-- Reads the key of a pair in brackets. If it was left out, so is the mark that shows it. -/
def pairKey (fuel : Nat) : Reading Node :=
  match fuel with
  | 0 => failure
  | fuel + 1 => do
    let t ← peek
    if t = .value || endsFlow .closeBracket t then
      next
      return absent
    else value fuel false false

/-- Reads the entries of a mapping in braces. A key may stand alone. -/
def flowEntries (fuel : Nat) (first : Bool) (entries : List (Node × Node)) :
    Reading (List (Node × Node)) :=
  match fuel with
  | 0 => failure
  | fuel + 1 => do
    separate first .closeBrace
    if ← skip? .closeBrace then return entries.reverse
    else if ← skip? .key then
      let k ← optional (fun t => t = .value || endsFlow .closeBrace t) (value fuel false false)
      let v ← flowValue fuel .closeBrace
      flowEntries fuel false ((k, v) :: entries)
    else
      let k ← value fuel false false
      flowEntries fuel false ((k, absent) :: entries)

/-- Reads the value of a key within brackets, which may be left out. -/
def flowValue (fuel : Nat) (close : Token) : Reading Node :=
  match fuel with
  | 0 => failure
  | fuel + 1 => do
    if ← skip? .value then optional (endsFlow close) (value fuel false false) else return absent

end

/-! ## Documents -/

/-- The version that documents may ask for. -/
def version : Nat × Nat := (1, 1)

/-- What handles stand for unless a document says otherwise. -/
def defaultHandles : List (List Char × List Char) :=
  [("!".toList, "!".toList), ("!!".toList, "tag:yaml.org,2002:".toList)]

/-- Reads the directives of a document. None may be given twice. -/
def directives : (fuel : Nat) → (versioned : Bool) → Reading Unit
  | 0, _ => failure
  | fuel + 1, versioned => do
    match ← peek with
    | .directive (.version major minor) =>
      if versioned || (major, minor) ≠ version then failure
      next
      directives fuel true
    | .directive (.handle handle start) =>
      let r ← get
      if (r.handles.lookup handle).isSome then failure
      set { r with handles := (handle, start) :: r.handles }
      next
      directives fuel versioned
    | _ => modify fun r => { r with handles := r.handles ++ defaultHandles }

/-- Tokens before which a document is empty. -/
def endsDocument : Token → Bool
  | .directive _ | .documentStart | .documentEnd | .textEnd => true
  | _ => false

/-- Whether a token is a directive, behind which a document has to start with a mark. -/
def isDirective : Token → Bool
  | .directive _ => true
  | _ => false

/-- Reads the first document of a text, if there is one. Of what follows only the next token
    matters, and only as far as it can be read. -/
def document (fuel : Nat) : Reading (Option Node) := do
  next
  let first ← peek
  if first = .textEnd then return none
  directives fuel false
  let explicit ← skip? .documentStart
  if isDirective first && !explicit then failure
  let root ← if explicit then optional endsDocument (value fuel true false) else value fuel true false
  discard peek
  return some root

end Reading

/-- Reads the first document of an encoded text. A text without one gives none, which is no
    failure. -/
def Document.ofBytes (bytes : List UInt8) : Option (Option Document) := do
  let scanner ← Scanner.ofBytes bytes
  let (root, r) ← Reading.document (16 * scanner.length + 64) { scanner := scanner }
  return root.map (⟨·, r.named⟩)

end SymbolicMemory.Yaml
