import SymbolicMemory.Yaml.Node
import SymbolicMemory.Yaml.Scalar

/-! # Values from nodes

A node is decoded as a value of an expected type: text, a number, a truth value, a
list, or a record whose fields are the keys of a mapping. A node that stands for
nothing leaves a field as it is. A node of the wrong type is noted, and decoding
goes on; other problems end it at once.

A mapping may take entries from other mappings. It has its own entries first, and
of several mappings the first that has a key counts.
-/

namespace SymbolicMemory.Yaml

/-- Why decoding ends before everything has been seen. -/
inductive Refusal where
  /-- A scalar is not what its tag says, an alias lies within what it stands for, or the like. -/
  | malformed
  /-- Keys have to be told apart of which one is a collection. -/
  | collectionKey
  deriving DecidableEq, Repr

/-- What is known half-way through decoding. -/
structure Decoder where
  /-- The nodes that aliases stand for. -/
  named : Array Node
  /-- How many nodes have been decoded. -/
  decoded : Nat := 0
  /-- How many of them within what an alias stands for. -/
  aliased : Nat := 0
  /-- The aliases that are being followed. -/
  following : List Nat := []
  /-- The keys that count already where entries are taken from other mappings. -/
  taken : Option (List Scalar) := none
  /-- Whether some node had the wrong type. -/
  wrong : Bool := false

/-- Decoding goes from node to node. -/
abbrev Decoding := EStateM Refusal Decoder

namespace Decoding

/-! ## Nodes -/

/-- Whether aliases are the cause of too many of all nodes: in a small document they may be the
    cause of nearly all of them, in a large one of few. -/
def isExcessive (aliased decoded : Nat) : Bool :=
  100 < aliased && 1000 < decoded &&
    (if decoded ≤ 400000 then 99 * decoded < 100 * aliased
    else if 4000000 ≤ decoded then decoded < 10 * aliased
    else decoded * (99 * 3600000 - 89 * (decoded - 400000)) < 100 * 3600000 * aliased)

/-- Counts a node. -/
def count : Decoding Unit := do
  let d ← get
  let d := { d with
    decoded := d.decoded + 1
    aliased := if d.following.isEmpty then d.aliased else d.aliased + 1 }
  set d
  if isExcessive d.aliased d.decoded then throw .malformed

/-- Decodes a node by what it is, or by what it stands for. -/
def visit {α : Type} (read : Node → Decoding α) (n : Node) : Decoding α := do
  count
  match n with
  | .reference number _ target =>
    let d ← get
    if d.following.contains number then throw .malformed
    let some node := d.named[target]? | throw .malformed
    set { d with following := number :: d.following }
    count
    let a ← read node
    modify ({ · with following := d.following })
    return a
  | n => read n

/-- Notes that a node has the wrong type. -/
def wrongType {α : Type} : Decoding (Option α) := do
  modify ({ · with wrong := true })
  return none

/-- What a scalar stands for. -/
def scalar (plain : Bool) (tag : Option (List Char)) (text : List Char) : Decoding Scalar :=
  match Scalar.ofTagged (Scalar.tagOf plain tag text) text with
  | some s => pure s
  | none => throw .malformed

/-- Decodes a scalar, given what it stands for and how it is written. One that stands for nothing
    gives none. -/
def ofScalar {α : Type} (read : Scalar → List Char → Option α) : Node → Decoding (Option α)
  | .scalar plain tag text => do
    match ← scalar plain tag text with
    | .null => return none
    | s =>
      match read s text with
      | some a => return some a
      | none => wrongType
  | _ => wrongType

/-- Text. Scalars of other kinds count as they are written. -/
def text : Node → Decoding (Option String) :=
  ofScalar fun s written =>
    match s with
    | .text t => some (String.ofList t)
    | _ => some (String.ofList written)

/-- A signed number. -/
def signed : Node → Decoding (Option Int) := ofScalar fun s _ => s.toSigned

/-- An unsigned number. -/
def unsigned : Node → Decoding (Option UInt64) := ofScalar fun s _ => s.toUnsigned

/-- A truth value. The words for on and off count too. -/
def bool : Node → Decoding (Option Bool) :=
  ofScalar fun s _ =>
    match s with
    | .bool b => some b
    | .text t =>
      let word := String.ofList t
      if ["y", "Y", "yes", "Yes", "YES", "on", "On", "ON"].contains word then some true
      else if ["n", "N", "no", "No", "NO", "off", "Off", "OFF"].contains word then some false
      else none
    | _ => none

/-- A list. Items that stand for nothing are passed over, and nothing is a list without any. -/
def list {α : Type} (item : Node → Decoding (Option α)) : Node → Decoding (Option (List α))
  | .sequence items => return some (← items.filterMapM (visit item))
  | .scalar plain tag text => do
    match ← scalar plain tag text with
    | .null => return some []
    | _ => wrongType
  | _ => wrongType

/-! ## Mappings -/

/-- Whether two keys are written alike. Keys that are collections are alike if of one kind. -/
def sameKey : Node → Node → Bool
  | .scalar _ _ a, .scalar _ _ b => a == b
  | .reference _ a _, .reference _ b _ => a == b
  | .sequence _, .sequence _ => true
  | .mapping _, .mapping _ => true
  | _, _ => false

/-- Whether no key occurs twice. -/
def keysDiffer : List (Node × Node) → Bool
  | [] => true
  | (key, _) :: rest => !rest.any (fun (other, _) => sameKey key other) && keysDiffer rest

/-- Whether the value of a key is a mapping to take entries from. -/
def isMerge : Node → Bool
  | .scalar plain tag text => text = Scalar.mergeKey && Scalar.tagOf plain tag text = .merge
  | _ => false

/-- The last value from which entries are taken, if any, and all other entries. -/
def splitMerge (entries : List (Node × Node)) : Option Node × List (Node × Node) :=
  ((entries.reverse.find? fun (key, _) => isMerge key).map (·.2),
    entries.filter fun (key, _) => !isMerge key)

/-- Takes a key, and tells whether it was there to be taken. -/
def take (key : Scalar) : Decoding Bool := do
  match (← get).taken with
  | none => return true
  | some taken =>
    if taken.contains key then return false
    modify ({ · with taken := some (key :: taken) })
    return true

/-- Does something with a set of taken keys and goes back to the one before. -/
def withTaken {α : Type} (taken : Option (List Scalar)) (act : Decoding α) : Decoding α := do
  let before := (← get).taken
  modify ({ · with taken := taken })
  let a ← act
  modify ({ · with taken := before })
  return a

/-- Decodes the value of an entry, which starts with no keys taken. -/
def entryValue {α : Type} (act : Decoding α) : Decoding α := withTaken none act

/-- Takes entries from a mapping, or from several in turn. Nothing else may stand there. -/
def merge {α : Type} (ownKeys : Decoding Unit) (add : α → Node → Decoding α) (source : Node) (a : α) :
    Decoding α := do
  match (← get).taken with
  | some _ => addAll a
  | none =>
    withTaken (some []) do
      ownKeys
      addAll a
where
  isMapping (n : Node) : Decoding Bool := do
    match n with
    | .mapping _ => return true
    | .reference _ _ target => return (← get).named[target]?.any fun
      | .mapping _ => true
      | _ => false
    | _ => return false
  one (a : α) (n : Node) : Decoding α := do
    if ← isMapping n then add a n else throw .malformed
  addAll (a : α) : Decoding α :=
    match source with
    | .sequence items => items.foldlM one a
    | n => one a n

/-! ## Any values -/

/-- A value of no expected type, as far as it can be a key. -/
inductive AnyValue where
  | scalar (s : Scalar)
  | collection

/-- Whether all keys of a mapping are text. -/
def hasTextKeys (entries : List (Node × Node)) : Decoding Bool := do
  let named := (← get).named
  return entries.all fun (key, _) =>
    match key with
    | .reference _ _ target => named[target]?.any isText
    | key => isText key
where
  isText : Node → Bool
    | .scalar plain tag text =>
      let t := Scalar.tagOf plain tag text
      t = .text || t = .merge
    | _ => false

mutual

/-- Decodes a value of no expected type. -/
def any (fuel : Nat) (n : Node) : Decoding (Option AnyValue) :=
  match fuel with
  | 0 => throw .malformed
  | fuel + 1 => do
    match n with
    | .scalar plain tag text => return some (.scalar (← scalar plain tag text))
    | .sequence items =>
      items.forM fun item => discard (visit (any fuel) item)
      return some .collection
    | .mapping entries => anyMapping fuel (← hasTextKeys entries) entries
    | .reference _ _ _ => throw .malformed

/-- Decodes a mapping of no expected type, with keys that are text or anything. -/
def anyMapping (fuel : Nat) (textKeys : Bool) (entries : List (Node × Node)) : Decoding (Option AnyValue) :=
  match fuel with
  | 0 => throw .malformed
  | fuel + 1 => do
    if !keysDiffer entries then return ← wrongType
    let (source, own) := splitMerge entries
    own.forM fun (key, value) => do
      let key ←
        entryValue <|
        if textKeys then do return (← visit text key).map fun s => .scalar (.text s.toList)
        else visit (any fuel) key
      match key with
      | none => return
      | some .collection => throw (if (← get).taken.isSome then .collectionKey else .malformed)
      | some (.scalar s) =>
        if ← take s then discard (entryValue (visit (any fuel) value))
    source.forM fun source =>
      merge (takeKeys fuel entries) (fun _ n => discard (visit (into fuel textKeys) n)) source ()
    return some .collection

/-- Takes entries from a mapping of no expected type. -/
def into (fuel : Nat) (textKeys : Bool) (n : Node) : Decoding (Option AnyValue) :=
  match fuel with
  | 0 => throw .malformed
  | fuel + 1 =>
    match n with
    | .mapping entries => anyMapping fuel textKeys entries
    | _ => throw .malformed

/-- Takes the keys of a mapping. -/
def takeKeys (fuel : Nat) (entries : List (Node × Node)) : Decoding Unit :=
  match fuel with
  | 0 => throw .malformed
  | fuel + 1 =>
    entries.forM fun (key, _) => do
      match ← visit (any fuel) key with
      | none => return
      | some .collection => throw .collectionKey
      | some (.scalar s) => discard (take s)

end

/-! ## Records -/

/-- How one field of a record is decoded. -/
abbrev Field (α : Type) := α → Node → Decoding α

/-- A field, given how its value is decoded and set. -/
def field {α β : Type} (read : Node → Decoding (Option β)) (put : α → β → α) : Field α := fun a n => do
  return ((← visit read n).map (put a)).getD a

/-- Decodes a mapping into a record, given its fields by name; other keys are passed over. Keys
    have to differ. A key that stands for nothing is passed over too. -/
def record {α : Type} (fields : String → Option (Field α)) : (fuel : Nat) → (a : α) → Node →
    Decoding (Option α)
  | 0, _, _ => throw .malformed
  | fuel + 1, a, n => do
    match n with
    | .mapping entries =>
      if !keysDiffer entries then return ← wrongType
      let (source, own) := splitMerge entries
      let (a, _) ← own.foldlM entry (a, [])
      match source with
      | none => return some a
      | some source =>
        let a ← merge (takeKeys fuel entries)
          (fun a n => return (← visit (record fields fuel a) n).getD a) source a
        return some a
    | n => ofScalar (fun _ _ => none) n
where
  entry : α × List String → Node × Node → Decoding (α × List String)
    | (a, done), (key, value) => do
      match ← entryValue (visit text key) with
      | none => return (a, done)
      | some name =>
        if !(← take (.text name.toList)) then return (a, done)
        match fields name with
        | none => return (a, done)
        | some set =>
          if done.contains name then
            discard (wrongType : Decoding (Option α))
            return (a, done)
          return (← entryValue (set a value), name :: done)

end Decoding

/-- Decodes the first document of an encoded text, given how its root is decoded with enough fuel.
    A text without a document, or one that stands for nothing, gives what there was. -/
def decode {α : Type} (read : (fuel : Nat) → α → Node → Decoding (Option α)) (start : α)
    (bytes : List UInt8) : Except Refusal α :=
  match Document.ofBytes bytes with
  | none => .error .malformed
  | some none => .ok start
  | some (some doc) =>
    let fuel := (bytes.length + 2) * (bytes.length + 2)
    match (Decoding.visit (read fuel start) doc.root).run { named := doc.named, decoded := 1 } with
    | .error e _ => .error e
    | .ok a d => if d.wrong then .error .malformed else .ok (a.getD start)

end SymbolicMemory.Yaml
