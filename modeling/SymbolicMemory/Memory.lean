import SymbolicMemory.Concretizer
import SymbolicMemory.Store

/-! # Memories

A memory is a store behind symbolic addresses. Addresses have a fixed width and
wrap around; values of several bytes lie in one of the two byte orders. A store to
a symbolic address picks one concrete address, a load may take several into account
and then returns a variable that is tied to all of them.
-/

namespace SymbolicMemory

/-- A byte-addressed symbolic memory. -/
structure Memory where
  /-- The address width in bits. -/
  bits : UInt64
  /-- Whether the least significant byte comes first. -/
  littleEndian : Bool
  concretizer : Concretizer
  store : Store

/-- What a memory is made from. Zeros and an empty id stand for the defaults. -/
structure MemoryOptions where
  id : String := ""
  bits : UInt64 := 0
  limit : Int := 0
  littleEndian : Bool := false
  image : Image := .empty
  regions : RegionTable := {}
  supply : Supply := .own

namespace Memory

/-- The address width unless set otherwise. -/
def defaultBits : UInt64 := 64

/-- The id unless set otherwise. -/
def defaultId : String := "mem"

/-- A memory in which nothing was read or written yet. -/
def new (options : MemoryOptions) : Except Fault Memory :=
  let bits := if options.bits = 0 then defaultBits else options.bits
  if 64 < bits then .error (.addressWidth bits)
  else .ok {
    bits := bits
    littleEndian := options.littleEndian
    concretizer := {
      limit := if options.limit = 0 then Concretizer.defaultLimit else options.limit
      regions := options.regions }
    store := {
      id := if options.id = "" then defaultId else options.id
      image := options.image
      supply := options.supply } }

/-- The first part of the names of fresh variables. -/
def id (m : Memory) : String := m.store.id

/-- An address within the address space. -/
def wrap (m : Memory) (address : UInt64) : UInt64 := address &&& mask m.bits

/-- A computation on the store of a memory. -/
def onStore {α : Type} (x : On Store α) : On Memory α :=
  On.part Memory.store (fun store m => { m with store := store }) x

/-- The byte at an address, wrapped around. -/
def readCell (address : UInt64) : On Memory Expr := do
  let m ← On.thing
  onStore (Store.read (m.wrap address))

/-- Replaces the byte at an address, wrapped around. -/
def writeCell (address : UInt64) (cell : Expr) : On Memory Unit := do
  let m ← On.thing
  onStore (Store.write (m.wrap address) cell)

/-- Joins the next `count` bytes from an address on to those that were read before. -/
def readMore (address : UInt64) : (count : Nat) → (soFar : Expr) → On Memory Expr
  | 0, soFar => return soFar
  | count + 1, soFar => do
    let cell ← readCell address
    let m ← On.thing
    let joined ← Session.make
      (if m.littleEndian then Expr.append cell soFar else Expr.append soFar cell)
    readMore (address + 1) count joined

/-- The value of `count` bytes, at least one, from an address on. -/
def readValue (address : UInt64) (count : Nat) : On Memory Expr := do
  let first ← readCell address
  readMore (address + 1) (count - 1) first

/-- Writes the last `left` of the `count` bytes of a value, from an address on. -/
def writeMore (value : Expr) (count : Nat) : (left : Nat) → (address : UInt64) → On Memory Unit
  | 0, _ => return ()
  | left + 1, address => do
    let m ← On.thing
    let place := if m.littleEndian then count - (left + 1) else left
    let cell ← Session.make (value.slice (8 * UInt64.ofNat place) 8)
    writeCell address cell
    writeMore value count left (address + 1)

/-- Writes the bytes of a value from an address on. -/
def writeValue (address : UInt64) (value : Expr) : On Memory Unit :=
  let count := (value.width / 8).toNat
  writeMore value count count address

/-- An address at the width of the address space. -/
def sized (m : Memory) (address : Value) : Run Value := do
  if address.width = m.bits then return address
  return address.withExpr (← Session.make (address.expr.resize m.bits))

/-- The constraint that an address is a concrete one. -/
def pinned (m : Memory) (address : Value) (concrete : UInt64) : Except Fault Expr := do
  Expr.apply .eq address.expr (← Expr.constant concrete m.bits)

/-- The concrete addresses for an access, or the error of that access. -/
def concretize (access : Access) (address : Value) (strategies : List Strategy) :
    On Memory Addresses := do
  let m ← On.thing
  try
    m.concretizer.concretize address strategies
  catch
    | .error e => throw (.error (.access access address.expr e))
    | failure => throw failure

/-- Stores a value at an address. Returns the constraint that ties the address to where the
    value went. A failed store writes nothing. -/
def storeAt (address : Value) (value : Expr) : On Memory (List Expr) := do
  Session.count .store
  if value.width = 0 ∨ value.width % 8 ≠ 0 then throw (.fault (.storedWidth value.width))
  let m ← On.thing
  let address ← m.sized address
  let addresses ← concretize .store address Strategy.forStore
  writeValue addresses.first value
  return [← Session.make (m.pinned address addresses.first)]

/-- The cases of a load from several addresses: the result is what stands at one of them, and
    the address is that one. -/
def readCases (address : Value) (result : Expr) (count : Nat) : List UInt64 → On Memory (List Expr)
  | [] => return []
  | concrete :: rest => do
    let value ← readValue concrete count
    let m ← On.thing
    let here ← Session.make do
      let same ← Expr.apply .eq result value
      let place ← m.pinned address concrete
      Expr.all [same, place]
    return here :: (← readCases address result count rest)

/-- Loads `width` bits from an address. Returns the value and the constraint under which it
    is the value. From several addresses a fresh variable is returned, which is one of the
    values that stand there. -/
def loadFrom (address : Value) (width : UInt64) : On Memory (Expr × List Expr) := do
  Session.count .load
  if width = 0 ∨ width % 8 ≠ 0 ∨ 64 < width then throw (.fault (.loadedWidth width))
  let m ← On.thing
  let address ← m.sized address
  let count := (width / 8).toNat
  let addresses ← concretize .load address Strategy.forLoad
  if addresses.others.isEmpty then
    let value ← readValue addresses.first count
    let place ← Session.make (m.pinned address addresses.first)
    return (value, [place])
  else
    let name ← Session.draw m.store.supply (·.nextAddr m.id)
    let result ← Session.make (Expr.named name width)
    let cases ← readCases address result count addresses.toList
    Session.record (.loadedFromMany m.id name addresses.toList.length)
    let choice ← Session.make (Expr.any cases)
    return (result, [choice])

/-- A memory with the same content and settings, which goes its own way from here. -/
def branch : On Memory Memory := do
  let m ← On.thing
  Session.record (.branching m.id m.store.size)
  let store ← onStore Store.branch
  return { m with store := store }

/-- The bytes at the next `count` addresses behind those that were read before, which are
    listed last first. -/
def readEach (address : UInt64) : (count : Nat) → (soFar : List Expr) → On Memory (List Expr)
  | 0, soFar => return soFar.reverse
  | count + 1, soFar => do
    let cell ← readCell address
    readEach (address + 1) count (cell :: soFar)

/-- The most bytes that can be read at once. -/
def maxBytes : Int := Int.pow 2 44

/-- The bytes from a concrete address on. -/
def readBytes (address : UInt64) (count : Int) : On Memory (List Expr) := do
  if count < 0 ∨ maxBytes < count then throw (.fault (.cellCount count))
  readEach address count.toNat []

/-- Writes bytes from a concrete address on. -/
def writeBytes (address : UInt64) : List UInt8 → On Memory Unit
  | [] => return ()
  | b :: rest => do
    let cell ← Session.make (.ok (.ofByte b))
    writeCell address cell
    writeBytes (address + 1) rest

/-- What the memory holds, one line per byte. -/
def dump (m : Memory) : String :=
  "id=" ++ m.id ++ " bits=" ++ Text.decimal m.bits ++ " cells=" ++ m.store.size.repr ++ "\n" ++
    String.join (m.store.toList.map fun (address, cell) =>
      Text.hexAddress address ++ " " ++ cell.text ++ "\n")

end Memory

end SymbolicMemory
