import Std.Data.TreeMap
import SymbolicMemory.Expr.Build
import SymbolicMemory.Image
import SymbolicMemory.Session

/-! # Stores

A store holds one byte expression per address. A byte that was never touched comes
into being when it is first read: from the image where that has one, else as a
fresh variable. From then on it stays the same node until it is overwritten.
-/

namespace SymbolicMemory

/-- Bytes by address. -/
structure Store where
  /-- The first part of the names of fresh bytes. -/
  id : String
  image : Image := .empty
  supply : Supply := .own
  cells : Std.TreeMap UInt64 Expr := ∅

namespace Store

/-- How many bytes were read or written. -/
def size (s : Store) : Nat := s.cells.size

/-- The bytes that were read or written, in address order. -/
def toList (s : Store) : List (UInt64 × Expr) := s.cells.toList

/-- A byte that was never touched. -/
def materialize (s : Store) (address : UInt64) : Run Expr := do
  match s.image address with
  | some b =>
    let cell ← Session.make (.ok (.ofByte b))
    Session.count .imageByte
    return cell
  | none =>
    let name ← Session.draw s.supply (·.nextVar s.id)
    let cell ← Session.make (Expr.named name 8)
    Session.count .freshByte
    return cell

/-- The byte at an address, which is kept from then on. -/
def read (address : UInt64) : On Store Expr := do
  let s ← On.thing
  match s.cells.get? address with
  | some cell => return cell
  | none =>
    let cell ← s.materialize address
    On.change fun s => { s with cells := s.cells.insert address cell }
    return cell

/-- Replaces the byte at an address. -/
def write (address : UInt64) (cell : Expr) : On Store Unit := do
  if cell.width ≠ 8 then throw (.fault (.cellWidth cell.width))
  On.change fun s => { s with cells := s.cells.insert address cell }

/-- A store with the same bytes, which goes its own way from here. -/
def branch : On Store Store := do
  Session.count .branch
  On.thing

end Store

end SymbolicMemory
