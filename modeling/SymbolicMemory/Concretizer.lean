import SymbolicMemory.RegionTable
import SymbolicMemory.Value

/-! # Concrete addresses

A concretizer narrows a symbolic address down to concrete ones. An address that can
be one thing only is taken as it is; otherwise strategies are tried in turn, and
the first that yields an address decides.
-/

namespace SymbolicMemory

/-- The condition that an address lies in a region. -/
def Region.condition (r : Region) (address : Expr) : Except Fault Expr := do
  let above ← Expr.apply .uge address (← Expr.constant r.first address.width)
  let below ← Expr.apply .ule address (← Expr.constant r.last address.width)
  Expr.all [above, below]

/-- Concrete addresses, at least one. -/
structure Addresses where
  first : UInt64
  others : List UInt64 := []
  deriving DecidableEq, Repr

/-- The addresses in the order in which they were found. -/
def Addresses.toList (a : Addresses) : List UInt64 := a.first :: a.others

/-- The settings for narrowing addresses down. -/
structure Concretizer where
  /-- How far apart listed addresses may lie, and how many of them there may be; the default
      if not positive. -/
  limit : Int := 1024
  /-- The layout of the address space. -/
  regions : RegionTable := {}

namespace Concretizer

/-- The limit unless set otherwise. -/
def defaultLimit : Int := 1024

/-- The limit in force. -/
def effectiveLimit (c : Concretizer) : Int := if c.limit ≤ 0 then defaultLimit else c.limit

/-- Notes how an address was resolved. -/
def observe (resolution : Resolution) (addresses : Addresses) : Run Addresses := do
  Session.count (.concretization resolution)
  Session.record (.concretized resolution addresses.toList.length)
  return addresses

/-- One address that meets a condition, if there is any. -/
def anyUnder (v : Value) (condition : Expr) : Run (List UInt64) := do
  if condition.isFalse then return []
  try
    pure [← (v.under [condition]).any]
  catch
    | .error e => if e.root = .unsat then pure [] else throw (.error e)
    | failure => throw failure

/-- One address in the first of some regions that can hold one. -/
def anyIn (v : Value) : List Region → Run (List UInt64)
  | [] => return []
  | r :: rest => do
    let condition ← Session.check (r.condition v.expr)
    let found ← anyUnder v condition
    if found.isEmpty then anyIn v rest else return found

/-- One address outside every region. An empty table leaves nothing to tell free addresses by. -/
def anyFree (c : Concretizer) (v : Value) : Run (List UInt64) := do
  if c.regions.regions.isEmpty then return []
  let condition ← Session.check do
    Expr.all (← c.regions.regions.mapM fun r => do Expr.complement (← r.condition v.expr))
  anyUnder v condition

/-- Every address, unless they lie too far apart. -/
def everyNear (c : Concretizer) (v : Value) : Run (List UInt64) := do
  let least ← v.min
  let greatest ← v.max
  if UInt64.ofInt c.effectiveLimit ≤ greatest - least then
    Session.record (.rangeTooWide least greatest c.effectiveLimit)
    return []
  v.anyN c.effectiveLimit

/-- The addresses that one strategy yields. -/
def choose (c : Concretizer) (v : Value) : Strategy → Run (List UInt64)
  | .free => c.anyFree v
  | .writeable => anyIn v (c.regions.withPerm .write)
  | .executable => anyIn v (c.regions.withPerm .execute)
  | .symbolic => c.everyNear v
  | .any => return [← v.any]
  | .unknown name => throw (.error (.unknownStrategy name))

/-- The addresses of the first strategy that yields any. -/
def firstOf (c : Concretizer) (v : Value) : List Strategy → Run Addresses
  | [] => throw (.error .unresolvableAddress)
  | s :: rest => do
    match ← c.choose v s with
    | [] => firstOf c v rest
    | first :: others => observe (.strategy s) ⟨first, others⟩

/-- An address that can be one thing only, or else what the strategies find. -/
def resolve (c : Concretizer) (v : Value) (strategies : List Strategy) : Run Addresses := do
  if ← v.isUnique then observe .unique { first := ← v.any } else c.firstOf v strategies

/-- Concrete addresses for a value. That the constraints have no solution is an error of its
    own, however it is found out. -/
def concretize (c : Concretizer) (v : Value) (strategies : List Strategy) : Run Addresses :=
  tryCatch
    (do
      if v.isSymbolic then
        if !(← v.isSatisfiable) then throw (.error .unsatAddress)
      c.resolve v strategies)
    fun
      | .error e => throw (.error (if e.root = .unsat then .unsatAddress else e))
      | failure => throw failure

end Concretizer

end SymbolicMemory
