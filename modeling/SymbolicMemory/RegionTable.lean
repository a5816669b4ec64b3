import SymbolicMemory.Bisection
import SymbolicMemory.Error

/-! # Tables of regions

A table lists regions in address order, and no two of them share an address. It may
be empty, which is the same as no table at all.
-/

namespace SymbolicMemory

/-- The permissions named by the letters `rwx`; dashes are passed over. -/
def Perm.parse (s : String) : Except Error Perm :=
  match Perm.ofLetters s.toList .none with
  | .ok p => .ok p
  | .error letter => .error (.unknownPermission letter s)

/-- Regions in address order. -/
structure RegionTable where
  regions : List Region := []
  deriving DecidableEq, Repr

namespace RegionTable

/-- Every region runs forward and starts after the one before it. -/
def checkFrom : (previous : Option Region) → List Region → Except Error Unit
  | _, [] => .ok ()
  | previous, r :: rest =>
    if r.last < r.first then .error (.reversedRegion r)
    else match previous with
      | some p => if r.first ≤ p.last then .error (.overlappingRegions p r) else checkFrom (some r) rest
      | none => checkFrom (some r) rest

/-- A table of regions that are given in any order. -/
def ofList (regions : List Region) : Except Error RegionTable := do
  let sorted := regions.mergeSort fun a b => a.first ≤ b.first
  checkFrom none sorted
  return ⟨sorted⟩

/-- The region that holds an address: it can only be the first that does not end below it. -/
def lookup (t : RegionTable) (address : UInt64) : Option Region :=
  t.regions[firstPlace (fun r => address ≤ r.last) t.regions]?.filter fun r => r.contains address

/-- The regions that allow everything in `p`. -/
def withPerm (t : RegionTable) (p : Perm) : List Region :=
  t.regions.filter fun r => r.perm.includes p

end RegionTable

end SymbolicMemory
