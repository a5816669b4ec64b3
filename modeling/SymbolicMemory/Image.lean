import SymbolicMemory.Bisection
import SymbolicMemory.Error

/-! # Images

An image gives some addresses a concrete byte to start with.
-/

namespace SymbolicMemory

/-- The byte at an address, where there is one. -/
abbrev Image := UInt64 → Option UInt8

namespace Image

/-- No byte anywhere. -/
def empty : Image := fun _ => none

/-- Single bytes; of two for one address the later counts. -/
def ofList (bytes : List (UInt64 × UInt8)) : Image := fun address =>
  bytes.foldl (fun found (a, b) => if a = address then some b else found) none

end Image

/-- A run of bytes from a base address on. What would lie beyond the top of the address space
    is not reached. -/
structure Segment where
  base : UInt64
  data : Array UInt8

namespace Segment

/-- The byte at an address. -/
def byteAt (s : Segment) : Image := fun address =>
  if address < s.base then none else s.data[(address - s.base).toNat]?

/-- The number of bytes as a word. -/
def length (s : Segment) : UInt64 := UInt64.ofNat s.data.size

end Segment

namespace Segments

/-- Every segment starts after the end of the one before it. -/
def check : List Segment → Except Error Unit
  | [] => .ok ()
  | [_] => .ok ()
  | s :: t :: rest =>
    if t.base - s.base < s.length then .error (.overlappingSegments s.base t.base)
    else check (t :: rest)

/-- A way to put segments in address order. Which of two that start at one address comes first is
    open, and an empty one has to come first to be let through. -/
structure Arrangement where
  sort : List Segment → List Segment
  perm : ∀ segments, (sort segments).Perm segments
  ascending : ∀ segments, (sort segments).Pairwise fun s t => s.base ≤ t.base

/-- Segments that start at one address stay in the given order. -/
def Arrangement.stable : Arrangement where
  sort segments := segments.mergeSort fun s t => s.base ≤ t.base
  perm segments := List.mergeSort_perm segments _
  ascending segments := pairwise_sorted Segment.base segments

/-- Segments in address order, given in any order. -/
def ofList (segments : List Segment) (order : Arrangement := .stable) : Except Error (List Segment) := do
  let sorted := order.sort segments
  check sorted
  return sorted

/-- The byte at an address, from the last segment that starts at or below it. -/
def byteAt (segments : List Segment) : Image := fun address =>
  match firstPlace (fun s => address < s.base) segments with
  | 0 => none
  | place + 1 => segments[place]?.bind fun s => s.byteAt address

end Segments

end SymbolicMemory
