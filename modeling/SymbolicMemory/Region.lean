import SymbolicMemory.Text.Numeral

/-! # Regions of an address space -/

namespace SymbolicMemory

/-- A set of permissions as bits: 1 to read, 2 to write, 4 to execute. -/
structure Perm where
  bits : UInt8
  deriving DecidableEq, Repr

namespace Perm

/-- No permission. -/
def none : Perm := ⟨0⟩

def read : Perm := ⟨1⟩

def write : Perm := ⟨2⟩

def execute : Perm := ⟨4⟩

/-- Every permission of either set. -/
def union (p q : Perm) : Perm := ⟨p.bits ||| q.bits⟩

/-- Whether every permission of `q` is in `p`. -/
def includes (p q : Perm) : Bool := p.bits &&& q.bits == q.bits

/-- Whether `p` and `q` share a permission. -/
def meets (p q : Perm) : Bool := p.bits &&& q.bits != 0

/-- The letters `rwx`, with a dash for each that is missing. -/
def text (p : Perm) : String :=
  String.ofList [
    if p.meets read then 'r' else '-',
    if p.meets write then 'w' else '-',
    if p.meets execute then 'x' else '-']

/-- The permission of a letter; a dash stands for none. -/
def ofLetter? : Char → Option Perm
  | 'r' => some read
  | 'w' => some write
  | 'x' => some execute
  | '-' => some none
  | _ => Option.none

/-- The permissions named by some letters, or the first letter that names none. -/
def ofLetters : List Char → Perm → Except Char Perm
  | [], p => .ok p
  | c :: rest, p =>
    match ofLetter? c with
    | some q => ofLetters rest (p.union q)
    | Option.none => .error c

end Perm

/-- An inclusive range of addresses and what is allowed there. -/
structure Region where
  first : UInt64
  last : UInt64
  perm : Perm
  deriving DecidableEq, Repr

namespace Region

/-- Whether an address lies in the region. -/
def contains (r : Region) (address : UInt64) : Bool :=
  r.first ≤ address && address ≤ r.last

/-- The printed form, such as `[0x0-0xf r-x]`. -/
def text (r : Region) : String :=
  "[" ++ Text.hex r.first ++ "-" ++ Text.hex r.last ++ " " ++ r.perm.text ++ "]"

end Region

end SymbolicMemory
