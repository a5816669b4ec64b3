import SymbolicMemory.File
import SymbolicMemory.Memory
import SymbolicMemory.Yaml.Decode

/-! # Configurations

A configuration describes a memory: its address width and byte order, the regions
of its address space, and a file with its first content. It is written as a mapping
in which every key may be left out. A configuration that was read has been checked:
its numbers are in range, and its regions lie in the address space and apart.
-/

namespace SymbolicMemory

/-- A region as it is configured, with the letters for its permissions. -/
structure RegionSetting where
  first : UInt64 := 0
  last : UInt64 := 0
  perm : String := ""
  deriving DecidableEq, Repr

/-- What a memory is configured by. -/
structure Config where
  /-- The address width. -/
  bits : UInt64 := Memory.defaultBits
  /-- The first part of the names of fresh variables. -/
  id : String := Memory.defaultId
  /-- How many addresses are listed at most. -/
  limit : Int := Concretizer.defaultLimit
  littleEndian : Bool := false
  /-- The file that holds the image; none if empty. -/
  image : String := ""
  /-- The address of the first byte of the image. -/
  imageBase : UInt64 := 0
  regions : List RegionSetting := []
  /-- The directory that a relative image file is looked for in; the current one if empty. -/
  directory : String := ""
  deriving DecidableEq, Repr

/-! ## Reading -/

open Yaml (Decoding)

namespace RegionSetting

/-- The fields of a region. -/
def field? : String → Option (Decoding.Field RegionSetting)
  | "start" => some (Decoding.field Decoding.unsigned fun r n => { r with first := n })
  | "end" => some (Decoding.field Decoding.unsigned fun r n => { r with last := n })
  | "perm" => some (Decoding.field Decoding.text fun r s => { r with perm := s })
  | _ => none

end RegionSetting

namespace Config

/-- The fields of a configuration. -/
def field? (fuel : Nat) : String → Option (Decoding.Field Config)
  | "bits" => some (Decoding.field Decoding.unsigned fun c n => { c with bits := n })
  | "id" => some (Decoding.field Decoding.text fun c s => { c with id := s })
  | "limit" => some (Decoding.field Decoding.signed fun c n => { c with limit := n })
  | "little_endian" => some (Decoding.field Decoding.bool fun c b => { c with littleEndian := b })
  | "image" => some (Decoding.field Decoding.text fun c s => { c with image := s })
  | "image_base" => some (Decoding.field Decoding.unsigned fun c n => { c with imageBase := n })
  | "regions" =>
    some (Decoding.field (Decoding.list (Decoding.record RegionSetting.field? fuel {}))
      fun c rs => { c with regions := rs })
  | _ => none

/-- A way to tell what configuration an encoded text describes, before it is checked. -/
abbrev Reader := List UInt8 → Except Failure Config

/-- The usual way. A text that stands for nothing describes the defaults. -/
def decode : Reader := fun bytes =>
  match Yaml.decode (fun fuel => Decoding.record (field? fuel) fuel) {} bytes with
  | .ok c => .ok c
  | .error .malformed => .error (.error .malformedConfig)
  | .error .collectionKey => .error (.fault .collectionKey)

/-! ## Checking -/

/-- A region with its permissions. -/
def region (r : RegionSetting) : Except Error Region := do
  return ⟨r.first, r.last, ← Perm.parse r.perm⟩

/-- The regions as a table. -/
def table (c : Config) : Except Error RegionTable := do
  RegionTable.ofList (← c.regions.mapM region)

/-- A region lies in the address space and has permissions. -/
def checkRegion (c : Config) (r : RegionSetting) : Except Error Unit := do
  if mask c.bits < r.last then throw (.regionBeyond r.first r.last c.bits)
  discard (Perm.parse r.perm)

/-- The first reason for which a configuration cannot be used. -/
def validate (c : Config) : Except Error Unit := do
  if c.bits = 0 ∨ 64 < c.bits then throw (.addressWidth c.bits)
  if c.id = "" then throw .emptyId
  if c.limit ≤ 0 then throw (.limit c.limit)
  c.regions.forM c.checkRegion
  discard c.table

/-- Reads and checks a configuration. -/
def parse (bytes : List UInt8) (reader : Reader := decode) : Except Failure Config := do
  let c ← reader bytes
  Failure.ofError c.validate
  return c

/-- Reads and checks the configuration in a file, given what the file holds. -/
def ofFile (name : String) (content : Except FileProblem ByteArray) (reader : Reader := decode) :
    Except Failure Config :=
  match content with
  | .error problem => .error (.error (.within "read config" (.file name problem)))
  | .ok content =>
    match parse content.toList reader with
    | .ok c => .ok { c with directory := FileName.directory name }
    | .error e => .error (e.within name)

/-! ## Memories -/

/-- The name by which the image file is opened, if there is an image. -/
def imageFile (c : Config) : Option String :=
  if c.image = "" then none
  else if FileName.isAbsolute c.image ∨ c.directory = "" then some c.image
  else some (FileName.join c.directory c.image)

end Config

/-- The image in a file, given what the file holds. -/
def Image.ofFile (name : String) (base : UInt64) : Except FileProblem ByteArray → Except Error Image
  | .error problem => .error (.within "read image" (.file name problem))
  | .ok content => .ok (Segment.byteAt ⟨base, content.data⟩)

namespace Config

/-- Reads the configuration in a file. -/
def load {m : Type → Type} [Monad m] (files : FileReader m) (name : String) (reader : Reader := decode) :
    m (Except Failure Config) := do
  return ofFile name (← files name) reader

/-- Reads the image, which is empty if there is none. -/
def loadImage {m : Type → Type} [Monad m] (files : FileReader m) (c : Config) : m (Except Error Image) := do
  match c.imageFile with
  | none => return .ok .empty
  | some name => return Image.ofFile name c.imageBase (← files name)

/-- A memory as configured, over an image that may have failed to load. -/
def memory (c : Config) (image : Except Error Image) : Except Failure Memory := do
  let regions ← Failure.ofError c.table
  let image ← Failure.ofError image
  Failure.ofFault (Memory.new {
    id := c.id
    bits := c.bits
    limit := c.limit
    littleEndian := c.littleEndian
    image := image
    regions := regions })

end Config

end SymbolicMemory
