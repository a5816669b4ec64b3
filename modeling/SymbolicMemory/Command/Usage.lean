import SymbolicMemory.Command.Flag
import SymbolicMemory.Text.Lowercase

/-! # Commands and how they are called

The first word among the arguments names the command. Flags may stand before it,
so finding it takes knowing which flags have a value behind them. Every other word
is one too many.
-/

namespace SymbolicMemory

/-- What the program can do. -/
inductive Command where
  /-- Lists the addresses that a bounded symbolic address can be. -/
  | concretize
  /-- Shows the content of a memory. -/
  | dump
  /-- Writes to several branches of a memory. -/
  | fork
  deriving DecidableEq, Repr

/-- Why a call cannot be carried out. -/
inductive UsageError where
  | flag (error : FlagError)
  /-- A word that is no command where the path leads to, with commands of a similar name. -/
  | unknownCommand (word path : String) (similar : List String)
  /-- Fewer words than are needed. -/
  | fewWords (least given : Nat)
  /-- A range that ends before it starts. -/
  | reversedRange (lo hi : UInt64)
  /-- An address that does not fit the address space. -/
  | addressBeyond (address bits : UInt64)
  /-- A solver that is not offered. -/
  | unknownSolver (name : String) (available : List String)
  /-- A negative number of bytes. -/
  | negativeSize (size : Int)
  /-- Too many branches, or none. -/
  | branchCount (count : Int)
  /-- The call was called off. -/
  | canceled
  deriving DecidableEq, Repr

/-- The report of an error. -/
def UsageError.message : UsageError → String
  | flag e => e.message
  | unknownCommand word path similar =>
    "unknown command " ++ Text.quote word ++ " for " ++ Text.quote path ++
      (if similar.isEmpty then ""
      else "\n\nDid you mean this?\n" ++ String.join (similar.map fun name => "\t" ++ name ++ "\n"))
  | fewWords least given =>
    "requires at least " ++ least.repr ++ " arg(s), only received " ++ given.repr
  | reversedRange lo hi => "invalid range: " ++ Text.hex lo ++ "-" ++ Text.hex hi
  | addressBeyond address bits =>
    "address " ++ Text.hex address ++ " exceeds " ++ Text.decimal bits ++ "-bit address space"
  | unknownSolver name available =>
    "unknown solver: " ++ Text.quote name ++ " (available: " ++ ", ".intercalate available ++ ")"
  | negativeSize size => "invalid size: " ++ Text.decimalInt size
  | branchCount count => "invalid branch count: " ++ Text.decimalInt count
  | canceled => "context canceled"

namespace Command

/-- The name of the program. -/
def program : String := "symmem"

/-- The name of a command. -/
def name : Command → String
  | concretize => "concretize"
  | dump => "dump"
  | fork => "fork"

/-- Every command. -/
def list : List Command := [concretize, dump, fork]

/-- The command of a name. -/
def ofName? (name : String) : Option Command := list.find? fun c => c.name == name

/-- The flags of a command. -/
def flags : Command → Flags
  | concretize => [
    { name := "lo", type := .word, value := (0 : UInt64) },
    { name := "hi", type := .word, value := (0 : UInt64) },
    { name := "strategies", type := .text, value := "symbolic,any" },
    { name := "limit", type := .int, value := (0 : Int) },
    { name := "solver", type := .text, value := "naive" }]
  | dump => [
    { name := "addr", type := .word, value := (0 : UInt64) },
    { name := "size", type := .int, value := (0 : Int) },
    { name := "raw", type := .bool, value := false }]
  | fork => [
    { name := "n", type := .int, value := (4 : Int) },
    { name := "addr", type := .word, value := (0 : UInt64) }]

/-- The flags of the program, which every command has too. -/
def programFlags : Flags := [
  { name := "verbose", letter := some 'v', type := .bool, value := false },
  { name := "config", type := .text, value := "" }]

/-- The flag that asks for help. -/
def helpFlag : Flag := { name := "help", letter := some 'h', type := .bool, value := false }

/-- The word that asks for help on commands. -/
def helpName : String := "help"

/-- The word that asks for a script by which a shell completes the names of commands. -/
def completionName : String := "completion"

/-- The shells that there are scripts for. -/
def shells : List String := ["bash", "zsh", "fish", "powershell"]

/-- The words by which such a script asks how a line may go on. -/
def continuationNames : List String := ["__complete", "__completeNoDesc"]

/-- The flags of a script. -/
def scriptFlags : Flags := [{ name := "no-descriptions", type := .bool, value := false }]

end Command

/-! ## Finding the command -/

namespace Flags

/-- Whether the argument behind this one looks like its value: it is a flag that is no switch, as
    far as is known, and has no value of its own. -/
def takesNext (flags : Flags) (argument : String) : Bool :=
  let chars := argument.toList
  !chars.contains '=' &&
    (match chars with
      | '-' :: '-' :: name => !(flags.named? (String.ofList name)).any Flag.isSwitch
      | ['-', c] => c.toNat < 0x80 && !(flags.lettered? c).any Flag.isSwitch
      | _ => false)

/-- Whether an argument starts like a flag. -/
def isDashed (argument : String) : Bool := argument.toList.head? == some '-'

/-- The words among some arguments. A value at the very end is not waited for. -/
def words (flags : Flags) : List String → List String
  | [] => []
  | argument :: rest =>
    if argument = "--" then []
    else if flags.takesNext argument then
      match rest with
      | _ :: next :: more => words flags (next :: more)
      | _ => []
    else if argument = "" ∨ isDashed argument then words flags rest
    else argument :: words flags rest

/-- The arguments without the first occurrence of a word. -/
def removeWord (flags : Flags) (word : String) : List String → List String
  | [] => []
  | argument :: rest =>
    if argument = "--" then argument :: rest
    else if flags.takesNext argument then
      match rest with
      | value :: more => argument :: value :: removeWord flags word more
      | [] => [argument]
    else if argument = word then rest
    else argument :: removeWord flags word rest

end Flags

namespace Command

/-- The bytes of a name in lower case. -/
def lowerBytes (s : String) : List UInt8 :=
  (String.ofList (s.toList.map Text.lowercase)).toUTF8.toList

/-- The next row of the table of edit distances: for one more byte of the first text, the
    distance to each start of the second. -/
def distanceRow (a : UInt8) : (second : List UInt8) → (row : List Nat) → (left : Nat) → List Nat
  | b :: second, diagonal :: above :: row, left =>
    let here := if a = b then diagonal else min (min above left) diagonal + 1
    here :: distanceRow a second (above :: row) here
  | _, _, _ => []

/-- How many bytes have to be put in, taken out or replaced to get from one text to another. -/
def distance (first second : List UInt8) : Nat :=
  let start := List.range (second.length + 1)
  let row := first.foldl
    (fun row a =>
      let left := row.headD 0 + 1
      left :: distanceRow a second row left)
    start
  row.getLastD 0

/-- The names that may be meant by a word: those it is close to, and those it is the start of. -/
def similar (word : String) : List String :=
  (list.map name ++ [completionName]).filter fun name =>
    distance (lowerBytes word) (lowerBytes name) ≤ 2 ||
      (lowerBytes word).isPrefixOf (lowerBytes name)

/-- A call that can be carried out. -/
structure Call where
  command : Command
  flags : Flags

/-- Reads the flags of something that is reached by a path and takes no words. Help may be asked
    for, and then words do not matter. -/
def readFlags (path : String) (flags : Flags) (arguments : List String) :
    Except UsageError (Option Flags) := do
  let (flags, words) ←
    match (flags ++ [helpFlag]).parse arguments with
    | .ok parsed => pure parsed
    | .error e => throw (.flag e)
  if flags.get .bool "help" matches .ok true then return none
  match words with
  | [] => return some flags
  | word :: _ => throw (.unknownCommand word path [])

/-- A call of a command that is reached by a path, or none if it asks for help. -/
def call (c : Command) (path : String) (outer : Flags) (arguments : List String) :
    Except UsageError (Option Call) := do
  return (← readFlags path (c.flags ++ outer) arguments).map (⟨c, ·⟩)

/-- The call that the arguments of the program make, or none if they ask for help or for a
    script. -/
def ofArguments (arguments : List String) : Except UsageError (Option Call) :=
  match programFlags.words arguments with
  | [] => aside arguments
  | word :: _ =>
    let others := programFlags.removeWord word arguments
    match ofName? word with
    | some c => c.call (program ++ " " ++ c.name) programFlags others
    | none =>
      if word = helpName then aside others
      else if word = completionName then script others
      else if continuationNames.contains word then
        if others.isEmpty then .error (.fewWords 1 0) else .ok none
      else .error (.unknownCommand word program (similar word))
where
  /-- No command is called, but the flags have to be right. -/
  aside (arguments : List String) : Except UsageError (Option Call) :=
    match (programFlags ++ [helpFlag]).parse arguments with
    | .ok _ => .ok none
    | .error e => .error (.flag e)
  /-- A script is asked for. -/
  script (arguments : List String) : Except UsageError (Option Call) :=
    match (programFlags.words arguments).head?.filter shells.contains with
    | none => aside arguments
    | some shell => do
      discard <| readFlags (program ++ " " ++ completionName ++ " " ++ shell)
        (scriptFlags ++ programFlags) (programFlags.removeWord shell arguments)
      return none

/-- The call that a command makes on its own, without the flags of the program. -/
def ofOwnArguments (c : Command) (arguments : List String) : Except UsageError (Option Call) :=
  c.call c.name [] arguments

end Command

end SymbolicMemory
