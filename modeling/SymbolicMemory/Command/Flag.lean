import SymbolicMemory.Fault

/-! # Flags

A command takes flags by name. A flag has a type and, from the start, a value of
that type; arguments give it another one. Switches need no value of their own, and
only switches can be named by a letter.
-/

namespace SymbolicMemory

/-- What values a flag takes. -/
inductive FlagType where
  | bool
  | int
  | word
  | text
  deriving DecidableEq, Repr

namespace FlagType

/-- The values of a type. -/
abbrev Value : FlagType → Type
  | bool => Bool
  | int => Int
  | word => UInt64
  | text => String

/-- The name of a type in reports. -/
def name : FlagType → String
  | bool => "bool"
  | int => "int"
  | word => "uint64"
  | text => "string"

/-- The name in reports of the rule by which values are read. -/
def rule : FlagType → String
  | bool => "strconv.ParseBool"
  | int => "strconv.ParseInt"
  | word => "strconv.ParseUint"
  | text => ""

/-- Reads a truth value. -/
def readBool (s : String) : Except Text.NumeralError Bool :=
  if ["1", "t", "T", "true", "True", "TRUE"].contains s then .ok true
  else if ["0", "f", "F", "false", "False", "FALSE"].contains s then .ok false
  else .error .malformed

/-- Reads a value. -/
def read : (t : FlagType) → String → Except Text.NumeralError t.Value
  | bool, s => readBool s
  | int, s => Text.Numeral.readSigned s.toList
  | word, s => Text.Numeral.readUnsigned s.toList
  | text, s => .ok s

end FlagType

/-- A flag with its value. -/
structure Flag where
  name : String
  /-- The letter that also names it. -/
  letter : Option Char := none
  type : FlagType
  value : type.Value

namespace Flag

/-- Whether the flag needs no value. -/
def isSwitch (f : Flag) : Bool := f.type = .bool

/-- How the flag is written. -/
def shown (f : Flag) : String :=
  match f.letter with
  | some c => "-" ++ String.singleton c ++ ", --" ++ f.name
  | none => "--" ++ f.name

end Flag

/-- Why flags cannot be read, or one cannot be looked up. -/
inductive FlagError where
  /-- An argument that starts like a flag and is none. -/
  | malformed (argument : String)
  /-- No flag has this name. -/
  | unknown (name : String)
  /-- No flag has this letter, which starts the rest of an argument. -/
  | unknownLetter (letter : Char) (rest : String)
  /-- The arguments end where a value is needed. -/
  | missingValue (argument : String)
  /-- The value of a flag cannot be read. -/
  | badValue (flag : String) (type : FlagType) (text : String) (problem : Text.NumeralError)
  /-- Help was asked for, and there is no flag for that. -/
  | helpAsked
  /-- A flag is looked up that is not there. -/
  | notDefined (name : String)
  /-- A flag is looked up as if it were of another type. -/
  | otherType (asked actual : FlagType)
  deriving DecidableEq, Repr

/-- The report of an error. -/
def FlagError.message : FlagError → String
  | malformed argument => "bad flag syntax: " ++ argument
  | unknown name => "unknown flag: --" ++ name
  | unknownLetter letter rest => "unknown shorthand flag: " ++ Text.quoteChar letter ++ " in -" ++ rest
  | missingValue argument => "flag needs an argument: " ++ argument
  | badValue flag type text problem =>
    "invalid argument " ++ Text.quote text ++ " for " ++ Text.quote flag ++ " flag: " ++ type.rule ++
      ": parsing " ++ Text.quote text ++ ": " ++
      (match problem with
        | .malformed => "invalid syntax"
        | .outOfRange => "value out of range")
  | helpAsked => "pflag: help requested"
  | notDefined name => "flag accessed but not defined: " ++ name
  | otherType asked actual =>
    "trying to get " ++ asked.name ++ " value of flag of type " ++ actual.name

/-- The flags of a command. -/
abbrev Flags := List Flag

namespace Flags

/-- The flag of a name. -/
def named? (flags : Flags) (name : String) : Option Flag := flags.find? fun f => f.name == name

/-- The flag of a letter. -/
def lettered? (flags : Flags) (c : Char) : Option Flag := flags.find? fun f => f.letter == some c

/-- Gives a flag the value that a text stands for. -/
def set (flags : Flags) (flag : Flag) (text : String) : Except FlagError Flags :=
  match flag.type.read text with
  | .ok value => .ok (flags.map fun f => if f.name == flag.name then { flag with value := value } else f)
  | .error problem => .error (.badValue flag.shown flag.type text problem)

/-- The first byte of a character in an argument, as a character. -/
def firstByte (c : Char) : Char :=
  let n := c.toNat
  if n < 0x80 then c
  else if n < 0x800 then Char.ofNat (0xc0 + n >>> 6)
  else if n < 0x10000 then Char.ofNat (0xe0 + n >>> 12)
  else Char.ofNat (0xf0 + n >>> 18)

/-- Turns on the switches of some letters. The last may have a value behind an equals sign. What
    starts with `test.` is passed over. -/
def setLetters (flags : Flags) : List Char → Except FlagError Flags
  | [] => .ok flags
  | c :: rest =>
    if "test.".toList.isPrefixOf (c :: rest) then .ok flags
    else match flags.lettered? c with
      | none =>
        if c = 'h' then .error .helpAsked
        else .error (.unknownLetter (firstByte c) (String.ofList (c :: rest)))
      | some flag =>
        match rest with
        | '=' :: d :: value => flags.set flag (String.ofList (d :: value))
        | _ => do setLetters (← flags.set flag "true") rest

/-- An argument by its looks. -/
inductive Argument where
  /-- No flag. -/
  | word
  /-- Two dashes, behind which there are no flags. -/
  | stop
  /-- A name behind two dashes, and a value if one follows an equals sign. -/
  | named (name : String) (value : Option String)
  /-- Letters behind one dash. -/
  | letters (letters : List Char)
  /-- Dashes and no name. -/
  | broken

/-- Tells what an argument is. A single dash is a word. -/
def Argument.ofText (s : String) : Argument :=
  match s.toList with
  | ['-', '-'] => .stop
  | '-' :: '-' :: c :: rest =>
    if c = '-' ∨ c = '=' then .broken
    else
      let name := (c :: rest).takeWhile (· ≠ '=')
      let behind := (c :: rest).dropWhile (· ≠ '=')
      .named (String.ofList name) (if behind.isEmpty then none else some (String.ofList (behind.drop 1)))
  | '-' :: c :: rest => .letters (c :: rest)
  | _ => .word

/-- Reads flags from arguments, and returns them with the words in between. The last value of a
    flag counts. -/
def parse (flags : Flags) : List String → Except FlagError (Flags × List String)
  | [] => .ok (flags, [])
  | argument :: rest =>
    match Argument.ofText argument with
    | .word => do
      let (flags, words) ← parse flags rest
      return (flags, argument :: words)
    | .stop => .ok (flags, rest)
    | .broken => .error (.malformed argument)
    | .letters letters => do parse (← flags.setLetters letters) rest
    | .named name value =>
      match flags.named? name with
      | none => .error (if name = "help" then .helpAsked else .unknown name)
      | some flag =>
        match value with
        | some value => do parse (← flags.set flag value) rest
        | none =>
          if flag.isSwitch then do parse (← flags.set flag "true") rest
          else match rest with
            | value :: rest => do parse (← flags.set flag value) rest
            | [] => .error (.missingValue argument)

/-- The value of a flag. -/
def get (flags : Flags) (type : FlagType) (name : String) : Except FlagError type.Value :=
  match flags.named? name with
  | none => .error (.notDefined name)
  | some flag => if h : flag.type = type then .ok (h ▸ flag.value) else .error (.otherType type flag.type)

/-- The value of a flag that has to be there. -/
def require (flags : Flags) (type : FlagType) (name : String) : Except Fault type.Value :=
  match flags.get type name with
  | .ok value => .ok value
  | .error e => .error (.flagAccess name e.message)

end Flags

end SymbolicMemory
