import SymbolicMemory.Command.Action

/-! # The command line

A call reads its configuration, carries out its command and leaves a report. The
files that it needs are asked for by name, wherever they come from. How arguments and
configurations are written does not matter here: the ways to read them are given.
-/

namespace SymbolicMemory

/-- What a command is to do, from its flags. -/
inductive Request where
  | range (request : RangeRequest)
  | dump (request : DumpRequest)
  | fork (request : ForkRequest)

/-- What a call leaves behind. -/
structure Report where
  /-- The text that it shows. -/
  out : String := ""
  /-- What is worth noting, in order. -/
  log : List Event := []
  /-- How many solvers were closed. -/
  closed : Nat := 0
  /-- Why it ended early, if it did. -/
  stop : Option Stop := none

namespace Report

/-- The report of an action that has ended. Without `verbose` only warnings are noted. -/
def ofResult (verbose : Bool) : EStateM.Result Stop Session String → Report
  | .ok out s => { out := out, log := shown s, closed := s.closed }
  | .error e s => { log := shown s, closed := s.closed, stop := some e }
where
  shown (s : Session) : List Event := s.log.reverse.filter fun e => verbose || e.isWarning

/-- What the program prints when it ends early. -/
def err (r : Report) : String :=
  match r.stop with
  | some e => e.message ++ "\n"
  | none => ""

/-- The exit status of the program. -/
def exit (r : Report) : UInt32 := if r.stop.isSome then 1 else 0

end Report

namespace Request

/-- Whether the memory's image is needed. -/
def needsImage : Request → Bool
  | range _ => false
  | dump _ => true
  | fork _ => true

/-- Carries a request out. -/
def perform (backends : List (String × Backend)) (canceled : Bool) (config : Config)
    (image : Except Error Image) : Request → Action String
  | range r => r.list backends config
  | dump r => r.report config image
  | fork r => r.report canceled config image

/-- The report on a request that is carried out. -/
def report (request : Request) (verbose : Bool) (backends : List (String × Backend)) (canceled : Bool)
    (config : Config) (image : Except Error Image) (s : Session) : Report :=
  .ofResult verbose (request.perform backends canceled config image s)

end Request

namespace Command.Call

/-- The request that the flags make. -/
def request (c : Call) : Except Fault Request := do
  match c.command with
  | .concretize => return .range {
      lo := ← c.flags.require .word "lo"
      hi := ← c.flags.require .word "hi"
      strategies := ← c.flags.require .text "strategies"
      limit := ← c.flags.require .int "limit"
      solver := ← c.flags.require .text "solver" }
  | .dump => return .dump {
      address := ← c.flags.require .word "addr"
      size := ← c.flags.require .int "size"
      raw := ← c.flags.require .bool "raw" }
  | .fork => return .fork {
      count := ← c.flags.require .int "n"
      address := ← c.flags.require .word "addr" }

/-- Whether everything is noted. -/
def isVerbose (c : Call) : Bool := c.flags.get .bool "verbose" matches .ok true

/-- The configuration that the flags name; the defaults if they name none. -/
def config {m : Type → Type} [Monad m] (files : FileReader m) (c : Call)
    (reader : Config.Reader := Config.decode) : m (Action Config) := do
  match c.flags.get .text "config" with
  | .error e => return Action.refuse (.flag e)
  | .ok path =>
    if path = "" then return pure {}
    match ← Config.load files path reader with
    | .error e => return Action.ofExcept (.error e)
    | .ok config => return do
      Action.run (Session.record (.configLoaded path config.id config.bits))
      return config

/-- Carries a call out. -/
def run {m : Type → Type} [Monad m] (files : FileReader m) (backends : List (String × Backend))
    (canceled : Bool) (c : Call) (reader : Config.Reader := Config.decode) : m Report := do
  match (← c.config files reader) {} with
  | .error e s => return .ofResult c.isVerbose (.error e s)
  | .ok config s =>
    match c.request with
    | .error f => return .ofResult c.isVerbose (.error (.failure (.fault f)) s)
    | .ok request =>
      let image ← if request.needsImage then config.loadImage files else pure (.ok .empty)
      return request.report c.isVerbose backends canceled config image s

end Command.Call

namespace Command

/-- What is shown to someone who asks for help. -/
def help : String :=
  "symmem builds a byte-addressable symbolic memory from a YAML\n" ++
  "configuration and exposes its address concretization, dumping and\n" ++
  "branching behavior on the command line.\n\n" ++
  "Commands: " ++ ", ".intercalate (list.map name) ++ "\n"

/-- Carries out what was called, if it can be. -/
def runCall {m : Type → Type} [Monad m] (files : FileReader m) (backends : List (String × Backend))
    (canceled : Bool) (called : Except UsageError (Option Call))
    (reader : Config.Reader := Config.decode) : m Report :=
  match called with
  | .error e => return { stop := some (.usage e) }
  | .ok none => return { out := help }
  | .ok (some call) => call.run files backends canceled reader

/-- How what comes from outside is read. -/
structure Reading where
  /-- The call that arguments make, or none if there is nothing to carry out. -/
  call : List String → Except UsageError (Option Call) := ofArguments
  config : Config.Reader := Config.decode

/-- Runs the program on its arguments. -/
def run {m : Type → Type} [Monad m] (files : FileReader m) (backends : List (String × Backend))
    (canceled : Bool) (arguments : List String) (reading : Reading := {}) : m Report :=
  runCall files backends canceled (reading.call arguments) reading.config

end Command

end SymbolicMemory
