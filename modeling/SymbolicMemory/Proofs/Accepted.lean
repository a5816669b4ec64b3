import Mathlib
import SymbolicMemory.Command.Line
import SymbolicMemory.Proofs.Outcome

/-! # What a call is accepted with

Numbers come from flags and from configurations. However they are written, a signed one that is
accepted is a machine integer. A configuration that a call works on is moreover one that was found
in order, be it read from a file or the default. So what is shown of requests on accepted
configurations is shown of the program, whatever it is called with and however that is read.
-/

namespace SymbolicMemory

/-- Whether a number is a signed machine integer. -/
def IsMachine (n : Int) : Prop := -2 ^ 63 ≤ n ∧ n < 2 ^ 63

instance (n : Int) : Decidable (IsMachine n) := inferInstanceAs (Decidable (_ ∧ _))

/-! ## Flags -/

theorem Text.Numeral.readSigned_machine {s : List Char} {n : Int} (read : readSigned s = .ok n) :
    IsMachine n := by
  have two : Nat.pow 2 63 = 9223372036854775808 := rfl
  unfold readSigned readSignedBy at read
  split at read
  split at read
  · cases read
  · unfold IsMachine
    split at read <;> split at read <;> cases read <;> omega

namespace FlagType

/-- Signed numbers are machine integers; the other values are what their type says. -/
def Fits : (t : FlagType) → t.Value → Prop
  | int, n => IsMachine n
  | _, _ => True

theorem read_fits {t : FlagType} {text : String} {value : t.Value} (read : t.read text = .ok value) :
    t.Fits value := by
  cases t with
  | int => exact Text.Numeral.readSigned_machine read
  | _ => trivial

end FlagType

/-- The flag has a value that fits its type. -/
def Flag.Fits (f : Flag) : Prop := f.type.Fits f.value

namespace Flags

/-- Every flag has a value that fits. -/
def Fit (flags : Flags) : Prop := ∀ f ∈ flags, f.Fits

variable {flags new : Flags}

theorem set_fit (fit : flags.Fit) {flag : Flag} {text : String} (set : flags.set flag text = .ok new) :
    new.Fit := by
  unfold Flags.set at set
  split at set
  · next value read =>
    cases set
    intro f member
    obtain ⟨old, inOld, rfl⟩ := List.mem_map.mp member
    split
    · exact FlagType.read_fits read
    · exact fit old inOld
  · cases set

theorem setLetters_fit (fit : flags.Fit) {letters : List Char} (set : flags.setLetters letters = .ok new) :
    new.Fit := by
  fun_induction setLetters flags letters with
  | case1 =>
      cases set
      exact fit
  | case2 =>
      cases set
      exact fit
  | case3 => cases set
  | case4 => cases set
  | case5 => exact set_fit fit set
  | case6 _ _ _ _ _ _ _ ih =>
      obtain ⟨next, turnedOn, set⟩ := bind_ok set
      exact ih next (set_fit fit turnedOn) set

theorem parse_fit (fit : flags.Fit) {arguments words : List String}
    (parsed : flags.parse arguments = .ok (new, words)) : new.Fit := by
  -- The arguments behind a flag are read with the flags that it was set in, and these fit again.
  fun_induction parse flags arguments generalizing words with
  | case1 =>
      cases parsed
      exact fit
  | case2 _ _ _ _ ih =>
      obtain ⟨⟨last, others⟩, later, is⟩ := bind_ok parsed
      cases is
      exact ih fit later
  | case3 =>
      cases parsed
      exact fit
  | case4 => cases parsed
  | case5 _ _ _ _ _ ih =>
      obtain ⟨next, set, parsed⟩ := bind_ok parsed
      exact ih next (setLetters_fit fit set) parsed
  | case6 => cases parsed
  | case7 _ _ _ _ _ _ _ _ ih =>
      obtain ⟨next, set, parsed⟩ := bind_ok parsed
      exact ih next (set_fit fit set) parsed
  | case8 _ _ _ _ _ _ _ _ ih =>
      obtain ⟨next, set, parsed⟩ := bind_ok parsed
      exact ih next (set_fit fit set) parsed
  | case9 _ _ _ _ _ _ _ _ _ ih =>
      obtain ⟨next, set, parsed⟩ := bind_ok parsed
      exact ih next (set_fit fit set) parsed
  | case10 => cases parsed

theorem get_fits (fit : flags.Fit) {t : FlagType} {name : String} {value : t.Value}
    (found : flags.get t name = .ok value) : t.Fits value := by
  unfold Flags.get at found
  split at found
  · cases found
  · next flag is =>
    split at found
    · next same =>
      subst same
      cases found
      exact fit flag (List.mem_of_find?_eq_some is)
    · cases found

theorem require_fits (fit : flags.Fit) {t : FlagType} {name : String} {value : t.Value}
    (found : flags.require t name = .ok value) : t.Fits value := by
  unfold require at found
  split at found
  · next got =>
    cases found
    exact get_fits fit got
  · cases found

end Flags

namespace Command

theorem flags_fit (c : Command) : c.flags.Fit := by
  cases c <;> simp [flags, Flags.Fit, Flag.Fits, FlagType.Fits, IsMachine]

theorem programFlags_fit : programFlags.Fit := by
  simp [programFlags, Flags.Fit, Flag.Fits, FlagType.Fits]

theorem helpFlag_fits : helpFlag.Fits := trivial

theorem readFlags_fit {path : String} {flags new : Flags} (fit : flags.Fit) {arguments : List String}
    (read : readFlags path flags arguments = .ok (some new)) : new.Fit := by
  have withHelp : Flags.Fit (flags ++ [helpFlag]) := List.forall_mem_append.mpr ⟨fit, by simpa using helpFlag_fits⟩
  unfold readFlags at read
  dsimp only at read
  split at read
  · next parsed is =>
    have fits := Flags.parse_fit withHelp is
    simp only [pure_bind] at read
    split at read
    · cases read
    · simp only [Bool.false_eq_true, if_false] at read
      split at read
      · cases read
        exact fits
      · cases read
  · cases read

theorem call_fit {c : Command} {path : String} {outer : Flags} (fit : outer.Fit) {arguments : List String} {call : Call}
    (called : c.call path outer arguments = .ok (some call)) : call.flags.Fit := by
  obtain ⟨found, read, is⟩ := bind_ok called
  cases found with
  | none => cases is
  | some flags =>
      cases is
      exact readFlags_fit (List.forall_mem_append.mpr ⟨c.flags_fit, fit⟩) read

/-- Whatever the arguments, the numbers that a call is made with are machine integers. -/
theorem ofArguments_fit {arguments : List String} {call : Call}
    (called : ofArguments arguments = .ok (some call)) : call.flags.Fit := by
  have aside : ∀ arguments, ofArguments.aside arguments ≠ .ok (some call) := by
    intro arguments
    unfold ofArguments.aside
    split <;> nofun
  have script : ∀ arguments, ofArguments.script arguments ≠ .ok (some call) := by
    intro arguments made
    unfold ofArguments.script at made
    split at made
    · exact aside _ made
    · obtain ⟨_, _, none_⟩ := bind_ok made
      cases none_
  unfold ofArguments at called
  split at called
  · exact absurd called (aside _)
  · dsimp only at called
    split at called
    · exact call_fit programFlags_fit called
    · split at called
      · exact absurd called (aside _)
      · split at called
        · exact absurd called (script _)
        · split at called
          · split at called <;> cases called
          · cases called

theorem Call.range_machine {call : Call} (fit : call.flags.Fit) {r : RangeRequest}
    (asked : call.request = .ok (.range r)) : IsMachine r.limit := by
  unfold request at asked
  split at asked
  · obtain ⟨lo, _, asked⟩ := bind_ok asked
    obtain ⟨hi, _, asked⟩ := bind_ok asked
    obtain ⟨strategies, _, asked⟩ := bind_ok asked
    obtain ⟨limit, required, asked⟩ := bind_ok asked
    obtain ⟨solver, _, asked⟩ := bind_ok asked
    cases asked
    exact Flags.require_fits fit required
  · obtain ⟨_, _, asked⟩ := bind_ok asked
    obtain ⟨_, _, asked⟩ := bind_ok asked
    obtain ⟨_, _, asked⟩ := bind_ok asked
    cases asked
  · obtain ⟨_, _, asked⟩ := bind_ok asked
    obtain ⟨_, _, asked⟩ := bind_ok asked
    cases asked

end Command

/-! ## Configurations -/

namespace Yaml

theorem Scalar.toSigned_machine {s : Scalar} {n : Int} (read : s.toSigned = some n) : IsMachine n := by
  have two : Int.pow 2 63 = 9223372036854775808 := rfl
  unfold IsMachine
  unfold toSigned leastSigned at read
  split at read
  · split at read <;> cases read
    omega
  · split at read
    · cases read
    · split at read <;> cases read <;> omega
  · cases read
    omega
  · cases read

namespace Decoding

variable {α β : Type} {P : α → Prop}

/-- What is decoded, if anything, has a property. -/
def Decodes (x : Decoding (Option α)) (P : α → Prop) : Prop :=
  Ensures x (fun found => ∀ a ∈ found, P a) fun _ => True

theorem decodes_any (x : Decoding (Option α)) : Decodes x fun _ => True :=
  (Ensures.trivial x).mono (fun _ _ _ _ => trivial) fun _ h => h

theorem wrongType_decodes : Decodes (wrongType : Decoding (Option α)) P :=
  (Ensures.trivial _).bind fun _ _ => .pure nofun

theorem ofScalar_decodes {read : Scalar → List Char → Option α} (reads : ∀ s text, ∀ a ∈ read s text, P a)
    (n : Node) : Decodes (ofScalar read n) P := by
  unfold ofScalar
  split
  · refine (Ensures.trivial _).bind fun s _ => ?_
    split
    · exact .pure nofun
    · split
      · next is =>
        refine .pure fun b same => ?_
        cases same
        exact reads _ _ _ is
      · exact wrongType_decodes
  · exact wrongType_decodes

/-- What every step keeps holds at the end. -/
theorem foldlM_ensures {xs : List β} {f : α → β → Decoding α}
    (step : ∀ a b, P a → Ensures (f a b) P fun _ => True) {a : α} (start : P a) :
    Ensures (xs.foldlM f a) P fun _ => True := by
  induction xs generalizing a with
  | nil => exact .pure start
  | cons b rest ih =>
      rw [List.foldlM_cons]
      exact (step a b start).bind fun next fact => ih fact

theorem visit_ensures {read : Node → Decoding α} (reads : ∀ n, Ensures (read n) P fun _ => True) (n : Node) :
    Ensures (visit read n) P fun _ => True := by
  unfold visit
  refine (Ensures.trivial count).bind fun _ _ => ?_
  split
  · refine (Ensures.trivial _).bind fun d _ => ?_
    dsimp only
    split
    · exact .bind (.throw trivial) fun _ (no : False) => no.elim
    · split
      · refine (Ensures.trivial _).bind fun _ _ => ?_
        refine (Ensures.trivial _).bind fun _ _ => ?_
        refine (reads _).bind fun a fact => ?_
        exact (Ensures.trivial _).bind fun _ _ => .pure fact
      · exact .throw trivial
  · exact reads _

theorem withTaken_ensures {taken : Option (List Scalar)} {act : Decoding α}
    (acts : Ensures act P fun _ => True) : Ensures (withTaken taken act) P fun _ => True := by
  unfold withTaken
  refine (Ensures.trivial _).bind fun _ _ => ?_
  refine (Ensures.trivial _).bind fun _ _ => ?_
  refine acts.bind fun a fact => ?_
  exact (Ensures.trivial _).bind fun _ _ => .pure fact

theorem field_ensures {Q : β → Prop} {read : Node → Decoding (Option β)} {put : α → β → α}
    (reads : ∀ n, Decodes (read n) Q) (keeps : ∀ a b, P a → Q b → P (put a b)) (a : α) (n : Node)
    (start : P a) : Ensures (field read put a n) P fun _ => True := by
  unfold field
  refine (visit_ensures reads n).bind fun found fact => .pure ?_
  cases found with
  | none => exact start
  | some b => exact keeps a b start (fact b rfl)

theorem merge_ensures {ownKeys : Decoding Unit} {add : α → Node → Decoding α}
    (adds : ∀ a n, P a → Ensures (add a n) P fun _ => True) (source : Node) {a : α} (start : P a) :
    Ensures (merge ownKeys add source a) P fun _ => True := by
  have one : ∀ a n, P a → Ensures (merge.one add a n) P fun _ => True := by
    intro a n fact
    unfold merge.one
    refine (Ensures.trivial _).bind fun mapping _ => ?_
    split
    · exact adds a n fact
    · exact .throw trivial
  have all : Ensures (merge.addAll add source a) P fun _ => True := by
    unfold merge.addAll
    split
    · exact foldlM_ensures one start
    · exact one a _ start
  unfold merge
  refine (Ensures.trivial _).bind fun _ _ => ?_
  split
  · exact all
  · exact withTaken_ensures ((Ensures.trivial _).bind fun _ _ => all)

theorem entry_ensures {fields : String → Option (Field α)}
    (keeps : ∀ name set, fields name = some set → ∀ a n, P a → Ensures (set a n) P fun _ => True)
    {a : α} (start : P a) (done : List String) (entry : Node × Node) :
    Ensures (record.entry fields (a, done) entry) (fun next => P next.1) fun _ => True := by
  unfold record.entry
  refine (Ensures.trivial _).bind fun name _ => ?_
  split
  · exact .pure start
  · refine (Ensures.trivial _).bind fun free _ => ?_
    split
    · exact .pure start
    · split
      · exact .pure start
      · next set found =>
        split
        · exact (Ensures.trivial _).bind fun _ _ => .pure start
        · exact (withTaken_ensures (keeps _ set found a _ start)).bind fun next fact => .pure fact

/-- A record has a property that setting a field keeps, if it had it at the start. -/
theorem record_decodes {fields : String → Option (Field α)}
    (keeps : ∀ name set, fields name = some set → ∀ a n, P a → Ensures (set a n) P fun _ => True)
    (fuel : Nat) {a : α} (start : P a) (n : Node) : Decodes (record fields fuel a n) P := by
  induction fuel generalizing a n with
  | zero => exact .throw trivial
  | succ fuel ih =>
      unfold record
      split
      · next entries =>
        dsimp only
        split
        · exact wrongType_decodes.bind fun found fact => .pure fact
        · have folded : Ensures ((splitMerge entries).2.foldlM (record.entry fields) (a, []))
              (fun next => P next.1) fun _ => True :=
            foldlM_ensures (fun next entry fact => entry_ensures keeps fact next.2 entry) start
          refine folded.bind fun next fact => ?_
          split
          · refine .pure fun b same => ?_
            cases same
            exact fact
          · refine (merge_ensures (fun a n start => ?_) _ fact).bind fun b fact => .pure fun c same => ?_
            · refine (visit_ensures (ih start) n).bind fun found fact => .pure ?_
              cases found with
              | none => exact start
              | some b => exact fact b rfl
            · cases same
              exact fact
      · exact ofScalar_decodes nofun _

end Decoding

/-- A text describes something with a property that decoding its root keeps, if the start has it. -/
theorem decode_keeps {α : Type} {P : α → Prop} {read : Nat → α → Node → Decoding (Option α)} {start : α}
    (decodes : ∀ fuel n, (read fuel start n).Decodes P) (fact : P start) {bytes : List UInt8} {a : α}
    (decoded : decode read start bytes = .ok a) : P a := by
  unfold decode at decoded
  split at decoded
  · cases decoded
  · cases decoded
    exact fact
  · next doc _ =>
    have visited := Decoding.visit_ensures (decodes ((bytes.length + 2) * (bytes.length + 2))) doc.root
      { named := doc.named, decoded := 1 }
    dsimp only [EStateM.run] at decoded
    split at decoded
    · cases decoded
    · next found d result =>
      rw [result] at visited
      split at decoded <;> cases decoded
      cases found with
      | none => exact fact
      | some a => exact visited a rfl

end Yaml

namespace Config

open Yaml (Node Decoding)

/-- A configuration that was found in order, with numbers that are machine integers. -/
structure Accepted (c : Config) : Prop where
  valid : c.validate = .ok ()
  limit_machine : IsMachine c.limit

/-- What a configuration that is found in order has: an address width for words, a name, a limit,
    and regions that make up a table. -/
theorem validate_ok {c : Config} (valid : c.validate = .ok ()) :
    (0 < c.bits ∧ c.bits ≤ 64) ∧ c.id ≠ "" ∧ 0 < c.limit ∧ ∃ t, c.table = .ok t := by
  unfold validate at valid
  dsimp only at valid
  split at valid
  · cases valid
  · next bits =>
    split at valid
    · cases valid
    · next id =>
      split at valid
      · cases valid
      · next limit =>
        obtain ⟨_, _, valid⟩ := bind_ok valid
        rw [not_or, UInt64.not_lt] at bits
        refine ⟨⟨UInt64.pos_iff_ne_zero.mpr bits.1, bits.2⟩, id, Int.not_le.mp limit, ?_⟩
        cases table : c.table with
        | ok t => exact ⟨t, rfl⟩
        | error e =>
            rw [table] at valid
            cases valid

/-- Setting a field keeps the limit a machine integer. -/
theorem field?_machine {fuel : Nat} {name : String} {set : Decoding.Field Config}
    (found : field? fuel name = some set) (c : Config) (n : Node) (start : IsMachine c.limit) :
    Ensures (set c n) (fun c => IsMachine c.limit) fun _ => True := by
  have other {β : Type} (read : Node → Decoding (Option β)) (put : Config → β → Config)
      (same : ∀ c b, (put c b).limit = c.limit) :
      Ensures (Decoding.field read put c n) (fun c => IsMachine c.limit) fun _ => True :=
    Decoding.field_ensures (fun _ => Decoding.decodes_any _) (fun c b fits _ => same c b ▸ fits) c n start
  unfold field? at found
  split at found <;> cases found
  · exact other _ _ fun _ _ => rfl
  · exact other _ _ fun _ _ => rfl
  · have signed (n : Node) : (Decoding.signed n).Decodes IsMachine :=
      Decoding.ofScalar_decodes (fun _ _ _ read => Yaml.Scalar.toSigned_machine read) n
    refine Decoding.field_ensures (P := fun c => IsMachine c.limit) signed ?_ c n start
    exact fun _ _ _ fits => fits
  · exact other _ _ fun _ _ => rfl
  · exact other _ _ fun _ _ => rfl
  · exact other _ _ fun _ _ => rfl
  · exact other _ _ fun _ _ => rfl

/-- Without regions there is little to check. -/
theorem validate_of_no_regions {c : Config} (bits : 0 < c.bits ∧ c.bits ≤ 64) (named : c.id ≠ "") (limit : 0 < c.limit)
    (none_ : c.regions = []) : c.validate = .ok () := by
  have width : ¬(c.bits = 0 ∨ 64 < c.bits) := by
    rw [not_or, UInt64.not_lt]
    exact ⟨UInt64.pos_iff_ne_zero.mp bits.1, bits.2⟩
  have made : c.table = .ok ⟨[]⟩ := by
    simp [table, none_, RegionTable.ofList, RegionTable.checkFrom, bind, Except.bind, pure, Except.pure]
  rw [validate, if_neg width, if_neg named, if_neg (Int.not_le.mpr limit), none_, made]
  rfl

theorem default_accepted : Accepted {} :=
  ⟨validate_of_no_regions (by decide) (by decide) (by decide) rfl, by decide⟩

theorem decode_machine {bytes : List UInt8} {c : Config} (decoded : decode bytes = .ok c) : IsMachine c.limit := by
  have start := default_accepted.limit_machine
  unfold decode at decoded
  split at decoded
  · next read =>
    cases decoded
    refine Yaml.decode_keeps (P := fun c => IsMachine c.limit) (fun fuel => ?_) start read
    exact Decoding.record_decodes (fun _ _ => field?_machine) fuel start
  · cases decoded
  · cases decoded

/-- The directory is not among the things that are checked. -/
theorem validate_directory (c : Config) (name : String) :
    ({ c with directory := name } : Config).validate = c.validate := rfl

/-- However a file is read, the configuration in it was found in order and has the limit that was read. -/
theorem ofFile_ok {name : String} {content : Except FileProblem ByteArray} {reader : Reader} {c : Config}
    (read : ofFile name content reader = .ok c) :
    c.validate = .ok () ∧ ∃ bytes written, reader bytes = .ok written ∧ written.limit = c.limit := by
  unfold ofFile at read
  split at read
  · cases read
  · split at read
    · next c parsed =>
      cases read
      obtain ⟨c', decoded, parsed⟩ := bind_ok parsed
      obtain ⟨_, valid, same⟩ := bind_ok parsed
      cases same
      refine ⟨?_, _, c, decoded, rfl⟩
      rw [validate_directory]
      cases result : c.validate with
      | ok _ => rfl
      | error e =>
          rw [result] at valid
          cases valid
    · cases read

end Config

namespace Command

variable {files : FileReader Id} {reader : Config.Reader} {call : Call} {config : Config} {session left : Session}

/-- A configuration is the default, or it was read from a file, which is noted. -/
theorem Call.config_cases (read : call.config files reader session = .ok config left) :
    config = {} ∧ left = session ∨ ∃ name, Config.load files name reader = .ok config ∧
      left = { session with log := .configLoaded name config.id config.bits :: session.log } := by
  cases path : call.flags.get .text "config" with
  | error e =>
      rw [Call.config, path] at read
      cases read
  | ok name =>
      rw [Call.config, path] at read
      dsimp only at read
      split at read
      · cases read
        exact .inl ⟨rfl, rfl⟩
      · cases loaded : Config.load files name reader with
        | error e =>
            rw [loaded] at read
            cases read
        | ok c =>
            rw [loaded] at read
            cases read
            exact .inr ⟨name, loaded, rfl⟩

/-- Reading a configuration names nothing. -/
theorem Call.config_names (read : call.config files reader session = .ok config left) :
    left.names = session.names := by
  rcases config_cases read with ⟨_, rfl⟩ | ⟨name, _, rfl⟩
  · rfl
  · rfl

/-- Numbers are read as machine integers. -/
structure Reading.Fits (reading : Reading) : Prop where
  call : ∀ arguments call, reading.call arguments = .ok (some call) → call.flags.Fit
  config : ∀ bytes config, reading.config bytes = .ok config → IsMachine config.limit

/-- The usual way of reading is of this kind. -/
theorem usual_fits : Reading.Fits {} where
  call _ _ := ofArguments_fit
  config _ _ := Config.decode_machine

theorem Reading.Fits.accepted {reading : Reading} (fits : reading.Fits)
    (read : call.config files reading.config session = .ok config left) : config.Accepted := by
  rcases Call.config_cases read with ⟨rfl, _⟩ | ⟨name, loaded, _⟩
  · exact Config.default_accepted
  · obtain ⟨valid, bytes, written, decoded, same⟩ := Config.ofFile_ok loaded
    exact ⟨valid, same ▸ fits.config bytes written decoded⟩

/-- However arguments and configurations are read, the program reports on the request that the
    arguments make. Its configuration is accepted, no name was handed out before, and the limit of a
    range is a machine integer. -/
theorem run_reports {reading : Reading} (fits : reading.Fits) {arguments : List String}
    (called : reading.call arguments = .ok (some call)) {request : Request} (asked : call.request = .ok request)
    (read : call.config files reading.config {} = .ok config session) (backends : List (String × Backend))
    (canceled : Bool) :
    run files backends canceled arguments reading = request.report call.isVerbose backends canceled config
        (if request.needsImage then config.loadImage files else .ok .empty) session ∧
      config.Accepted ∧ session.names = {} ∧ ∀ r, request = .range r → IsMachine r.limit := by
  refine ⟨?_, fits.accepted read, Call.config_names read, ?_⟩
  · rw [run, called, runCall, Call.run]
    simp only [bind, read, asked]
    split <;> rfl
  · rintro r rfl
    exact Call.range_machine (fits.call _ _ called) asked

end Command

end SymbolicMemory
