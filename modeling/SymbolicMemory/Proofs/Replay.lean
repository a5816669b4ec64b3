import SymbolicMemory.Path
import SymbolicMemory.Proofs.Access

/-! # Histories and their replay

The history of a path lists the accesses that succeeded on it, and the variables that stand for
the bytes it read before any were written there. Under a valuation that meets the constraints of
the path, the history can be replayed on a plain memory: a store writes the bytes of its value,
and a load must find there what it returned. Every operation on a path keeps it so, whether it
succeeds or fails, and the cells of the path show the plain memory that the replay ends in.
-/

namespace SymbolicMemory

/-- An access that succeeded. -/
inductive Operation where
  | stored (address value : Expr)
  | loaded (address : Expr) (width : UInt64) (result : Expr)
  deriving DecidableEq, Repr

/-- Repeats an access on a plain memory. A load has to give its result again. -/
def Operation.replay (l : Layout) (ρ : Valuation) (bytes : l.Bytes) : Operation → Option l.Bytes
  | stored address value => do
    let place ← (address.eval (.total ρ)).toOption
    let word ← (value.eval (.total ρ)).toOption
    some (bytes.write (l.place place.value)
      (ByteMemory.encode l.littleEndian (word.width.toNat / 8) word.value.toNat))
  | loaded address width result => do
    let place ← (address.eval (.total ρ)).toOption
    let word ← (result.eval (.total ρ)).toOption
    let there := bytes.read (l.place place.value) (width.toNat / 8)
    if word.width = width ∧ word.value.toNat = ByteMemory.decode l.littleEndian there
      then some bytes else none

theorem Operation.replay_stored {l : Layout} {address value : Expr} (wf : address.WellFormed)
    (valueWf : value.WellFormed) (ρ : Valuation) (bytes : l.Bytes) :
    (stored address value).replay l ρ bytes =
      some (bytes.write (BitVec.ofNat l.bits.toNat (address.meaning ρ))
        (ByteMemory.encode l.littleEndian (value.width.toNat / 8) (value.meaning ρ))) := by
  rw [replay, Expr.eval_eq wf (Assignment.total_binds ρ _),
    Expr.eval_eq valueWf (Assignment.total_binds ρ _)]
  simp only [Except.toOption, Layout.place, Assignment.valuation_total, Option.bind_eq_bind,
    Option.bind_some, Expr.value_toNat ρ wf, Expr.value_toNat ρ valueWf]
  rfl

theorem Operation.replay_loaded {l : Layout} {address result : Expr} (wf : address.WellFormed)
    (resultWf : result.WellFormed) {ρ : Valuation} {bytes : l.Bytes}
    (reads : result.meaning ρ = ByteMemory.decode l.littleEndian
      (bytes.read (BitVec.ofNat l.bits.toNat (address.meaning ρ)) (result.width.toNat / 8))) :
    (loaded address result.width result).replay l ρ bytes = some bytes := by
  rw [replay, Expr.eval_eq wf (Assignment.total_binds ρ _),
    Expr.eval_eq resultWf (Assignment.total_binds ρ _)]
  simp only [Except.toOption, Layout.place, Assignment.valuation_total, Option.bind_eq_bind,
    Option.bind_some, Expr.value_toNat ρ wf, Expr.value_toNat ρ resultWf]
  exact if_pos ⟨rfl, reads⟩

/-- What happened on a path. -/
structure History where
  /-- The accesses that succeeded, the first one first. -/
  operations : List Operation := []
  /-- The variables for bytes that were read before any were written there. -/
  fresh : UInt64 → Option Var := fun _ => none

namespace History

/-- Adds an access. -/
def add (h : History) (operation : Operation) : History :=
  { h with operations := h.operations ++ [operation] }

/-- The variable of a cell that was not there before. -/
def appeared : (before after : Option Expr) → Option Var
  | none, some (.var _ v) => some v
  | _, _ => none

/-- Keeps the variables of cells that were not there before. -/
def keep (h : History) (before after : UInt64 → Option Expr) : History :=
  { h with fresh := fun address => (h.fresh address).or (appeared (before address) (after address)) }

/-- The plain memory at the start of a path: the image, the values of the variables that stand
    for bytes, and anything elsewhere. -/
def initial (h : History) (l : Layout) (ρ : Valuation) (anything : l.Bytes) : l.Bytes := fun place =>
  let address := UInt64.ofNat place.toNat
  match l.image address, h.fresh address with
  | some b, _ => b.toBitVec
  | none, some v => BitVec.ofNat 8 (ρ v.name).toNat
  | none, none => anything place

/-- The plain memory at the end of a path, if every load gives its result again. -/
def replay (h : History) (l : Layout) (ρ : Valuation) (anything : l.Bytes) : Option l.Bytes :=
  h.operations.foldlM (Operation.replay l ρ) (h.initial l ρ anything)

end History

/-- Every constraint of a path evaluates to truth. -/
def Path.Satisfied (p : Path) (ρ : Valuation) : Prop :=
  ∀ c ∈ p.constraints, c.eval (.total ρ) = .ok (.ofBool true)

theorem eval_toOption_iff {e : Expr} {a : Assignment} {w : Word} :
    (e.eval a).toOption = some w ↔ e.eval a = .ok w := by
  cases e.eval a <;> simp [Except.toOption]

instance (p : Path) (ρ : Valuation) : Decidable (p.Satisfied ρ) :=
  decidable_of_iff (∀ c ∈ p.constraints, (c.eval (.total ρ)).toOption = some (.ofBool true))
    (forall₂_congr fun _ _ => eval_toOption_iff)

/-- Wherever the constraints of a path are met, its history can be replayed, and its cells show
    the plain memory at the end. -/
structure History.Accounts (h : History) (l : Layout) (p : Path) : Prop where
  fits : p.memory.Fits l
  present : ∀ address v, h.fresh address = some v → (p.memory.cell? address).isSome
  replays : ∀ ρ, p.Satisfied ρ → ∀ anything, ∃ final, h.replay l ρ anything = some final ∧
    p.memory.Mirrors l ρ (h.initial l ρ anything) final

namespace History

variable {l : Layout} {h : History} {p : Path}

theorem isSome_of_appeared {before after : Option Expr} {v : Var}
    (new : appeared before after = some v) : after.isSome := by
  unfold appeared at new
  split at new
  · rfl
  · cases new

/-- What was anything before the new variables were kept may have been what they say. -/
theorem initial_keep (before after : UInt64 → Option Expr) (ρ : Valuation) (anything : l.Bytes) :
    h.initial l ρ ((h.keep before after).initial l ρ anything) =
      (h.keep before after).initial l ρ anything := by
  funext place
  cases image : l.image (UInt64.ofNat place.toNat) with
  | some b => simp only [initial, image]
  | none =>
      cases known : h.fresh (UInt64.ofNat place.toNat) with
      | some v => simp only [initial, keep, image, known, Option.some_or]
      | none => simp only [initial, keep, image, known]

/-- A byte as it is first read has the value that it has at the start. -/
theorem initial_of_isInitial {address : UInt64} (inside : address.toNat < 2 ^ l.bits.toNat)
    {cell : Expr} (first : l.IsInitial address cell) (ρ : Valuation) (anything : l.Bytes)
    (kept : ∀ tag v, cell = .var tag v → h.fresh address = some v) :
    cell.meaning ρ = (h.initial l ρ anything (l.place address)).toNat := by
  have same : UInt64.ofNat (l.place address).toNat = address := by
    rw [Layout.place, BitVec.toNat_ofNat, Nat.mod_eq_of_lt inside, UInt64.ofNat_toNat]
  unfold Layout.IsInitial at first
  cases image : l.image address with
  | some b =>
      rw [image] at first
      obtain ⟨tag, rfl⟩ := first
      simp only [initial, same, image]
      exact UInt8.toNat_toUInt64 b
  | none =>
      rw [image] at first
      obtain ⟨tag, name, rfl⟩ := first
      simp only [initial, same, image, kept tag _ rfl, BitVec.toNat_ofNat]
      rfl

theorem replay_add (operation : Operation) (ρ : Valuation) (anything : l.Bytes) :
    (h.add operation).replay l ρ anything =
      (h.replay l ρ anything).bind fun bytes => operation.replay l ρ bytes := by
  rw [replay, replay, add, List.foldlM_append]
  simp only [List.foldlM_cons, List.foldlM_nil, Option.bind_eq_bind, Option.pure_def,
    Option.bind_fun_some]
  rfl

/-- Cells that were added by reading. -/
theorem Accounts.keep (accounts : h.Accounts l p) {m : Memory} (grows : p.memory.Grows l m) :
    (h.keep p.memory.cell? m.cell?).Accounts l { p with memory := m } := by
  have known : ∀ address tag v, p.memory.cell? address = none →
      m.cell? address = some (.var tag v) →
      (h.keep p.memory.cell? m.cell?).fresh address = some v := by
    intro address tag v absent added
    cases before : h.fresh address with
    | some w =>
        have here := accounts.present address w before
        rw [absent] at here
        cases here
    | none => simp only [History.keep, before, absent, added, appeared, Option.none_or]
  refine ⟨grows.fits, fun address v recorded => ?_, fun ρ satisfied anything => ?_⟩
  · cases before : h.fresh address with
    | some w =>
        obtain ⟨cell, present⟩ := Option.isSome_iff_exists.mp (accounts.present address w before)
        exact Option.isSome_iff_exists.mpr ⟨cell, grows.kept address cell present⟩
    | none =>
        simp only [History.keep, before, Option.none_or] at recorded
        exact isSome_of_appeared recorded
  · obtain ⟨final, replayed, mirrors⟩ := accounts.replays ρ satisfied
      ((h.keep p.memory.cell? m.cell?).initial l ρ anything)
    rw [replay, initial_keep] at replayed
    rw [initial_keep] at mirrors
    refine ⟨final, replayed, fun address cell present => ?_, fun address inside absent => ?_⟩
    · cases before : p.memory.cell? address with
      | some old =>
          obtain rfl : old = cell :=
            Option.some.inj ((grows.kept address old before).symm.trans present)
          exact mirrors.shown address old before
      | none =>
          obtain ⟨inside, _⟩ := grows.fits.cells address cell present
          rw [mirrors.untouched address inside before]
          refine initial_of_isInitial inside (grows.added address cell before present) ρ anything ?_
          rintro tag v rfl
          exact known address tag v before present
    · refine mirrors.untouched address inside ?_
      cases before : p.memory.cell? address with
      | none => rfl
      | some old =>
          rw [grows.kept address old before] at absent
          cases absent

end History

theorem Memory.branch_ensures (m : Memory) :
    On.Ensures branch m (fun copy new => copy = m ∧ new = m) (fun _ => False) :=
  fun _ => ⟨rfl, rfl⟩

namespace Path

variable {l : Layout} {h : History} {p new : Path} {e : Expr}

/-- A constraint was added, and the memory is as it was. -/
structure Adds (p : Path) (e : Expr) (new : Path) : Prop where
  memory_eq : new.memory = p.memory
  stronger : ∀ ρ, new.Satisfied ρ → p.Satisfied ρ
  holds : e.Condition → ∀ ρ, new.Satisfied ρ → e.meaning ρ = 1

theorem Adds.accounts (adds : p.Adds e new) (accounts : h.Accounts l p) : h.Accounts l new where
  fits := adds.memory_eq ▸ accounts.fits
  present := adds.memory_eq ▸ accounts.present
  replays ρ satisfied := adds.memory_eq ▸ accounts.replays ρ (adds.stronger ρ satisfied)

theorem adds_of_constrain (added : p.constrain e = .ok new) : p.Adds e new := by
  unfold constrain at added
  split at added
  · next tag w =>
    split at added
    · next truth =>
      cases added
      refine ⟨rfl, fun _ satisfied => satisfied, fun condition ρ _ => ?_⟩
      obtain ⟨_, nonzero⟩ : w.width = 1 ∧ w.value ≠ 0 := by simpa [Word.isTrue] using truth
      exact (condition.meaning_cases ρ).resolve_left fun zero =>
        nonzero (UInt64.toNat_inj.mp zero)
    · cases added
  · cases added
    refine ⟨rfl, fun ρ satisfied c member => satisfied c (List.mem_append_left _ member),
      fun condition ρ satisfied => ?_⟩
    obtain ⟨parts, together⟩ := condition.conjuncts
    refine (together ρ).mp fun c member => ?_
    have binds := Assignment.total_binds ρ c
    exact ((parts c member).eval_true_iff binds).mp (satisfied c (List.mem_append_right _ member))

/-- A condition that can hold is never refused. -/
theorem constrain_of_possible (condition : e.Condition) (possible : ∃ ρ, e.meaning ρ = 1)
    (p : Path) : ∃ new, p.constrain e = .ok new := by
  cases e with
  | const tag w =>
      obtain ⟨ρ, one⟩ := possible
      have value : w.value = 1 := UInt64.toNat_inj.mp one
      have width : w.width = 1 := condition.one_bit
      exact ⟨p, if_pos (by simp [Word.isTrue, value, width])⟩
  | _ => exact ⟨_, rfl⟩

theorem assume_ensures (p : Path) (e : Expr) :
    On.Ensures (assume e) p (fun _ new => p.Adds e new) (fun new => new = p) := by
  refine .look ?_
  cases result : p.constrain e with
  | ok new => exact fun _ => adds_of_constrain result
  | error fault => exact fun _ => rfl

theorem assume_succeeds (condition : e.Condition) (possible : ∃ ρ, e.meaning ρ = 1) (p : Path) :
    On.Ensures (assume e) p (fun _ new => p.Adds e new) (fun _ => False) := by
  obtain ⟨new, added⟩ := constrain_of_possible condition possible p
  refine .look ?_
  rw [added]
  exact fun _ => adds_of_constrain added

theorem assumeAll_one {returns fails : Path → Prop}
    (assumed : On.Ensures (assume e) p (fun _ new => returns new) fails) :
    On.Ensures ([e].forM assume) p (fun _ new => returns new) fails :=
  assumed.bind fun _ _ returned => .pure returned

theorem assume_accounts (accounts : h.Accounts l p) (e : Expr) :
    On.Ensures (assume e) p (fun _ new => h.Accounts l new) (fun new => h.Accounts l new) :=
  (assume_ensures p e).mono (fun _ _ adds => adds.accounts accounts) fun _ same => same ▸ accounts

/-- A fork has the history of the path that it comes from. -/
theorem fork_accounts (accounts : h.Accounts l p) (constraint : Option Expr) :
    On.Ensures (fork constraint) p (fun child new => h.Accounts l child ∧ h.Accounts l new)
      (fun new => h.Accounts l new) := by
  have numbered : Ensures nextId (fun _ => True) (fun _ => False) := fun _ => True.intro
  refine .look (.first numbered fun id _ => ?_)
  refine (On.Ensures.part (Memory.branch_ensures p.memory)).andThen ?_ ?_
  · rintro _ ⟨_, no, _⟩
    exact no.elim
  rintro _ _ ⟨_, ⟨rfl, rfl⟩, rfl⟩
  have start : h.Accounts l ⟨id, some p.id, [], p.solver, p.memory, p.constraints⟩ :=
    ⟨accounts.fits, accounts.present, accounts.replays⟩
  have parent : h.Accounts l { p with children := p.children ++ [id] } :=
    ⟨accounts.fits, accounts.present, accounts.replays⟩
  have finish : ∀ child, h.Accounts l child → On.Ensures (do
      On.change fun p : Path => { p with children := p.children ++ [id] }
      pure child) p (fun child new => h.Accounts l child ∧ h.Accounts l new)
      (fun new => h.Accounts l new) := fun child there => fun _ => ⟨there, parent⟩
  cases constraint with
  | none => exact finish _ start
  | some e =>
      refine (On.Ensures.lift (Session.check_ok _) p).andThen ?_ ?_
      · rintro _ ⟨_, rfl⟩
        exact accounts
      · rintro child _ ⟨added, rfl⟩
        exact finish child ((adds_of_constrain added).accounts start)

/-- A store that succeeds joins the history; one that fails changes nothing. -/
theorem store_accounts (accounts : h.Accounts l p) {address value : Expr}
    (wf : address.WellFormed) (valueWf : value.WellFormed) :
    On.Ensures (store address value) p
      (fun _ new => (h.add (.stored address value)).Accounts l new)
      (fun new => h.Accounts l new) := by
  have written := Memory.storeAt_ensures accounts.fits
    (show (p.value address).expr.WellFormed from wf) valueWf
  refine .look ((On.Ensures.part written).andThen ?_ ?_)
  · rintro _ ⟨_, rfl, rfl⟩
    exact accounts
  rintro _ _ ⟨m, ⟨c, rfl, stored⟩, rfl⟩
  refine (assumeAll_one (assume_succeeds stored.condition stored.possible _)).mono
    (fun _ new adds => ?_) fun _ no => no.elim
  have same : new.memory = m := adds.memory_eq
  refine ⟨same ▸ stored.fits, fun place v known => ?_, fun ρ satisfied anything => ?_⟩
  · exact same ▸ stored.kept place (accounts.present place v known)
  · have before := adds.stronger ρ satisfied
    obtain ⟨final, replayed, mirrors⟩ := accounts.replays ρ before anything
    have after := stored.mirrors ρ _ final (adds.holds stored.condition ρ satisfied) mirrors
    refine ⟨_, ?_, same ▸ after⟩
    rw [History.replay_add, replayed]
    exact Operation.replay_stored wf valueWf ρ final

/-- A load that succeeds joins the history, with the variables for bytes that it was first to
    read; one that fails leaves those variables. -/
theorem load_accounts (accounts : h.Accounts l p) {address : Expr} (wf : address.WellFormed)
    (width : UInt64) :
    On.Ensures (load address width) p
      (fun result new => ((h.keep p.memory.cell? new.memory.cell?).add
        (.loaded address width result)).Accounts l new)
      (fun new => (h.keep p.memory.cell? new.memory.cell?).Accounts l new) := by
  have read := Memory.loadFrom_ensures accounts.fits
    (show (p.value address).expr.WellFormed from wf) width
  refine .look ((On.Ensures.part read).andThen ?_ ?_)
  · rintro _ ⟨m, grows, rfl⟩
    exact accounts.keep grows
  rintro ⟨result, _⟩ _ ⟨m, ⟨c, rfl, loaded⟩, rfl⟩
  have kept := accounts.keep loaded.grows
  refine (assumeAll_one (assume_ensures _ c)).andThen ?_ fun _ new adds => .pure ?_
  · rintro _ rfl
    exact kept
  have same : new.memory = m := adds.memory_eq
  have now := adds.accounts kept
  refine ⟨same ▸ now.fits, same ▸ now.present, fun ρ satisfied anything => ?_⟩
  obtain ⟨final, replayed, mirrors⟩ := now.replays ρ satisfied anything
  have reads := loaded.reads ρ (adds.holds loaded.condition ρ satisfied) final
    (same ▸ mirrors.shown)
  rw [← loaded.width_eq] at reads ⊢
  refine ⟨final, ?_, same ▸ mirrors⟩
  rw [same, History.replay_add, replayed]
  exact Operation.replay_loaded wf loaded.wellFormed reads

end Path

end SymbolicMemory
