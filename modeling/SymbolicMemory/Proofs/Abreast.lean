import SymbolicMemory.Proofs.Twins

/-! # A memory in two runs

A memory that is worked on together with others, beside the same memory worked on alone. Both runs
do the same to it. In the first, the others draw names in between, and so the names of its fresh
bytes are some of all the names drawn; in the second they are drawn one after the other.
-/

namespace SymbolicMemory

open Names Session

namespace Memory

section Abreast

variable (root : Memory) (start : Session)

/-- The names drawn since the start, by number. -/
def drawnName (n : Nat) : String := byteName root.id ((start.supplied root.store.supply).vars + UInt64.ofNat n)

/-- Names of the two runs that correspond, given which of all names drawn since the start are those
    of the second run: its names are drawn one after the other. -/
def Paired (draws : List Nat) (name name' : String) : Prop :=
  ∃ k d, draws[k]? = some d ∧ name = root.drawnName start d ∧ name' = root.drawnName start k

/-- Twins at a point of two runs. -/
abbrev TwinAt (draws : List Nat) : Expr → Expr → Prop := Twin (root.Pending start) (Paired root start draws)

/-- A memory in a run of which it is a part, beside the same memory in a run of its own. -/
structure Abreast (draws : List Nat) (full solo : Memory × Session) : Prop where
  full_settings : full.1.settings = root.settings
  solo_settings : solo.1.settings = root.settings
  begun : start.freshBytes ≤ full.2.freshBytes
  full_vars : (full.2.supplied root.store.supply).vars =
    (start.supplied root.store.supply).vars + UInt64.ofNat (full.2.freshBytes - start.freshBytes)
  solo_vars : (solo.2.supplied root.store.supply).vars =
    (start.supplied root.store.supply).vars + UInt64.ofNat draws.length
  increasing : draws.Pairwise (· < ·)
  below : ∀ d ∈ draws, d < full.2.freshBytes - start.freshBytes
  cells : ∀ address, Option.Rel (TwinAt root start draws) (full.1.cell? address) (solo.1.cell? address)

variable {root start} {draws later : List Nat}

theorem Paired.mono (longer : draws <+: later) {name name' : String}
    (paired : Paired root start draws name name') : Paired root start later name name' := by
  obtain ⟨k, d, there, rest⟩ := paired
  obtain ⟨more, rfl⟩ := longer
  refine ⟨k, d, ?_, rest⟩
  rw [List.getElem?_append_left (List.getElem?_eq_some_iff.mp there).1]
  exact there

theorem TwinAt.mono (longer : draws <+: later) {e e' : Expr} (twin : TwinAt root start draws e e') :
    TwinAt root start later e e' := Twin.mono twin fun _ _ => Paired.mono longer

theorem Abreast.quiet {m μ : Memory} {s s' ς ς' : Session} (abreast : Abreast root start draws (m, s) (μ, ς))
    (quiet : Quiet s s') (quiet' : Quiet ς ς') : Abreast root start draws (m, s') (μ, ς') where
  full_settings := abreast.full_settings
  solo_settings := abreast.solo_settings
  begun := by
    rw [quiet.freshBytes]
    exact abreast.begun
  full_vars := by
    rw [quiet.supplied, quiet.freshBytes]
    exact abreast.full_vars
  solo_vars := by
    rw [quiet'.supplied]
    exact abreast.solo_vars
  increasing := abreast.increasing
  below := by
    rw [quiet.freshBytes]
    exact abreast.below
  cells := abreast.cells

variable (root start draws)

/-- Two computations do alike wherever two runs are abreast: they return what is related or fail
    alike, and the runs are abreast again. -/
def Alike {α α' : Type} (related : List Nat → α → α' → Prop) (x : On Memory α) (x' : On Memory α') : Prop :=
  ∀ later full solo, draws <+: later → Abreast root start later full solo →
    (∃ a full' a' solo' last, x full = .ok a full' ∧ x' solo = .ok a' solo' ∧ later <+: last ∧
      Abreast root start last full' solo' ∧ related last a a') ∨
    ∃ e full' solo' last, x full = .error e full' ∧ x' solo = .error e solo' ∧ later <+: last ∧
      Abreast root start last full' solo'

variable {root start draws}

namespace Alike

variable {α α' β β' : Type} {related : List Nat → α → α' → Prop} {related' : List Nat → β → β' → Prop}

theorem pure {a : α} {a' : α'} (h : ∀ later, draws <+: later → related later a a') :
    Alike root start draws related (Pure.pure a) (Pure.pure a') := by
  intro later full solo longer abreast
  exact .inl ⟨a, full, a', solo, later, rfl, rfl, List.prefix_refl _, abreast, h later longer⟩

theorem throw (e : Failure) :
    Alike root start draws related (MonadExcept.throw e) (MonadExcept.throw e) := by
  intro later full solo longer abreast
  exact .inr ⟨e, full, solo, later, rfl, rfl, List.prefix_refl _, abreast⟩

theorem bind {x : On Memory α} {x' : On Memory α'} {f : α → On Memory β} {f' : α' → On Memory β'}
    (hx : Alike root start draws related x x')
    (hf : ∀ later a a', draws <+: later → related later a a' → Alike root start later related' (f a) (f' a')) :
    Alike root start draws related' (x >>= f) (x' >>= f') := by
  intro later full solo longer abreast
  rcases hx later full solo longer abreast with
    ⟨a, full', a', solo', last, done, done', longer', abreast', rel⟩ |
    ⟨e, full', solo', last, failed, failed', longer', abreast'⟩
  · have next := hf last a a' (longer.trans longer') rel last full' solo' (List.prefix_refl _) abreast'
    simp only [Bind.bind, EStateM.bind, done, done']
    rcases next with
      ⟨b, full'', b', solo'', last', done₂, done₂', longer₂, rest⟩ |
      ⟨e, full'', solo'', last', failed₂, failed₂', longer₂, rest⟩
    · exact .inl ⟨b, full'', b', solo'', last', done₂, done₂', longer'.trans longer₂, rest⟩
    · exact .inr ⟨e, full'', solo'', last', failed₂, failed₂', longer'.trans longer₂, rest⟩
  · refine .inr ⟨e, full', solo', last, ?_, ?_, longer', abreast'⟩
    · simp only [Bind.bind, EStateM.bind, failed]
    · simp only [Bind.bind, EStateM.bind, failed']

/-- The memories at hand differ in their cells only. -/
theorem thing : Alike root start draws
    (fun _ m μ => m.settings = root.settings ∧ μ.settings = root.settings) On.thing On.thing := by
  intro later full solo longer abreast
  exact .inl ⟨full.1, full, solo.1, solo, later, rfl, rfl, List.prefix_refl _, abreast,
    abreast.full_settings, abreast.solo_settings⟩

/-- Computations within the session that draw no name. -/
theorem lift {x : Run α} {x' : Run α'} (quiet : Leads Quiet x) (quiet' : Leads Quiet x')
    (h : ∀ s ς, (∃ a left a' left', x s = .ok a left ∧ x' ς = .ok a' left' ∧
        ∀ later, draws <+: later → related later a a') ∨
      ∃ e left left', x s = .error e left ∧ x' ς = .error e left') :
    Alike root start draws related (liftM x) (liftM x') := by
  intro later (m, s) (μ, ς) longer abreast
  simp only [liftM, monadLift, MonadLift.monadLift, On.run]
  rcases h s ς with ⟨a, left, a', left', done, done', rel⟩ | ⟨e, left, left', failed, failed'⟩
  · refine .inl ⟨a, (m, left), a', (μ, left'), later, ?_, ?_, List.prefix_refl _,
      abreast.quiet (quiet.of_ok done) (quiet'.of_ok done'), rel later longer⟩
    · rw [done]
    · rw [done']
  · refine .inr ⟨e, (m, left), (μ, left'), later, ?_, ?_, List.prefix_refl _,
      abreast.quiet (quiet.of_error failed) (quiet'.of_error failed')⟩
    · rw [failed]
    · rw [failed']

end Alike

theorem make_alike {built built' : Except Fault Expr}
    (twins : Twins (root.Pending start) (Paired root start draws) built built') :
    Alike root start draws (TwinAt root start) (liftM (make built)) (liftM (make built')) := by
  refine .lift (make_quiet _) (make_quiet _) fun s ς => ?_
  cases twins with
  | @ok e e' twin =>
      refine .inl ⟨_, _, _, _, rfl, rfl, fun later longer => ?_⟩
      exact TwinAt.mono longer ((twin.stamp_left s.nextTag).stamp_right ς.nextTag)
  | error => exact .inr ⟨_, _, _, rfl, rfl⟩

theorem count_alike {counter : Counter} (other : counter ≠ .freshByte) :
    Alike root start draws (fun _ _ _ => True) (liftM (count counter)) (liftM (count counter)) :=
  .lift (count_quiet other) (count_quiet other) fun _ _ => .inl ⟨_, _, _, _, rfl, rfl, fun _ _ => trivial⟩

theorem wrap_of_settings {m : Memory} (same : m.settings = root.settings) (address : UInt64) :
    m.wrap address = root.wrap address := by
  have bits : m.bits = root.bits := congrArg (·.bits) same
  rw [wrap, wrap, bits]

theorem rel_mono {α β : Type} {R R' : α → β → Prop} (weaker : ∀ a b, R a b → R' a b) {a : Option α}
    {b : Option β} (related : Option.Rel R a b) : Option.Rel R' a b := by
  cases related with
  | some rel => exact .some (weaker _ _ rel)
  | none => exact .none

/-- One more cell on both sides. -/
theorem Abreast.put {m μ : Memory} {s ς : Session} (abreast : Abreast root start draws (m, s) (μ, ς))
    (address : UInt64) {cell cell' : Expr} (twin : TwinAt root start draws cell cell') :
    Abreast root start draws (m.put address cell, s) (μ.put address cell', ς) where
  full_settings := abreast.full_settings
  solo_settings := abreast.solo_settings
  begun := abreast.begun
  full_vars := abreast.full_vars
  solo_vars := abreast.solo_vars
  increasing := abreast.increasing
  below := abreast.below
  cells other := by
    simp only [Memory.put, cell?_insert]
    split
    · exact .some twin
    · exact abreast.cells other

/-- The next name is drawn on both sides. -/
theorem Abreast.draw {m μ : Memory} {s s' ς ς' : Session} (abreast : Abreast root start draws (m, s) (μ, ς))
    (vars : (s'.supplied root.store.supply).vars = (s.supplied root.store.supply).vars + 1)
    (fresh : s'.freshBytes = s.freshBytes + 1)
    (vars' : (ς'.supplied root.store.supply).vars = (ς.supplied root.store.supply).vars + 1) :
    Abreast root start (draws ++ [s.freshBytes - start.freshBytes]) (m, s') (μ, ς') := by
  have begun : start.freshBytes ≤ s.freshBytes := abreast.begun
  have one : ∀ n : Nat, UInt64.ofNat n + 1 = UInt64.ofNat (n + 1) := fun n => (UInt64.ofNat_add n 1).symm
  refine ⟨abreast.full_settings, abreast.solo_settings, ?_, ?_, ?_, ?_, ?_, fun address => ?_⟩
  · show start.freshBytes ≤ s'.freshBytes
    omega
  · show (s'.supplied root.store.supply).vars = _
    rw [vars, abreast.full_vars, fresh, UInt64.add_assoc, one, Nat.sub_add_comm begun]
  · show (ς'.supplied root.store.supply).vars = _
    rw [vars', abreast.solo_vars, List.length_append, UInt64.add_assoc, one]
    rfl
  · refine List.pairwise_append.mpr ⟨abreast.increasing, List.pairwise_singleton _ _, ?_⟩
    intro d member d' last
    rw [List.mem_singleton.mp last]
    exact abreast.below d member
  · intro d member
    show d < s'.freshBytes - start.freshBytes
    rcases List.mem_append.mp member with before | last
    · have := abreast.below d before
      simp only at this
      omega
    · rw [List.mem_singleton.mp last]
      omega
  · exact rel_mono (fun _ _ => TwinAt.mono (List.prefix_append _ _)) (abreast.cells address)

/-- The next names of the two runs correspond once they are drawn. -/
theorem Abreast.next_twin {m μ : Memory} {s ς : Session} (abreast : Abreast root start draws (m, s) (μ, ς))
    (tag tag' : Tag) (width : UInt64) :
    TwinAt root start (draws ++ [s.freshBytes - start.freshBytes])
      (.var tag ⟨byteName root.id (s.supplied root.store.supply).vars, width⟩)
      (.var tag' ⟨byteName root.id (ς.supplied root.store.supply).vars, width⟩) := by
  refine .byte ⟨draws.length, s.freshBytes - start.freshBytes, List.getElem?_concat_length, ?_, ?_⟩
  · rw [abreast.full_vars, drawnName]
  · rw [abreast.solo_vars, drawnName]

/-- A byte that neither memory holds comes into being in both. -/
theorem Abreast.materialize {m μ : Memory} {s ς : Session} (abreast : Abreast root start draws (m, s) (μ, ς))
    (address : UInt64) : ∃ cell left cell' left' last, m.store.materialize address s = .ok cell left ∧
      μ.store.materialize address ς = .ok cell' left' ∧ draws <+: last ∧
      Abreast root start last (m, left) (μ, left') ∧ TwinAt root start last cell cell' := by
  obtain ⟨tag, left, made⟩ := m.store.materialize_cases address s
  obtain ⟨tag', left', made'⟩ := μ.store.materialize_cases address ς
  rw [image_of_settings abreast.full_settings, supply_of_settings abreast.full_settings,
    show m.store.id = root.id from id_of_settings abreast.full_settings] at made
  rw [image_of_settings abreast.solo_settings, supply_of_settings abreast.solo_settings,
    show μ.store.id = root.id from id_of_settings abreast.solo_settings] at made'
  rcases made with ⟨b, image, made, quiet⟩ | ⟨image, made, supplied, fresh⟩
  · rcases made' with ⟨b', image', made', quiet'⟩ | ⟨image', _⟩
    · cases image.symm.trans image'
      exact ⟨_, left, _, left', draws, made, made', List.prefix_refl _, abreast.quiet quiet quiet', .const⟩
    · cases image.symm.trans image'
  · rcases made' with ⟨b', image', _⟩ | ⟨_, made', supplied', _⟩
    · cases image.symm.trans image'
    · refine ⟨_, left, _, left', _, made, made', List.prefix_append _ _, abreast.draw ?_ fresh ?_,
        abreast.next_twin tag tag' 8⟩
      · rw [supplied]
      · rw [supplied']

theorem readCell_alike (address : UInt64) :
    Alike root start draws (TwinAt root start) (readCell address) (readCell address) := by
  intro later (m, s) (μ, ς) longer abreast
  have here : m.wrap address = μ.wrap address :=
    wrap_of_settings (abreast.full_settings.trans abreast.solo_settings.symm) address
  have cells : Option.Rel (TwinAt root start later) (m.cell? (m.wrap address)) (μ.cell? (μ.wrap address)) :=
    here ▸ abreast.cells (m.wrap address)
  cases full : m.cell? (m.wrap address) with
  | some cell =>
      cases solo : μ.cell? (μ.wrap address) with
      | none =>
          rw [full, solo] at cells
          cases cells
      | some cell' =>
          rw [full, solo] at cells
          cases cells with | some twin =>
          exact .inl ⟨cell, (m, s), cell', (μ, ς), later, readCell_present full s, readCell_present solo ς,
            List.prefix_refl _, abreast, twin⟩
  | none =>
      cases solo : μ.cell? (μ.wrap address) with
      | some cell' =>
          rw [full, solo] at cells
          cases cells
      | none =>
          obtain ⟨cell, left, cell', left', last, made, made', longer', abreast', twin⟩ :=
            abreast.materialize (m.wrap address)
          refine .inl ⟨cell, _, cell', _, last, readCell_absent full made, readCell_absent solo (here ▸ made'),
            longer', ?_, twin⟩
          rw [← here]
          exact abreast'.put _ twin

theorem readMore_alike (count : Nat) (address : UInt64) {draws : List Nat} {soFar soFar' : Expr}
    (twin : TwinAt root start draws soFar soFar') :
    Alike root start draws (TwinAt root start) (readMore address count soFar) (readMore address count soFar') := by
  induction count generalizing address draws soFar soFar' with
  | zero => exact .pure fun later longer => twin.mono longer
  | succ count ih =>
      refine (readCell_alike address).bind fun later cell cell' longer cells => ?_
      refine Alike.thing.bind fun later' m μ longer' settings => ?_
      have order : m.littleEndian = μ.littleEndian := congrArg (·.littleEndian) (settings.1.trans settings.2.symm)
      have read := cells.mono longer'
      have before := twin.mono (longer.trans longer')
      rw [order]
      refine (make_alike ?_).bind fun last joined joined' longer₂ both => ih _ both
      split
      · exact read.append before
      · exact before.append read

theorem readValue_alike (address : UInt64) (count : Nat) :
    Alike root start draws (TwinAt root start) (readValue address count) (readValue address count) :=
  (readCell_alike address).bind fun _ _ _ _ cells => readMore_alike _ _ cells

theorem readEach_alike (count : Nat) (address : UInt64) {draws : List Nat} {soFar soFar' : List Expr}
    (twins : List.Forall₂ (TwinAt root start draws) soFar soFar') :
    Alike root start draws (fun later => List.Forall₂ (TwinAt root start later)) (readEach address count soFar)
      (readEach address count soFar') := by
  induction count generalizing address draws soFar soFar' with
  | zero => exact .pure fun later longer => List.rel_reverse (twins.imp fun _ _ => TwinAt.mono longer)
  | succ count ih =>
      refine (readCell_alike address).bind fun later cell cell' longer cells => ih _ ?_
      exact .cons cells (twins.imp fun _ _ => TwinAt.mono longer)

theorem readBytes_alike (address : UInt64) (count : Int) :
    Alike root start draws (fun later => List.Forall₂ (TwinAt root start later)) (readBytes address count)
      (readBytes address count) := by
  unfold readBytes
  split
  · exact (Alike.throw _).bind fun _ _ _ _ (no : False) => no.elim
  · exact readEach_alike _ _ .nil

theorem writeCell_alike (address : UInt64) {cell cell' : Expr} (twin : TwinAt root start draws cell cell') :
    Alike root start draws (fun _ _ _ => True) (writeCell address cell) (writeCell address cell') := by
  intro later (m, s) (μ, ς) longer abreast
  have same : m.settings = μ.settings := abreast.full_settings.trans abreast.solo_settings.symm
  have here : m.wrap address = μ.wrap address := wrap_of_settings same address
  by_cases byte : cell.width = 8
  · have byte' : cell'.width = 8 := twin.width_eq ▸ byte
    refine .inl ⟨(), _, (), _, later, writeCell_byte byte .., writeCell_byte byte' .., List.prefix_refl _, ?_,
      trivial⟩
    rw [here]
    exact abreast.put _ (twin.mono longer)
  · have other' : cell'.width ≠ 8 := twin.width_eq ▸ byte
    refine .inr ⟨_, _, _, later, writeCell_other byte .., ?_, List.prefix_refl _, abreast⟩
    rw [writeCell_other other', twin.width_eq]

theorem writeMore_alike {value : Expr} (settled : value.Settled (root.Pending start)) (count left : Nat)
    (address : UInt64) :
    Alike root start draws (fun _ _ _ => True) (writeMore value count left address)
      (writeMore value count left address) := by
  induction left generalizing address draws with
  | zero => exact .pure fun _ _ => trivial
  | succ left ih =>
      refine Alike.thing.bind fun later m μ longer settings => ?_
      have order : m.littleEndian = μ.littleEndian := congrArg (·.littleEndian) (settings.1.trans settings.2.symm)
      rw [order]
      refine (make_alike (settled.slice_twins _ _)).bind fun later' cell cell' longer' cells => ?_
      exact (writeCell_alike address cells).bind fun _ _ _ _ _ => ih _

theorem writeBytes_alike (bytes : List UInt8) (address : UInt64) :
    Alike root start draws (fun _ _ _ => True) (writeBytes address bytes) (writeBytes address bytes) := by
  induction bytes generalizing address draws with
  | nil => exact .pure fun _ _ => trivial
  | cons b rest ih =>
      refine (make_alike (.ok .const)).bind fun later cell cell' longer cells => ?_
      exact (writeCell_alike address cells).bind fun _ _ _ _ _ => ih _

section Accesses

variable {tag tag' : Tag} {w : Word}

/-- A constant address stays a constant, if it can be brought to size at all. -/
theorem sized_const {address : Value} (constant : address.expr = .const tag w) (bits : UInt64) :
    (∃ w', ∀ (m : Memory) s, m.bits = bits → ∃ v tag' left, m.sized address s = .ok v left ∧
      v.expr = .const tag' w') ∨
    ∃ fault, ∀ (m : Memory) s, m.bits = bits → ∃ left, m.sized address s = .error (.fault fault) left := by
  by_cases same : address.width = bits
  · refine .inl ⟨w, fun m s wide => ⟨address, tag, s, ?_, constant⟩⟩
    rw [sized, wide, if_pos same]
    rfl
  obtain ⟨r, resized⟩ := resize_const w bits
  obtain ⟨tag', resized⟩ := resized tag
  have step : ∀ m : Memory, m.bits = bits → m.sized address = do
      return address.withExpr (← make (r.map (Expr.const tag'))) := by
    intro m wide
    rw [sized, wide, if_neg same, constant, resized]
  cases r with
  | error fault =>
      refine .inr ⟨fault, fun m s wide => ⟨s, ?_⟩⟩
      rw [step m wide]
      rfl
  | ok w' =>
      refine .inl ⟨w', fun m s wide => ?_⟩
      rw [step m wide]
      cases tag' with
      | none => exact ⟨_, _, _, rfl, rfl⟩
      | some n => exact ⟨_, _, _, rfl, rfl⟩

theorem sized_alike {address : Value} (constant : address.expr = .const tag w) {m μ : Memory}
    (same : m.bits = μ.bits) :
    Alike root start draws (fun _ v v' => ∃ tag tag' w, v.expr = .const tag w ∧ v'.expr = .const tag' w)
      (liftM (m.sized address)) (liftM (μ.sized address)) := by
  refine .lift (sized_quiet m address) (sized_quiet μ address) fun s ς => ?_
  rcases sized_const constant μ.bits with ⟨w', sized⟩ | ⟨fault, sized⟩
  · obtain ⟨v, tag₁, left, done, isConst⟩ := sized m s same
    obtain ⟨v', tag₂, left', done', isConst'⟩ := sized μ ς rfl
    exact .inl ⟨v, left, v', left', done, done', fun _ _ => ⟨tag₁, tag₂, w', isConst, isConst'⟩⟩
  · obtain ⟨left, failed⟩ := sized m s same
    obtain ⟨left', failed'⟩ := sized μ ς rfl
    exact .inr ⟨_, left, left', failed, failed'⟩

theorem concretize_eq_observe {v : Value} (constant : v.expr = .const tag w) (access : Access)
    (strategies : List Strategy) :
    concretize access v strategies = liftM (Concretizer.observe .unique ⟨w.value, []⟩) := by
  funext (m, s)
  simp only [concretize, On.thing, bind, EStateM.bind, tryCatch, tryCatchThe, MonadExceptOf.tryCatch,
    EStateM.tryCatch, Concretizer.concretize_const _ constant]
  rfl

theorem concretize_alike {v v' : Value} (constant : v.expr = .const tag w)
    (constant' : v'.expr = .const tag' w) (access : Access) (strategies : List Strategy) :
    Alike root start draws (fun _ found found' => found = ⟨w.value, []⟩ ∧ found' = ⟨w.value, []⟩)
      (concretize access v strategies) (concretize access v' strategies) := by
  rw [concretize_eq_observe constant, concretize_eq_observe constant']
  exact .lift (Concretizer.observe_quiet _ _) (Concretizer.observe_quiet _ _)
    fun _ _ => .inl ⟨_, _, _, _, rfl, rfl, fun _ _ => ⟨rfl, rfl⟩⟩

theorem pinned_twins {m μ : Memory} (same : m.bits = μ.bits) {v v' : Value}
    (constant : v.expr = .const tag w) (constant' : v'.expr = .const tag' w) (concrete : UInt64)
    {fresh : String → Prop} {paired : String → String → Prop} :
    Twins fresh paired (m.pinned v concrete) (μ.pinned v' concrete) := by
  rw [pinned, pinned, same, constant, constant', Expr.constant]
  cases Word.make concrete μ.bits with
  | error fault => exact .error
  | ok there =>
      obtain ⟨r, applied⟩ := apply_const .eq w there
      obtain ⟨tag₁, full⟩ := applied tag none
      obtain ⟨tag₂, solo⟩ := applied tag' none
      simp only [Except.map, bind, Except.bind]
      rw [full, solo]
      exact Twins.map_const r tag₁ tag₂

/-- A store at a constant address. -/
theorem storeAt_alike {address : Value} (constant : address.expr = .const tag w) {value : Expr}
    (settled : value.Settled (root.Pending start)) :
    Alike root start draws (fun later => List.Forall₂ (TwinAt root start later)) (storeAt address value)
      (storeAt address value) := by
  refine (count_alike (by simp)).bind fun _ _ _ _ _ => ?_
  split
  · exact (Alike.throw _).bind fun _ _ _ _ (no : False) => no.elim
  refine Alike.thing.bind fun _ m μ _ settings => ?_
  have bits : m.bits = μ.bits := congrArg (·.bits) (settings.1.trans settings.2.symm)
  refine (sized_alike constant bits).bind fun _ v v' _ ⟨tag, tag', w, constant, constant'⟩ => ?_
  refine (concretize_alike constant constant' _ _).bind ?_
  rintro _ _ _ _ ⟨rfl, rfl⟩
  refine (writeMore_alike settled _ _ _).bind fun _ _ _ _ _ => ?_
  refine (make_alike (pinned_twins bits constant constant' _)).bind fun _ c c' _ twin => ?_
  exact .pure fun _ longer => .cons (twin.mono longer) .nil

/-- A load from a constant address. -/
theorem loadFrom_alike {address : Value} (constant : address.expr = .const tag w) (width : UInt64) :
    Alike root start draws
      (fun later (value, cs) (value', cs') => List.Forall₂ (TwinAt root start later) (value :: cs) (value' :: cs'))
      (loadFrom address width) (loadFrom address width) := by
  refine (count_alike (by simp)).bind fun _ _ _ _ _ => ?_
  split
  · exact (Alike.throw _).bind fun _ _ _ _ (no : False) => no.elim
  refine Alike.thing.bind fun _ m μ _ settings => ?_
  have bits : m.bits = μ.bits := congrArg (·.bits) (settings.1.trans settings.2.symm)
  refine (sized_alike constant bits).bind fun _ v v' _ ⟨tag, tag', w, constant, constant'⟩ => ?_
  refine (concretize_alike constant constant' _ _).bind ?_
  rintro _ _ _ _ ⟨rfl, rfl⟩
  refine (readValue_alike _ _).bind fun _ value value' _ values => ?_
  refine (make_alike (pinned_twins bits constant constant' _)).bind fun _ c c' longer twin => ?_
  exact .pure fun _ longer' => .cons (values.mono (longer.trans longer')) (.cons (twin.mono longer') .nil)

end Accesses

end Abreast

end Memory

end SymbolicMemory
