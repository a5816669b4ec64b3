import Std.Data.String.ToNat
import SymbolicMemory.Proofs.Access
import SymbolicMemory.Proofs.Inquiry

/-! # Which names are drawn

Only two things draw a name: reading a byte for the first time, and a load from several
addresses. Looking for concrete addresses draws none, whatever the solver does, and so leaves the
supplies as they are. What is read draws one name for each byte that neither has a cell nor
stands in the image, in the order in which these bytes are met.
-/

namespace SymbolicMemory

namespace Names

/-- The name of a byte. -/
def byteName (id : String) (n : UInt64) : String := id ++ "_" ++ Text.decimal n

/-- The name of a value that was loaded from one of several addresses. -/
def valueName (id : String) (n : UInt64) : String := id ++ "_addr_" ++ Text.decimal n

theorem decimal_inj {a b : UInt64} (same : Text.decimal a = Text.decimal b) : a = b :=
  UInt64.toNat_inj.mp (Nat.repr_inj.mp same)

theorem byteName_inj {id : String} {a b : UInt64} (same : byteName id a = byteName id b) : a = b :=
  decimal_inj ((String.append_right_inj _).mp same)

theorem valueName_inj {id : String} {a b : UInt64} (same : valueName id a = valueName id b) : a = b :=
  decimal_inj ((String.append_right_inj _).mp same)

/-- What follows the mark of a loaded value is no digit of a number. -/
theorem byteName_ne_valueName (id : String) (a b : UInt64) : byteName id a ≠ valueName id b := by
  intro same
  rw [byteName, valueName, String.append_assoc, String.append_assoc, String.append_right_inj] at same
  have digits : Text.decimal a = "addr_" ++ Text.decimal b := by
    have split : "_addr_" = "_" ++ "addr_" := rfl
    rw [split, String.append_assoc, String.append_right_inj] at same
    exact same
  have letter : 'a' ∈ (Text.decimal a).toList := by
    rw [digits, String.toList_append]
    exact List.mem_append_left _ (by decide)
  rw [Text.decimal, Nat.repr_eq_ofList_toDigits, String.toList_ofList] at letter
  have digit := Nat.isDigit_of_mem_toDigits (by decide) (by decide) letter
  cases digit

end Names

namespace Session

/-- A name for a loaded value is the next one, and the one after it is next. -/
theorem draw_addr (supply : Supply) (id : String) (s : Session) :
    Ends (draw supply (·.nextAddr id)) s
      (fun name left => name = Names.valueName id (s.supplied supply).addrs ∧
        left.supplied supply = { s.supplied supply with addrs := (s.supplied supply).addrs + 1 } ∧
        left.freshBytes = s.freshBytes) (fun _ _ => False) := by
  cases supply <;> exact ⟨rfl, rfl, rfl⟩

theorem named_ensures (name : String) (width : UInt64) :
    Ensures (make (Expr.named name width)) (fun e => ∃ tag, e = .var tag ⟨name, width⟩)
      (fun _ => True) := by
  unfold Expr.named
  split
  · exact (make_erase _).mono (fun _ same => Store.eq_var_of_erase same) fun _ no => no.elim
  · exact (check_ok _).bind fun _ no => by cases no

end Session

open Names Session

namespace Memory

/-- A name that the supply of a memory has yet to hand out. -/
def Pending (m : Memory) (session : Session) (name : String) : Prop :=
  (∃ n, (session.supplied m.store.supply).vars ≤ n ∧ name = byteName m.id n) ∨
    ∃ n, (session.supplied m.store.supply).addrs ≤ n ∧ name = valueName m.id n

/-- What reading from a memory does: cells are added for bytes of the image and for fresh
    variables, with one name for each address that is listed. -/
structure Draws (m : Memory) (s : Session) (listed : List UInt64) (m' : Memory) (s' : Session) :
    Prop where
  settings_eq : m'.settings = m.settings
  supplied : s'.supplied m.store.supply = { s.supplied m.store.supply with
    vars := (s.supplied m.store.supply).vars + UInt64.ofNat listed.length }
  freshBytes : s'.freshBytes = s.freshBytes + listed.length
  kept : ∀ address cell, m.cell? address = some cell → m'.cell? address = some cell
  added : ∀ address cell, m.cell? address = none → m'.cell? address = some cell →
    (∃ b tag, m.store.image address = some b ∧ cell = .const tag ⟨b.toUInt64, 8⟩) ∨
    ∃ i tag, listed[i]? = some address ∧ cell = .var tag
      ⟨byteName m.id ((s.supplied m.store.supply).vars + UInt64.ofNat i), 8⟩
  nodup : listed.Nodup
  drawn : ∀ (i : Nat) address, listed[i]? = some address → m.cell? address = none ∧
    ∃ tag, m'.cell? address = some
      (.var tag ⟨byteName m.id ((s.supplied m.store.supply).vars + UInt64.ofNat i), 8⟩)

theorem supply_of_settings {m m' : Memory} (same : m'.settings = m.settings) :
    m'.store.supply = m.store.supply := congrArg (·.store.supply) same

theorem id_of_settings {m m' : Memory} (same : m'.settings = m.settings) : m'.id = m.id :=
  congrArg (·.store.id) same

theorem image_of_settings {m m' : Memory} (same : m'.settings = m.settings) :
    m'.store.image = m.store.image := congrArg (·.store.image) same

theorem Draws.trans {m m' m'' : Memory} {s s' s'' : Session} {listed more : List UInt64}
    (first : m.Draws s listed m' s') (second : m'.Draws s' more m'' s'') :
    m.Draws s (listed ++ more) m'' s'' := by
  have supply := supply_of_settings first.settings_eq
  have vars : (s'.supplied m'.store.supply).vars =
      (s.supplied m.store.supply).vars + UInt64.ofNat listed.length := by
    rw [supply, first.supplied]
  have shifted : ∀ i, byteName m'.id ((s'.supplied m'.store.supply).vars + UInt64.ofNat i) =
      byteName m.id ((s.supplied m.store.supply).vars + UInt64.ofNat (listed.length + i)) := by
    intro i
    rw [vars, id_of_settings first.settings_eq, UInt64.ofNat_add, UInt64.add_assoc]
  refine ⟨second.settings_eq.trans first.settings_eq, ?_, ?_, ?_, ?_, ?_, ?_⟩
  · rw [← supply, second.supplied, supply, first.supplied, List.length_append, UInt64.ofNat_add,
      UInt64.add_assoc]
  · rw [second.freshBytes, first.freshBytes, List.length_append, Nat.add_assoc]
  · intro address cell present
    exact second.kept address cell (first.kept address cell present)
  · intro address cell absent present
    cases between : m'.cell? address with
    | some other =>
        rw [second.kept address other between] at present
        cases present
        rcases first.added address cell absent between with image | ⟨i, tag, place, fresh⟩
        · exact .inl image
        · refine .inr ⟨i, tag, ?_, fresh⟩
          rw [List.getElem?_append_left (List.getElem?_eq_some_iff.mp place).1]
          exact place
    | none =>
        rcases second.added address cell between present with ⟨b, tag, image, same⟩ | ⟨i, tag, place, fresh⟩
        · exact .inl ⟨b, tag, image_of_settings first.settings_eq ▸ image, same⟩
        · refine .inr ⟨listed.length + i, tag, ?_, ?_⟩
          · rw [List.getElem?_append_right (Nat.le_add_right _ _), Nat.add_sub_cancel_left]
            exact place
          · rw [fresh, shifted]
  · refine List.nodup_append.mpr ⟨first.nodup, second.nodup, ?_⟩
    rintro address before _ after rfl
    obtain ⟨i, place⟩ := List.mem_iff_getElem?.mp before
    obtain ⟨j, place'⟩ := List.mem_iff_getElem?.mp after
    obtain ⟨_, _, present⟩ := first.drawn i address place
    cases present.symm.trans (second.drawn j address place').1
  · intro i address place
    rcases Nat.lt_or_ge i listed.length with inFirst | inSecond
    · rw [List.getElem?_append_left inFirst] at place
      obtain ⟨absent, tag, present⟩ := first.drawn i address place
      exact ⟨absent, tag, second.kept address _ present⟩
    · rw [List.getElem?_append_right inSecond] at place
      obtain ⟨absent, tag, present⟩ := second.drawn _ address place
      refine ⟨?_, tag, ?_⟩
      · cases before : m.cell? address with
        | none => rfl
        | some cell => cases absent.symm.trans (first.kept address cell before)
      · rw [present, shifted, Nat.add_sub_cancel' inSecond]

theorem Draws.mentions {m m' : Memory} {s s' : Session} {listed : List UInt64}
    (draws : m.Draws s listed m' s') {v : Var} (mentions : m'.Mentions v) :
    m.Mentions v ∨ ∃ i < listed.length,
      v = ⟨byteName m.id ((s.supplied m.store.supply).vars + UInt64.ofNat i), 8⟩ := by
  obtain ⟨address, cell, present, occurs⟩ := mentions
  cases before : m.cell? address with
  | some old =>
      cases (draws.kept address old before).symm.trans present
      exact .inl ⟨address, cell, before, occurs⟩
  | none =>
      rcases draws.added address cell before present with ⟨b, tag, _, rfl⟩ | ⟨i, tag, place, rfl⟩
      · cases occurs
      · cases List.mem_singleton.mp occurs
        exact .inr ⟨i, (List.getElem?_eq_some_iff.mp place).1, rfl⟩

/-- A memory and its session, before and after something is read. -/
def Reading (before after : Memory × Session) : Prop :=
  ∃ listed, before.1.Draws before.2 listed after.1 after.2

theorem Reading.of_quiet (m : Memory) {s s' : Session} (quiet : Quiet s s') : Reading (m, s) (m, s') := by
  refine ⟨[], rfl, ?_, quiet.freshBytes, fun _ _ h => h, ?_, .nil, fun _ _ none => by cases none⟩
  · rw [quiet.supplied]
    simp
  · intro address cell absent present
    cases absent.symm.trans present

instance : Std.Refl Reading := ⟨fun before => .of_quiet before.1 (Std.Refl.refl before.2)⟩

instance : Trans Reading Reading Reading where
  trans := fun ⟨_, first⟩ ⟨_, second⟩ => ⟨_, first.trans second⟩

theorem lift_reading {α : Type} {x : Run α} (quiet : Leads Quiet x) :
    Leads Reading (liftM x : On Memory α) := by
  intro (m, s)
  simp only [liftM, monadLift, MonadLift.monadLift, On.run]
  cases result : x s with
  | ok a s' => exact Reading.of_quiet m (quiet.of_ok result)
  | error e s' => exact Reading.of_quiet m (quiet.of_error result)

theorem thing_reading : Leads Reading (On.thing : On Memory Memory) := fun before =>
  (Std.Refl.refl before : Reading before before)

end Memory

/-- A byte that was never touched comes from the image, or has the next name of its supply. -/
theorem Store.materialize_cases (s : Store) (address : UInt64) (session : Session) :
    ∃ tag left, (∃ b, s.image address = some b ∧
        s.materialize address session = .ok (.const tag ⟨b.toUInt64, 8⟩) left ∧ Quiet session left) ∨
      s.image address = none ∧
        s.materialize address session =
          .ok (.var tag ⟨byteName s.id (session.supplied s.supply).vars, 8⟩) left ∧
        left.supplied s.supply = { session.supplied s.supply with
          vars := (session.supplied s.supply).vars + 1 } ∧
        left.freshBytes = session.freshBytes + 1 := by
  unfold materialize
  cases image : s.image address with
  | some b =>
      refine ⟨some session.nextTag, _, .inl ⟨b, rfl, rfl, fun supply => ?_, ?_⟩⟩
      · cases supply <;> rfl
      · exact List.count_cons_of_ne (by simp)
  | none =>
      cases s.supply with
      | own => exact ⟨some session.nextTag, _, .inr ⟨rfl, rfl, rfl, List.count_cons_self⟩⟩
      | standard => exact ⟨some session.nextTag, _, .inr ⟨rfl, rfl, rfl, List.count_cons_self⟩⟩

namespace Memory

/-- A memory with one more cell, or with another one in its place. -/
def put (m : Memory) (address : UInt64) (cell : Expr) : Memory :=
  { m with store := { m.store with cells := m.store.cells.insert address cell } }

theorem readCell_present {m : Memory} {address : UInt64} {cell : Expr}
    (present : m.cell? (m.wrap address) = some cell) (s : Session) :
    readCell address (m, s) = .ok cell (m, s) := by
  simp only [readCell, On.thing, bind, EStateM.bind, onStore, On.part, Store.read, present]
  rfl

theorem readCell_absent {m : Memory} {address : UInt64} (absent : m.cell? (m.wrap address) = none)
    {s left : Session} {cell : Expr} (made : m.store.materialize (m.wrap address) s = .ok cell left) :
    readCell address (m, s) = .ok cell (m.put (m.wrap address) cell, left) := by
  simp only [readCell, On.thing, bind, EStateM.bind, onStore, On.part, Store.read, absent, liftM,
    monadLift, MonadLift.monadLift, On.run, made]
  rfl

theorem readCell_reading (address : UInt64) : Leads Reading (readCell address) := by
  intro (m, s)
  cases present : m.cell? (m.wrap address) with
  | some cell =>
      rw [readCell_present present]
      exact (Std.Refl.refl (m, s) : Reading (m, s) (m, s))
  | none =>
      have kept : ∀ cell other cell', m.cell? other = some cell' →
          (m.put (m.wrap address) cell).cell? other = some cell' := by
        intro cell other cell' there
        rw [put, cell?_insert, if_neg]
        · exact there
        · rintro rfl
          cases present.symm.trans there
      have added : ∀ cell other cell', m.cell? other = none →
          (m.put (m.wrap address) cell).cell? other = some cell' →
          other = m.wrap address ∧ cell' = cell := by
        intro cell other cell' absent there
        rw [put, cell?_insert] at there
        split at there
        · next same =>
          cases there
          exact ⟨same.symm, rfl⟩
        · cases absent.symm.trans there
      obtain ⟨tag, left, ⟨b, image, made, quiet⟩ | ⟨image, made, supplied, fresh⟩⟩ :=
        m.store.materialize_cases (m.wrap address) s
      · rw [readCell_absent present made]
        refine ⟨[], rfl, ?_, quiet.freshBytes, kept _, ?_, .nil, fun _ _ none => by cases none⟩
        · rw [quiet.supplied]
          simp
        · intro other cell' absent there
          obtain ⟨rfl, rfl⟩ := added _ other cell' absent there
          exact .inl ⟨b, tag, image, rfl⟩
      · rw [readCell_absent present made]
        have first : (s.supplied m.store.supply).vars + UInt64.ofNat 0 = (s.supplied m.store.supply).vars :=
          UInt64.add_zero _
        refine ⟨[m.wrap address], rfl, supplied, fresh, kept _, ?_, List.pairwise_singleton _ _, ?_⟩
        · intro other cell' absent there
          obtain ⟨rfl, rfl⟩ := added _ other cell' absent there
          refine .inr ⟨0, tag, rfl, ?_⟩
          rw [first]
          rfl
        · intro i other place
          obtain ⟨rfl, rfl⟩ : i = 0 ∧ m.wrap address = other := by
            simpa [List.getElem?_singleton] using place
          refine ⟨present, tag, ?_⟩
          rw [first, put, cell?_insert, if_pos rfl]
          rfl

theorem readMore_reading (address : UInt64) (count : Nat) (soFar : Expr) :
    Leads Reading (readMore address count soFar) := by
  induction count generalizing address soFar with
  | zero => exact .pure _
  | succ count ih =>
      refine (readCell_reading address).bind fun cell => thing_reading.bind fun m => ?_
      exact (lift_reading (make_quiet _)).bind fun joined => ih _ _

theorem readValue_reading (address : UInt64) (count : Nat) : Leads Reading (readValue address count) :=
  (readCell_reading address).bind fun _ => readMore_reading _ _ _

theorem readCases_reading (address : Value) (result : Expr) (count : Nat) (concretes : List UInt64) :
    Leads Reading (readCases address result count concretes) := by
  induction concretes with
  | nil => exact .pure _
  | cons concrete rest ih =>
      refine (readValue_reading concrete count).bind fun value => thing_reading.bind fun m => ?_
      exact (lift_reading (make_quiet _)).bind fun here => ih.bind fun _ => .pure _

theorem sized_quiet (m : Memory) (address : Value) : Leads Quiet (m.sized address) := by
  unfold sized
  split
  · exact .pure _
  · exact (make_quiet _).bind fun _ => .pure _

/-- How an address was narrowed down: it was brought to size, and a search that drew no name ended
    with concrete addresses. -/
structure Resolved (l : Layout) (m : Memory) (address : Value) (strategies : List Strategy)
    (session : Session) (v : Value) (found : Addresses) (mid : Session) : Prop where
  sized : Sized l address v
  answer : ∃ before, m.concretizer.concretize v strategies before = .ok found mid
  quiet : Quiet session mid

/-- An access looks for concrete addresses as its concretizer does, leaves the memory alone, and
    reports an error of the search as its own. -/
theorem ends_concretize {m : Memory} {v : Value} {strategies : List Strategy} {session : Session}
    {returns : Addresses → Session → Prop} {fails : Failure → Session → Prop} (access : Access)
    (h : Ends (m.concretizer.concretize v strategies) session returns fails) :
    Ends (concretize access v strategies) (m, session)
      (fun found (new, left) => new = m ∧ returns found left)
      (fun f (new, left) => new = m ∧ ∃ cause, fails cause left ∧
        ∀ e, f = .error e → ∃ inner, cause = .error inner ∧ e = .access access v.expr inner) := by
  simp only [Ends, concretize, On.thing, bind, EStateM.bind, tryCatch, tryCatchThe,
    MonadExceptOf.tryCatch, EStateM.tryCatch, liftM, monadLift, MonadLift.monadLift, On.run]
  cases result : m.concretizer.concretize v strategies session with
  | ok found left => exact ⟨rfl, h.of_ok result⟩
  | error f left =>
      have here := h.of_error result
      cases f with
      | error inner =>
          refine ⟨rfl, _, here, ?_⟩
          rintro _ ⟨⟩
          exact ⟨inner, rfl, rfl⟩
      | fault fault =>
          refine ⟨rfl, _, here, ?_⟩
          rintro _ ⟨⟩

theorem concretize_ends (m : Memory) (access : Access) (v : Value) (strategies : List Strategy)
    (session : Session) :
    Ends (concretize access v strategies) (m, session)
      (fun found (new, left) => new = m ∧ m.concretizer.concretize v strategies session = .ok found left)
      (fun _ (new, left) => new = m ∧ Quiet session left) := by
  have search : Ends (m.concretizer.concretize v strategies) session
      (fun found left => m.concretizer.concretize v strategies session = .ok found left)
      (fun _ left => Quiet session left) :=
    .intro (fun _ _ done => done) fun _ _ => (Concretizer.concretize_quiet v m.concretizer strategies).of_error
  have ends := ends_concretize access search
  refine .intro (fun _ _ => ends.of_ok) fun _ _ failed => ?_
  obtain ⟨same, _, quiet, _⟩ := ends.of_error failed
  exact ⟨same, quiet⟩

/-- The memory aside, no name was drawn. -/
def Silent (before after : Memory × Session) : Prop := Quiet before.2 after.2

instance : Std.Refl Silent := ⟨fun before => (Std.Refl.refl before.2 : Quiet before.2 before.2)⟩

instance : Trans Silent Silent Silent where
  trans := fun first second => (Trans.trans (first : Quiet _ _) (second : Quiet _ _) : Quiet _ _)

theorem lift_silent {α : Type} {x : Run α} (quiet : Leads Quiet x) :
    Leads Silent (liftM x : On Memory α) := by
  intro (m, s)
  simp only [liftM, monadLift, MonadLift.monadLift, On.run]
  cases result : x s with
  | ok a s' => exact quiet.of_ok result
  | error e s' => exact quiet.of_error result

theorem writeCell_byte {cell : Expr} (byte : cell.width = 8) (m : Memory) (address : UInt64) (s : Session) :
    writeCell address cell (m, s) = .ok () (m.put (m.wrap address) cell, s) := by
  simp only [writeCell, On.thing, bind, EStateM.bind, onStore, On.part, Store.write]
  rw [if_neg fun other => other byte]
  rfl

theorem writeCell_other {cell : Expr} (other : cell.width ≠ 8) (m : Memory) (address : UInt64) (s : Session) :
    writeCell address cell (m, s) = .error (.fault (.cellWidth cell.width)) (m, s) := by
  simp only [writeCell, On.thing, bind, EStateM.bind, onStore, On.part, Store.write]
  rw [if_pos other]
  rfl

theorem writeCell_silent (address : UInt64) (cell : Expr) : Leads Silent (writeCell address cell) := by
  intro (m, s)
  by_cases byte : cell.width = 8
  · rw [writeCell_byte byte]
    exact (Std.Refl.refl s : Quiet s s)
  · rw [writeCell_other byte]
    exact (Std.Refl.refl s : Quiet s s)

theorem thing_silent : Leads Silent (On.thing : On Memory Memory) := fun before =>
  (Std.Refl.refl before : Silent before before)

theorem writeMore_silent (value : Expr) (count left : Nat) (address : UInt64) :
    Leads Silent (writeMore value count left address) := by
  induction left generalizing address with
  | zero => exact .pure _
  | succ left ih =>
      refine thing_silent.bind fun m => (lift_silent (make_quiet _)).bind fun cell => ?_
      exact (writeCell_silent address cell).bind fun _ => ih _

theorem storeFound_silent (m : Memory) (v : Value) (value : Expr) (found : Addresses) :
    Leads Silent (storeFound m v value found) :=
  (writeMore_silent value _ _ found.first).bind fun _ => (lift_silent (make_quiet _)).bind fun _ => .pure _

section Accesses

variable {l : Layout} {m : Memory} (fits : m.Fits l) {address : Value} (wf : address.expr.WellFormed)

include fits wf

/-- What comes of an access is what comes of it once the address is narrowed down. -/
theorem resolving_ends {α : Type} (access : Access) (strategies : List Strategy)
    {session start : Session} (begun : Quiet session start) {rest : Value → Addresses → On Memory α}
    {returns : α → Memory × Session → Prop} {fails : Failure → Memory × Session → Prop}
    (go : ∀ v found mid, Resolved l m address strategies session v found mid →
      Ends (rest v found) (m, mid) returns fails)
    (stop : ∀ e left, Quiet session left → fails e (m, left)) :
    Ends (liftM (m.sized address) >>= fun v => concretize access v strategies >>= rest v) (m, start)
      returns fails := by
  have sizing := (sized_ensures fits wf).ends (sized_quiet m address) start
  refine On.ends_first sizing (fun e left h => h.1.elim) ?_
  rintro v middle ⟨sized, quiet⟩
  have before : Quiet session middle := Trans.trans begun quiet
  refine (concretize_ends m access v strategies middle).bind ?_ ?_
  · rintro e ⟨_, left⟩ ⟨rfl, later⟩
    exact stop e left (Trans.trans before later)
  · rintro found ⟨_, left⟩ ⟨rfl, answer⟩
    have later := (Concretizer.concretize_quiet v _ strategies).of_ok answer
    exact go v found left ⟨sized, ⟨middle, answer⟩, (Trans.trans before later : Quiet session left)⟩

/-- The name for the next value that is loaded from one of several addresses. -/
abbrev nextValue (m : Memory) (s : Session) : String := valueName m.id (s.supplied m.store.supply).addrs

/-- What a load from one or several addresses draws: a name for the value if there are several,
    and names for the bytes that are read for the first time. -/
structure LoadDraws (m : Memory) (s : Session) (found : Addresses) (width : UInt64) (value : Expr)
    (new : Memory) (left : Session) : Prop where
  many : found.others ≠ [] → ∃ tag, value = .var tag ⟨m.nextValue s, width⟩
  reading : ∃ mid : Session, Reading (m, mid) (new, left) ∧ mid.freshBytes = s.freshBytes ∧
    mid.supplied m.store.supply = { s.supplied m.store.supply with
      addrs := (s.supplied m.store.supply).addrs + if found.others = [] then 0 else 1 }

omit fits wf in
theorem loadFound_draws (m : Memory) (v : Value) (width : UInt64) (found : Addresses) (s : Session) :
    Ends (loadFound m v width found) (m, s)
      (fun (value, _) (new, left) => m.LoadDraws s found width value new left) (fun _ _ => True) := by
  unfold loadFound
  split
  · next single =>
    have alone := List.isEmpty_iff.mp single
    refine ((readValue_reading _ _).ends _).bind (fun _ _ _ => trivial) fun value mid first => ?_
    refine ((lift_reading (make_quiet _)).ends _).bind (fun _ _ _ => trivial) fun place last second => ?_
    refine .pure ⟨fun several => absurd alone several, s, Trans.trans first second, rfl, ?_⟩
    simp [alone]
  · next several =>
    have some_ : found.others ≠ [] := by simpa using several
    refine On.ends_first (draw_addr m.store.supply m.id s) (fun _ _ no => no.elim) ?_
    rintro _ mid ⟨rfl, supplied, fresh⟩
    refine On.ends_first ((named_ensures _ width).ends (make_quiet _) mid) (fun _ _ _ => trivial) ?_
    rintro _ mid' ⟨⟨tag, rfl⟩, quiet⟩
    refine ((readCases_reading _ _ _ _).ends _).bind (fun _ _ _ => trivial) fun cases_ _ first => ?_
    refine ((lift_reading (record_quiet _)).ends _).bind (fun _ _ _ => trivial) fun _ _ second => ?_
    refine ((lift_reading (make_quiet _)).ends _).bind (fun _ _ _ => trivial) fun choice last third => ?_
    have reading : Reading (m, mid') last := Trans.trans (Trans.trans first second) third
    refine .pure ⟨fun _ => ⟨tag, rfl⟩, mid', reading, quiet.freshBytes.trans fresh, ?_⟩
    rw [quiet.supplied, supplied, if_neg some_]

/-- What comes of a store. -/
theorem storeAt_ends {value : Expr} (valueWf : value.WellFormed) (session : Session) :
    Ends (storeAt address value) (m, session)
      (fun constraints (new, left) => ∃ v found mid,
        Resolved l m address Strategy.forStore session v found mid ∧
          (∃ c, constraints = [c] ∧ m.Placed l address value found c new) ∧ Quiet session left)
      (fun _ (new, left) => new = m ∧ Quiet session left) := by
  refine On.ends_first ((count_quiet (show Counter.store ≠ .freshByte by simp)).ends session)
    (fun _ _ quiet => ⟨rfl, quiet⟩) fun _ start begun => ?_
  split
  · exact Ends.bind (.throw ⟨rfl, begun⟩) (fun _ _ h => h) fun _ _ (no : False) => no.elim
  · next allowed =>
    have whole : value.width % 8 = 0 := by simpa using (not_or.mp allowed).2
    refine resolving_ends fits wf .store Strategy.forStore begun (fun v found mid resolved => ?_)
      fun _ _ quiet => ⟨rfl, quiet⟩
    have placed := storeFound_ensures fits resolved.sized valueWf whole found mid
    have silent := storeFound_silent m v value found
    refine .intro ?_ fun e left failed => ?_
    · rintro constraints ⟨new, left⟩ done
      rw [show storeFound m v value found (m, mid) = _ from done] at placed
      exact ⟨v, found, mid, resolved, placed, (Trans.trans resolved.quiet (silent.of_ok done) : Quiet _ left)⟩
    · rw [show storeFound m v value found (m, mid) = _ from failed] at placed
      exact placed.elim

/-- What comes of a load. -/
theorem loadFrom_ends (width : UInt64) (session : Session) :
    Ends (loadFrom address width) (m, session)
      (fun (value, constraints) (new, left) => ∃ v found mid,
        Resolved l m address Strategy.forLoad session v found mid ∧
          (∃ c, constraints = [c] ∧ m.Obtained l address width found value c new) ∧
          m.LoadDraws mid found width value new left)
      (fun _ (new, left) => new = m ∧ Quiet session left) := by
  refine On.ends_first ((count_quiet (show Counter.load ≠ .freshByte by simp)).ends session)
    (fun _ _ quiet => ⟨rfl, quiet⟩) fun _ start begun => ?_
  split
  · exact Ends.bind (.throw ⟨rfl, begun⟩) (fun _ _ h => h) fun _ _ (no : False) => no.elim
  · next allowed =>
    obtain ⟨some_, whole, narrow⟩ : width ≠ 0 ∧ width % 8 = 0 ∧ width ≤ 64 := by
      simpa [not_or] using allowed
    refine resolving_ends fits wf .load Strategy.forLoad begun (fun v found mid resolved => ?_)
      fun _ _ quiet => ⟨rfl, quiet⟩
    have obtained := loadFound_ensures fits resolved.sized some_ whole narrow found mid
    have draws := loadFound_draws m v width found mid
    refine .intro ?_ fun e left failed => ?_
    · rintro ⟨value, constraints⟩ ⟨new, left⟩ done
      rw [show loadFound m v width found (m, mid) = _ from done] at obtained
      exact ⟨v, found, mid, resolved, obtained, draws.of_ok done⟩
    · rw [show loadFound m v width found (m, mid) = _ from failed] at obtained
      exact obtained.elim

end Accesses

end Memory

end SymbolicMemory
