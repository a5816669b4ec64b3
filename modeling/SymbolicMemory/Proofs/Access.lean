import SymbolicMemory.Proofs.Attained
import SymbolicMemory.Proofs.ByteMemory
import SymbolicMemory.Proofs.Condition

/-! # Stores and loads

What one access does, whatever the solver answers. A store that succeeds writes the bytes of
the value at one address, with the condition that the address is that one; this can hold, and a
store that fails leaves the memory alone. A load adds cells only. It returns a value and the
condition under which the value is what a plain memory holds at the address.
-/

namespace SymbolicMemory

theorem Session.make_when {built : Except Fault Expr} {vars : List Var} {holds : Valuation → Prop}
    (h : Expr.BuildsWhen built vars holds) :
    Ensures (make built) (fun c => c.States vars holds) (fun _ => False) := by
  obtain ⟨e, rfl, states⟩ := h
  refine (make_erase e).mono (fun made same => ?_) fun _ no => no
  have denotes := (Expr.denotes_self states.condition.wellFormed).of_erase same
  refine ⟨⟨denotes.wellFormed, denotes.width_eq.trans states.condition.one_bit⟩,
    List.Subset.trans denotes.vars_subset states.vars_subset, fun ρ => ?_⟩
  rw [denotes.meaning_eq]
  exact states.holds_iff ρ

namespace Memory

variable {l : Layout} {m : Memory}

/-- An address at the width of the address space, in the same situation. -/
structure Sized (l : Layout) (address v : Value) : Prop where
  wellFormed : v.expr.WellFormed
  width_eq : v.expr.width = l.bits
  meaning_eq : ∀ ρ, v.expr.meaning ρ = address.expr.meaning ρ % 2 ^ l.bits.toNat
  vars_subset : v.expr.occurrences ⊆ address.expr.occurrences
  solver_eq : v.solver = address.solver
  constraints_eq : v.constraints = address.constraints

theorem sized_ensures (fits : m.Fits l) {address : Value} (wf : address.expr.WellFormed) :
    Ensures (m.sized address) (Sized l address) (fun _ => False) := by
  unfold sized
  rw [fits.bits_eq]
  split
  · next same =>
    refine .pure ⟨wf, same, fun ρ => (Nat.mod_eq_of_lt ?_).symm, List.Subset.refl _, rfl, rfl⟩
    exact same ▸ Expr.meaning_lt ρ wf
  · refine (Session.make_denotes (Expr.resize_builds wf l.bits_pos l.bits_le)).bind ?_
    exact fun e denotes => .pure
      ⟨denotes.wellFormed, denotes.width_eq, denotes.meaning_eq, denotes.vars_subset, rfl, rfl⟩

/-- The constraint that an address is a concrete one, up to the size of the address space. -/
theorem pinned_when (fits : m.Fits l) {address v : Value} (sized : Sized l address v)
    (concrete : UInt64) :
    Expr.BuildsWhen (m.pinned v concrete) address.expr.occurrences (fun ρ =>
      BitVec.ofNat l.bits.toNat (address.expr.meaning ρ) = l.place concrete) := by
  have bits_eq : m.bits = v.expr.width := fits.bits_eq.trans sized.width_eq.symm
  rw [pinned, bits_eq]
  refine (Expr.constant_when .eq rfl sized.wellFormed concrete).congr sized.vars_subset fun ρ => ?_
  have reduced : concrete.toNat % 2 ^ l.bits.toNat < 2 ^ l.bits.toNat :=
    Nat.mod_lt _ (Nat.two_pow_pos _)
  have small : address.expr.meaning ρ % 2 ^ l.bits.toNat < 2 ^ l.bits.toNat :=
    Nat.mod_lt _ (Nat.two_pow_pos _)
  rw [sized.width_eq, sized.meaning_eq, Op.meaning_eq small reduced, Layout.place, ← BitVec.toNat_inj,
    BitVec.toNat_ofNat, BitVec.toNat_ofNat]
  by_cases same : address.expr.meaning ρ % 2 ^ l.bits.toNat = concrete.toNat % 2 ^ l.bits.toNat <;>
    simp [same]

/-- Looking for concrete addresses leaves the memory alone. -/
theorem concretize_ensures (access : Access) (v : Value) (strategies : List Strategy)
    {found : Addresses → Prop}
    (h : Ensures (m.concretizer.concretize v strategies) found (fun _ => True)) :
    On.Ensures (concretize access v strategies) m (fun a new => found a ∧ new = m)
      (fun new => new = m) := by
  refine .look (On.Ensures.tryCatch (On.Ensures.lift h m) ?_)
  rintro e _ ⟨_, rfl⟩
  cases e with
  | error e => exact .throw rfl
  | fault fault => exact .throw rfl

/-- What is left of a store once concrete addresses are found. -/
def storeFound (m : Memory) (address : Value) (value : Expr) (found : Addresses) :
    On Memory (List Expr) := do
  writeValue found.first value
  return [← Session.make (m.pinned address found.first)]

/-- A value was written at a concrete address, with the condition that the address is that one. -/
structure Placed (l : Layout) (m : Memory) (address : Value) (value : Expr) (found : Addresses)
    (c : Expr) (new : Memory) : Prop where
  states : c.States address.expr.occurrences fun ρ =>
    BitVec.ofNat l.bits.toNat (address.expr.meaning ρ) = l.place found.first
  writes : m.Writes l found.first value.occurrences
    (fun ρ => ByteMemory.encode l.littleEndian (value.width.toNat / 8) (value.meaning ρ)) new

theorem storeFound_ensures (fits : m.Fits l) {address v : Value} (sized : Sized l address v)
    {value : Expr} (valueWf : value.WellFormed) (whole : value.width % 8 = 0) (found : Addresses) :
    On.Ensures (storeFound m v value found) m
      (fun constraints new => ∃ c, constraints = [c] ∧ m.Placed l address value found c new)
      (fun _ => False) := by
  refine (writeValue_ensures fits found.first valueWf whole).bind fun _ new writes => ?_
  refine .first (Session.make_when (pinned_when fits sized found.first)) fun c states => ?_
  exact .pure ⟨c, rfl, states, writes⟩

/-- A value was written at one address that the address expression can be. -/
structure Stored (l : Layout) (m : Memory) (address value : Expr) (c : Expr) (new : Memory) :
    Prop where
  condition : c.Condition
  possible : ∃ ρ, c.meaning ρ = 1
  fits : new.Fits l
  kept : ∀ place, (m.cell? place).isSome → (new.cell? place).isSome
  mirrors : ∀ ρ initial bytes, c.meaning ρ = 1 → m.Mirrors l ρ initial bytes →
    new.Mirrors l ρ initial (bytes.write (BitVec.ofNat l.bits.toNat (address.meaning ρ))
      (ByteMemory.encode l.littleEndian (value.width.toNat / 8) (value.meaning ρ)))

theorem Sized.placed {address v : Value} (sized : Sized l address v) {ρ : Valuation}
    {concrete : UInt64} (value : v.expr.meaning ρ = concrete.toNat) :
    BitVec.ofNat l.bits.toNat (address.expr.meaning ρ) = l.place concrete := by
  apply BitVec.eq_of_toNat_eq
  rw [Layout.place, BitVec.toNat_ofNat, BitVec.toNat_ofNat, ← value, sized.meaning_eq, Nat.mod_mod]

theorem storeAt_ensures (fits : m.Fits l) {address : Value} (wf : address.expr.WellFormed)
    {value : Expr} (valueWf : value.WellFormed) :
    On.Ensures (storeAt address value) m
      (fun constraints new => ∃ c, constraints = [c] ∧ m.Stored l address.expr value c new)
      (fun new => new = m) := by
  unfold storeAt
  refine .first (Session.count_succeeds _) fun _ _ => ?_
  split
  · exact On.Ensures.bind (.throw rfl) fun _ _ (no : False) => no.elim
  · next allowed =>
    have whole : value.width % 8 = 0 := by simpa using (not_or.mp allowed).2
    refine .look (.first (sized_ensures fits wf) fun v sized => ?_)
    have attains := Concretizer.concretize_attains sized.wellFormed m.concretizer
      (show .symbolic ∉ Strategy.forStore by decide)
    refine (concretize_ensures .store v Strategy.forStore attains).bind ?_
    rintro found m ⟨⟨ρ, attained⟩, rfl⟩
    refine (storeFound_ensures fits sized valueWf whole found).mono ?_ fun _ no => no.elim
    rintro constraints new ⟨c, rfl, states, writes⟩
    refine ⟨c, rfl, states.condition, ⟨ρ, (states.holds_iff ρ).mpr (sized.placed attained)⟩,
      writes.fits, writes.kept, ?_⟩
    intro ρ initial bytes here mirrors
    rw [(states.holds_iff ρ).mp here]
    exact writes.mirrors ρ initial bytes mirrors

/-- In every plain memory that the cells show, an expression is what is read at an address. -/
def Reads (l : Layout) (m : Memory) (ρ : Valuation) (address : Expr) (count : Nat) (value : Expr) :
    Prop :=
  ∀ bytes, m.Shows l ρ bytes → value.meaning ρ = ByteMemory.decode l.littleEndian
    (bytes.read (BitVec.ofNat l.bits.toNat (address.meaning ρ)) count)

section Load

variable {count : Nat} (pos : 0 < count) (room : 8 * count ≤ 64) {address v : Value}
  (sized : Sized l address v)

include pos room sized

/-- What one case of a load from several addresses says: the address is the concrete one, and the
    result is what a plain memory holds there. -/
structure Case (l : Layout) (address : Value) (result : Expr) (count : Nat) (new : Memory)
    (concrete : UInt64) (c : Expr) : Prop where
  condition : c.Condition
  mentioned : ∀ u ∈ c.occurrences, u ∈ address.expr.occurrences ∨ u ∈ result.occurrences ∨ new.Mentions u
  present : ∀ i < count, (new.cell? (new.wrap (concrete + UInt64.ofNat i))).isSome
  holds_iff : ∀ ρ bytes, new.Shows l ρ bytes → (c.meaning ρ = 1 ↔
    BitVec.ofNat l.bits.toNat (address.expr.meaning ρ) = l.place concrete ∧
      result.meaning ρ = ByteMemory.decode l.littleEndian (bytes.read (l.place concrete) count))

omit pos room sized in
theorem Case.grow {m m' : Memory} (grows : m.Grows l m') {result : Expr} {concrete : UInt64} {c : Expr}
    (fits : m.Fits l) (h : Case l address result count m concrete c) :
    Case l address result count m' concrete c where
  condition := h.condition
  mentioned u occurs := (h.mentioned u occurs).imp_right (Or.imp_right grows.mentions)
  present i less := by
    rw [← wrap_eq l fits grows.fits]
    exact grows.present (h.present i less)
  holds_iff ρ bytes shows_ := h.holds_iff ρ bytes (grows.shows shows_)

theorem readCases_ensures {result : Expr} (wf : result.WellFormed)
    (width : result.width.toNat = 8 * count) (concretes : List UInt64) {m : Memory}
    (fits : m.Fits l) :
    On.Ensures (readCases v result count concretes) m
      (fun cases new => m.Grows l new ∧
        (∀ c ∈ cases, ∃ concrete ∈ concretes, Case l address result count new concrete c) ∧
        ∀ concrete ∈ concretes, ∃ c ∈ cases, Case l address result count new concrete c)
      (fun _ => False) := by
  induction concretes generalizing m with
  | nil => exact .pure ⟨fits.grows, by simp, by simp⟩
  | cons concrete rest ih =>
      rw [readCases]
      refine (readValue_ensures fits concrete pos room).bind fun value m' fetched => ?_
      refine .look ?_
      have operands : Expr.Operands result value :=
        ⟨wf, fetched.wellFormed, UInt64.toNat_inj.mp (width.trans fetched.width_eq.symm)⟩
      obtain ⟨same, sameBuilt, sameStates⟩ := operands.eq_when
      obtain ⟨place, placeBuilt, placeStates⟩ := pinned_when fetched.grows.fits sized concrete
      have both : ∀ c ∈ [same, place], c.Condition := by
        simp [sameStates.condition, placeStates.condition]
      have here := Session.make_when (Expr.all_when both)
      rw [sameBuilt, placeBuilt]
      refine .first here fun c states => ?_
      have first : Case l address result count m' concrete c := by
        refine ⟨states.condition, fun u occurs => ?_, fetched.present, fun ρ bytes shows_ => ?_⟩
        · have vars : u ∈ same.occurrences ∨ u ∈ place.occurrences := by
            simpa using states.vars_subset occurs
          rcases vars with inSame | inPlace
          · rcases List.mem_append.mp (sameStates.vars_subset inSame) with inResult | inValue
            · exact .inr (.inl inResult)
            · exact .inr (.inr (fetched.mentioned u inValue))
          · exact .inl (placeStates.vars_subset inPlace)
        · rw [states.holds_iff, ← fetched.meaning_eq ρ bytes shows_, ← sameStates.holds_iff,
            ← placeStates.holds_iff]
          simp [Holds, and_comm]
      refine (ih fetched.grows.fits).bind ?_
      rintro cases_ new ⟨grows, origin, each⟩
      have here := first.grow grows fetched.grows.fits
      refine .pure ⟨fetched.grows.trans grows, List.forall_mem_cons.mpr ⟨?_, ?_⟩,
        List.forall_mem_cons.mpr ⟨?_, ?_⟩⟩
      · exact ⟨concrete, List.mem_cons_self, here⟩
      · intro c' member
        obtain ⟨concrete', inRest, case⟩ := origin c' member
        exact ⟨concrete', List.mem_cons_of_mem concrete inRest, case⟩
      · exact ⟨c, List.mem_cons_self, here⟩
      · intro concrete' member
        obtain ⟨c', inRest, case⟩ := each concrete' member
        exact ⟨c', List.mem_cons_of_mem c inRest, case⟩

end Load

/-- The number of bytes of a width that can be loaded. -/
theorem byteCount {width : UInt64} (some_ : width ≠ 0) (whole : width % 8 = 0)
    (narrow : width ≤ 64) :
    (width / 8).toNat = width.toNat / 8 ∧ 0 < width.toNat / 8 ∧
      8 * (width.toNat / 8) = width.toNat ∧ 8 * (width.toNat / 8) ≤ 64 := by
  have multiple : width.toNat % 8 = 0 := congrArg UInt64.toNat whole
  have positive : width.toNat ≠ 0 := fun zero => some_ (UInt64.toNat_inj.mp zero)
  have le : width.toNat ≤ 64 := UInt64.le_iff_toNat_le.mp narrow
  exact ⟨UInt64.toNat_div _ _, by omega, by omega, by omega⟩

/-- What is left of a load once concrete addresses are found. -/
def loadFound (m : Memory) (address : Value) (width : UInt64) (found : Addresses) :
    On Memory (Expr × List Expr) := do
  if found.others.isEmpty then
    let value ← readValue found.first (width / 8).toNat
    let place ← Session.make (m.pinned address found.first)
    return (value, [place])
  else
    let name ← Session.draw m.store.supply (·.nextAddr m.id)
    let result ← Session.make (Expr.named name width)
    let cases ← readCases address result (width / 8).toNat found.toList
    Session.record (.loadedFromMany m.id name found.toList.length)
    let choice ← Session.make (Expr.any cases)
    return (result, [choice])

/-- A value was loaded from concrete addresses. Its condition says that the address is one of
    them and the value is what stands there. -/
structure Obtained (l : Layout) (m : Memory) (address : Value) (width : UInt64) (found : Addresses)
    (value c : Expr) (new : Memory) : Prop where
  condition : c.Condition
  grows : m.Grows l new
  wellFormed : value.WellFormed
  width_eq : value.width = width
  mentioned : ∀ u ∈ c.occurrences,
    u ∈ address.expr.occurrences ∨ u ∈ value.occurrences ∨ new.Mentions u
  present : ∀ concrete ∈ found.toList, ∀ i < width.toNat / 8,
    (new.cell? (new.wrap (concrete + UInt64.ofNat i))).isSome
  holds_iff : ∀ ρ bytes, new.Shows l ρ bytes → (c.meaning ρ = 1 ↔ ∃ concrete ∈ found.toList,
    BitVec.ofNat l.bits.toNat (address.expr.meaning ρ) = l.place concrete ∧
      value.meaning ρ = ByteMemory.decode l.littleEndian (bytes.read (l.place concrete) (width.toNat / 8)))
  origin : (found.others = [] ∧ m.Fetched l found.first (width.toNat / 8) value new) ∨
    found.others ≠ [] ∧ ∃ tag name, value = .var tag ⟨name, width⟩

theorem loadFound_ensures (fits : m.Fits l) {address v : Value} (sized : Sized l address v)
    {width : UInt64} (some_ : width ≠ 0) (whole : width % 8 = 0) (narrow : width ≤ 64)
    (found : Addresses) :
    On.Ensures (loadFound m v width found) m
      (fun (value, constraints) new =>
        ∃ c, constraints = [c] ∧ m.Obtained l address width found value c new)
      (fun _ => False) := by
  obtain ⟨bytes, pos, eights, room⟩ := byteCount some_ whole narrow
  have bounds : 0 < width ∧ width ≤ 64 := ⟨UInt64.pos_iff_ne_zero.mpr some_, narrow⟩
  unfold loadFound
  rw [bytes]
  split
  · next single =>
    have alone : found.toList = [found.first] := by
      rw [Addresses.toList, List.isEmpty_iff.mp single]
    refine (readValue_ensures fits found.first pos room).bind fun value new fetched => ?_
    refine .first (Session.make_when (pinned_when fits sized found.first)) fun c states => ?_
    refine .pure ⟨c, rfl, states.condition, fetched.grows, fetched.wellFormed, ?_, ?_, ?_, ?_, ?_⟩
    · exact UInt64.toNat_inj.mp (fetched.width_eq.trans eights)
    · exact fun u occurs => .inl (states.vars_subset occurs)
    · simpa [alone] using fetched.present
    · intro ρ bytes shows_
      rw [states.holds_iff]
      simp [alone, fetched.meaning_eq ρ bytes shows_]
    · exact .inl ⟨List.isEmpty_iff.mp single, fetched⟩
  · next several =>
    refine .first (Session.draw_succeeds _ _) fun name _ => ?_
    have named : Expr.named name width = .ok (.var none ⟨name, width⟩) := if_pos bounds
    rw [named]
    refine .first (Session.make_erase _) fun result same => ?_
    obtain ⟨tag, rfl⟩ := Store.eq_var_of_erase same
    have variableWf : (Expr.var tag ⟨name, width⟩).WellFormed := bounds
    refine (readCases_ensures pos room sized variableWf eights.symm found.toList fits).bind ?_
    rintro cases_ new ⟨grows, origin, each⟩
    refine .first (Session.record_succeeds _) fun _ _ => ?_
    refine .first (Session.make_when (Expr.any_when fun c member => ?_)) fun c states => ?_
    · obtain ⟨_, _, case⟩ := origin c member
      exact case.condition
    refine .pure ⟨c, rfl, states.condition, grows, variableWf, rfl, ?_, ?_, ?_, ?_⟩
    · intro u occurs
      obtain ⟨c', member, inside⟩ := List.mem_flatMap.mp (states.vars_subset occurs)
      obtain ⟨_, _, case⟩ := origin c' member
      exact case.mentioned u inside
    · intro concrete member
      obtain ⟨_, _, case⟩ := each concrete member
      exact case.present
    · intro ρ bytes shows_
      rw [states.holds_iff]
      constructor
      · rintro ⟨c', member, true_⟩
        obtain ⟨concrete, isFound, case⟩ := origin c' member
        exact ⟨concrete, isFound, (case.holds_iff ρ bytes shows_).mp true_⟩
      · rintro ⟨concrete, isFound, right⟩
        obtain ⟨c', member, case⟩ := each concrete isFound
        exact ⟨c', member, (case.holds_iff ρ bytes shows_).mpr right⟩
    · exact .inr ⟨by simpa using several, tag, name, rfl⟩

/-- A value was loaded, with the condition under which it is what stands at the address. -/
structure Loaded (l : Layout) (m : Memory) (address : Expr) (width : UInt64) (value c : Expr)
    (new : Memory) : Prop where
  condition : c.Condition
  grows : m.Grows l new
  wellFormed : value.WellFormed
  width_eq : value.width = width
  reads : ∀ ρ, c.meaning ρ = 1 → new.Reads l ρ address (width.toNat / 8) value

theorem Obtained.loaded {address : Value} {width : UInt64} {found : Addresses} {value c : Expr}
    {new : Memory} (h : m.Obtained l address width found value c new) :
    m.Loaded l address.expr width value c new where
  condition := h.condition
  grows := h.grows
  wellFormed := h.wellFormed
  width_eq := h.width_eq
  reads ρ here bytes shows_ := by
    obtain ⟨concrete, _, placed, value⟩ := (h.holds_iff ρ bytes shows_).mp here
    rw [placed, value]

theorem loadFrom_ensures (fits : m.Fits l) {address : Value} (wf : address.expr.WellFormed)
    (width : UInt64) :
    On.Ensures (loadFrom address width) m
      (fun (value, constraints) new =>
        ∃ c, constraints = [c] ∧ m.Loaded l address.expr width value c new)
      (fun new => m.Grows l new) := by
  unfold loadFrom
  refine .first (Session.count_succeeds _) fun _ _ => ?_
  split
  · exact On.Ensures.bind (.throw fits.grows) fun _ _ (no : False) => no.elim
  · next allowed =>
    obtain ⟨some_, whole, narrow⟩ : width ≠ 0 ∧ width % 8 = 0 ∧ width ≤ 64 := by
      simpa [not_or] using allowed
    refine .look (.first (sized_ensures fits wf) fun v sized => ?_)
    have free := Ensures.trivial (m.concretizer.concretize v Strategy.forLoad)
    refine (concretize_ensures .load v Strategy.forLoad free).andThen
      (fun _ same => same ▸ fits.grows) ?_
    rintro found m ⟨_, rfl⟩
    refine (loadFound_ensures fits sized some_ whole narrow found).mono ?_ fun _ no => no.elim
    rintro ⟨value, constraints⟩ new ⟨c, rfl, obtained⟩
    exact ⟨c, rfl, obtained.loaded⟩

end Memory

end SymbolicMemory
