import Mathlib
import SymbolicMemory.Proofs.Abreast
import SymbolicMemory.Proofs.Rejoining

/-! # Values loaded back

A value that was stored at a constant address lies in the memory byte by byte, each a part of where
the value itself was cut out. A load of some of these bytes puts the parts together again, in
either byte order and across the end of the address space, and gives the slice of the value that
lies there. A slice that reaches beyond its source is an exception: once the bytes fill the source,
they stay apart.
-/

namespace SymbolicMemory

theorem Session.make_stamps (built : Except Fault Expr) :
    Ensures (make built) (fun made => ∃ e next, built = .ok e ∧ made = (e.stamp next).1)
      (fun _ => ∃ fault, built = .error fault) := by
  intro session
  cases built with
  | ok e => exact ⟨e, session.nextTag, rfl, rfl⟩
  | error fault => exact ⟨fault, rfl⟩

theorem Expr.Tagged.origin {e : Expr} (tagged : e.Tagged) : e.origin.1.Tagged := by
  cases e with
  | extract => exact tagged.2
  | const | var | concat | not | zext | binary => exact tagged

namespace Memory

/-- A value of some bytes that is one node of the heap, and no pair. -/
structure Storable (value : Expr) (size : Nat) : Prop where
  proper : value.Proper
  tagged : value.Tagged
  single : value.kind ≠ .concat
  width_eq : value.width.toNat = 8 * size
  few : size ≤ 8

/-- The place of a byte among those of a value, counted from the least significant one. -/
def placeOf (littleEndian : Bool) (size i : Nat) : Nat := if littleEndian then i else size - 1 - i

/-- The bytes of a value lie in a memory from an address on. -/
def Lies (m : Memory) (value : Expr) (size : Nat) (address : UInt64) : Prop :=
  ∀ i < size, ∃ cell, m.cell? (m.wrap (address + .ofNat i)) = some cell ∧
    Expr.Part value.origin.1 (value.origin.2 + 8 * .ofNat (placeOf m.littleEndian size i)) 8 cell

section Wrapping

variable {m : Memory} (narrow : m.bits ≤ 64)

include narrow

theorem toNat_wrap_add (address : UInt64) (i : Nat) :
    (m.wrap (address + .ofNat i)).toNat = (address.toNat + i) % 2 ^ m.bits.toNat := by
  rw [wrap, toNat_and_mask _ narrow, UInt64.toNat_add, UInt64.toNat_ofNat', Nat.add_mod_mod,
    mod_mod_two_pow _ narrow]

theorem wrap_add_inj {address : UInt64} {i j : Nat} (hi : i < 2 ^ m.bits.toNat) (hj : j < 2 ^ m.bits.toNat)
    (same : m.wrap (address + .ofNat i) = m.wrap (address + .ofNat j)) : i = j := by
  have numbers := congrArg UInt64.toNat same
  rw [toNat_wrap_add narrow, toNat_wrap_add narrow] at numbers
  exact Nat.ModEq.eq_of_lt_of_lt (Nat.ModEq.add_left_cancel' _ numbers) hi hj

/-- Addresses that differ by some bytes, up to the size of the address space. -/
theorem wrap_add_add {a b : UInt64} {i : Nat}
    (same : b.toNat % 2 ^ m.bits.toNat = (a.toNat + i) % 2 ^ m.bits.toNat) (j : Nat) :
    m.wrap (b + .ofNat j) = m.wrap (a + .ofNat (i + j)) := by
  apply UInt64.toNat_inj.mp
  rw [toNat_wrap_add narrow, toNat_wrap_add narrow, Nat.add_mod, same, ← Nat.add_mod, Nat.add_assoc]

end Wrapping

section Writing

variable {value : Expr} {size : Nat}

theorem Storable.offset_toNat (storable : Storable value size) {place : Nat} (less : place < size) :
    (8 * UInt64.ofNat place).toNat = 8 * place := by
  have few := storable.few
  rw [UInt64.toNat_mul, UInt64.toNat_ofNat_of_lt' (by simp only [UInt64.size]; omega)]
  exact Nat.mod_eq_of_lt (by simp; omega)

/-- Every byte can be cut out of a well-formed value. -/
theorem Storable.byte_width (storable : Storable value size) (wf : value.WellFormed) {place : Nat}
    (less : place < size) : ∃ r, value.slice (8 * .ofNat place) 8 = .ok r ∧ r.width = 8 := by
  have offset := storable.offset_toNat less
  have width := storable.width_eq
  obtain ⟨r, cut, denotes⟩ := Expr.sliceable wf (8 * .ofNat place) 8 (by decide)
    (by rw [offset, show (8 : UInt64).toNat = 8 from rfl]; omega)
  exact ⟨r, cut, denotes.width_eq⟩

theorem writeCell_ensures_put (m : Memory) (address : UInt64) (cell : Expr) :
    On.Ensures (writeCell address cell) m (fun _ new => new = m.put (m.wrap address) cell)
      (fun _ => cell.width ≠ 8) := by
  intro session
  by_cases byte : cell.width = 8
  · rw [writeCell_byte byte]
  · rw [writeCell_other byte]
    exact byte

/-- Each byte that is written lies where it was written, and all else is as it was. -/
structure Written (m : Memory) (value : Expr) (size left : Nat) (address : UInt64) (new : Memory) : Prop where
  settings_eq : new.settings = m.settings
  cells : ∀ i < left, ∃ r next, new.cell? (m.wrap (address + .ofNat i)) = some (r.stamp next).1 ∧
    value.slice (8 * .ofNat (placeOf m.littleEndian size (size - left + i))) 8 = .ok r
  kept : ∀ other, (∀ i < left, m.wrap (address + .ofNat i) ≠ other) → new.cell? other = m.cell? other

theorem writeMore_written (storable : Storable value size) {left : Nat} (few : left ≤ size) {m : Memory}
    (narrow : m.bits ≤ 64) (room : left ≤ 2 ^ m.bits.toNat) (address : UInt64) :
    On.Ensures (writeMore value size left address) m (fun _ new => m.Written value size left address new)
      (fun _ => ¬ value.WellFormed) := by
  induction left generalizing m address with
  | zero => exact .pure ⟨rfl, by simp, fun _ _ => rfl⟩
  | succ left ih =>
      have place : (if m.littleEndian then size - (left + 1) else left) =
          placeOf m.littleEndian size (size - (left + 1)) := by
        unfold placeOf
        split <;> omega
      have less : placeOf m.littleEndian size (size - (left + 1)) < size := by
        unfold placeOf
        split <;> omega
      rw [writeMore]
      refine .look ?_
      rw [place]
      refine (On.Ensures.lift (Session.make_stamps _) m).andThen ?_ ?_
      · rintro _ ⟨⟨_, fault, failed⟩, rfl⟩ wf
        obtain ⟨r, cut, _⟩ := storable.byte_width wf less
        cases failed.symm.trans cut
      rintro _ m ⟨⟨r, next, cut, rfl⟩, rfl⟩
      refine (writeCell_ensures_put m address _).andThen ?_ ?_
      · intro _ wrong wf
        obtain ⟨r', cut', byte⟩ := storable.byte_width wf less
        cases cut.symm.trans cut'
        apply wrong
        rw [← Expr.width_erase, Expr.erase_stamp, Expr.width_erase, byte]
      rintro _ _ rfl
      refine (ih (m := m.put (m.wrap address) _) (by omega) narrow (Nat.le_of_succ_le room) (address + 1)).mono ?_
        fun _ h => h
      rintro _ new later
      have apart : ∀ i < left, m.wrap (address + 1 + .ofNat i) ≠ m.wrap address := by
        intro i less same
        have again : m.wrap (address + .ofNat (i + 1)) = m.wrap (address + .ofNat 0) := by
          rw [← add_one_add_ofNat, same, add_ofNat_zero]
        exact absurd (wrap_add_inj narrow (by omega) (by omega) again) (Nat.succ_ne_zero i)
      refine ⟨later.settings_eq, fun i less => ?_, fun other elsewhere => ?_⟩
      · cases i with
        | zero =>
            refine ⟨r, next, ?_, cut⟩
            rw [add_ofNat_zero, later.kept _ apart, put, cell?_insert, if_pos rfl]
        | succ i =>
            obtain ⟨r', next', there, cut'⟩ := later.cells i (by omega)
            rw [add_one_add_ofNat] at there
            refine ⟨r', next', there, ?_⟩
            rw [← cut', show size - (left + 1) + (i + 1) = size - left + i by omega]
            rfl
      · rw [later.kept other fun i less => ?_, put, cell?_insert, if_neg]
        · have first := elsewhere 0 (Nat.succ_pos left)
          rwa [add_ofNat_zero] at first
        · rw [add_one_add_ofNat]
          exact elsewhere (i + 1) (by omega)

theorem Written.lies {m new : Memory} {address : UInt64} (storable : Storable value size)
    (written : m.Written value size size address new) : new.Lies value size address := by
  intro i less
  obtain ⟨r, next, there, cut⟩ := written.cells i less
  have order : new.littleEndian = m.littleEndian := congrArg (·.littleEndian) written.settings_eq
  rw [Nat.sub_self, Nat.zero_add, ← order] at cut
  rw [← wrap_of_settings written.settings_eq] at there
  have place : placeOf new.littleEndian size i < size := by
    unfold placeOf
    split <;> omega
  have offset := storable.offset_toNat place
  have width := storable.width_eq
  have part := storable.proper.part storable.single
    (by rw [offset, show (8 : UInt64).toNat = 8 from rfl]; omega) cut
  exact ⟨_, there, part.stamp storable.tagged.origin next⟩

end Writing

theorem bytes_add (i count : Nat) :
    8 * UInt64.ofNat (i + count) = 8 * UInt64.ofNat i + .ofNat (8 * count) := by
  rw [UInt64.ofNat_add, UInt64.mul_add, UInt64.ofNat_mul]
  rfl

/-- The place of the least significant of some bytes. -/
def lowest (littleEndian : Bool) (size i count : Nat) : Nat := if littleEndian then i else size - i - count

section Reading

variable {value : Expr} {size : Nat} (storable : Storable value size)

include storable

/-- One more byte is joined to those that were read before. -/
theorem joined_gathers (littleEndian : Bool) {i count : Nat} (pos : 0 < count) (inside : i + count < size)
    {soFar cell : Expr}
    (gathered : Expr.Gathered value (value.origin.2 + 8 * .ofNat (lowest littleEndian size i count)) count soFar)
    (byte : Expr.Part value.origin.1 (value.origin.2 + 8 * .ofNat (placeOf littleEndian size (i + count))) 8 cell) :
    Ensures (Session.make (if littleEndian then Expr.append cell soFar else Expr.append soFar cell))
      (Expr.Gathered value (value.origin.2 + 8 * .ofNat (lowest littleEndian size i (count + 1))) (count + 1))
      (fun _ => False) := by
  have width := storable.width_eq
  have few := storable.few
  have joined : ∃ r, (if littleEndian then Expr.append cell soFar else Expr.append soFar cell) = .ok r ∧
      Expr.Gathered value (value.origin.2 + 8 * .ofNat (lowest littleEndian size i (count + 1))) (count + 1) r := by
    cases littleEndian with
    | true =>
        simp only [lowest, placeOf, if_true] at gathered byte ⊢
        refine gathered.append_high storable.proper pos (by omega) (by omega) ?_
        rwa [UInt64.add_assoc, ← bytes_add]
    | false =>
        simp only [lowest, placeOf, Bool.false_eq_true, if_false] at gathered byte ⊢
        have above : 8 * UInt64.ofNat (size - i - count) = 8 * UInt64.ofNat (size - i - (count + 1)) + 8 := by
          rw [show size - i - count = size - i - (count + 1) + 1 by omega]
          exact bytes_add _ 1
        rw [above, ← UInt64.add_assoc] at gathered
        rw [show size - 1 - (i + count) = size - i - (count + 1) by omega] at byte
        exact gathered.append_low storable.proper pos (by omega) (by omega) byte
  obtain ⟨r, made, gathered⟩ := joined
  rw [made]
  intro session
  exact gathered.stamp storable.tagged.origin session.nextTag

variable {m : Memory} {base : UInt64} (lies : m.Lies value size base)

omit storable in
include lies in
theorem readCell_lies {i : Nat} (less : i < size) {address : UInt64}
    (there : m.wrap address = m.wrap (base + .ofNat i)) :
    On.Ensures (readCell address) m (fun cell new => new = m ∧
      Expr.Part value.origin.1 (value.origin.2 + 8 * .ofNat (placeOf m.littleEndian size i)) 8 cell)
      (fun _ => False) := by
  obtain ⟨cell, present, byte⟩ := lies i less
  intro session
  rw [readCell_present (there ▸ present)]
  exact ⟨rfl, byte⟩

include lies

theorem readMore_gathers {i count more : Nat} (pos : 0 < count) (inside : i + count + more ≤ size)
    {address : UInt64}
    (there : ∀ j, m.wrap (address + .ofNat j) = m.wrap (base + .ofNat (i + count + j))) {soFar : Expr}
    (gathered : Expr.Gathered value (value.origin.2 + 8 * .ofNat (lowest m.littleEndian size i count)) count soFar) :
    On.Ensures (readMore address more soFar) m
      (fun e new => new = m ∧ Expr.Gathered value
        (value.origin.2 + 8 * .ofNat (lowest m.littleEndian size i (count + more))) (count + more) e)
      (fun _ => False) := by
  induction more generalizing count address soFar with
  | zero => exact .pure ⟨rfl, gathered⟩
  | succ more ih =>
      have here : m.wrap address = m.wrap (base + .ofNat (i + count)) := by
        have first := there 0
        rwa [add_ofNat_zero] at first
      have next : ∀ j, m.wrap (address + 1 + .ofNat j) = m.wrap (base + .ofNat (i + (count + 1) + j)) := by
        intro j
        rw [add_one_add_ofNat, there, show i + count + (j + 1) = i + (count + 1) + j by omega]
      rw [readMore]
      refine (readCell_lies lies (by omega) here).bind ?_
      rintro cell _ ⟨rfl, byte⟩
      refine .look (.first (joined_gathers storable _ pos (by omega) gathered byte) fun e joined => ?_)
      have rest := ih (Nat.succ_pos count) (by omega) next joined
      rwa [show count + 1 + more = count + (more + 1) by omega] at rest

/-- Some bytes in a row are read back as the part that they make up, or else as a pair. -/
theorem readValue_gathers {i count : Nat} (pos : 0 < count) (inside : i + count ≤ size) {address : UInt64}
    (there : ∀ j, m.wrap (address + .ofNat j) = m.wrap (base + .ofNat (i + j))) :
    On.Ensures (readValue address count) m
      (fun e new => new = m ∧ Expr.Gathered value
        (value.origin.2 + 8 * .ofNat (lowest m.littleEndian size i count)) count e)
      (fun _ => False) := by
  obtain ⟨more, rfl⟩ : ∃ more, count = 1 + more := ⟨count - 1, by omega⟩
  have here : m.wrap address = m.wrap (base + .ofNat i) := by
    have first := there 0
    rwa [add_ofNat_zero] at first
  have next : ∀ j, m.wrap (address + 1 + .ofNat j) = m.wrap (base + .ofNat (i + 1 + j)) := by
    intro j
    rw [add_one_add_ofNat, there, show i + (j + 1) = i + 1 + j by omega]
  have place : placeOf m.littleEndian size i = lowest m.littleEndian size i 1 := by
    unfold placeOf lowest
    split <;> omega
  refine (readCell_lies lies (by omega) here).bind ?_
  rintro cell _ ⟨rfl, byte⟩
  rw [place] at byte
  rw [Nat.add_sub_cancel_left]
  exact readMore_gathers storable lies Nat.one_pos (by omega) next (.of_part value.rejoins_one byte)

end Reading

theorem whole_bytes {width : UInt64} {count : Nat} (number : width.toNat = 8 * count) :
    width % 8 = 0 ∧ (width / 8).toNat = count := by
  constructor
  · apply UInt64.toNat_inj.mp
    rw [UInt64.toNat_mod, number]
    exact Nat.mul_mod_right 8 count
  · rw [UInt64.toNat_div, number]
    exact Nat.mul_div_cancel_left count (by decide)

section Accesses

variable {m : Memory} (some_ : 0 < m.bits) (narrow : m.bits ≤ 64)

theorem settings_fits : m.settings.Fits ⟨m.bits, m.littleEndian, m.store.image, some_, narrow⟩ where
  bits_eq := rfl
  littleEndian_eq := rfl
  image_eq := rfl
  cells address cell present := by
    have vacant : m.settings.cell? address = none := Std.TreeMap.getElem?_emptyc
    cases vacant.symm.trans present

variable {address : Value} {tag : Tag} {w : Word} (constant : address.expr = .const tag w) (masked : w.Masked)

include some_ narrow constant masked

/-- A constant address is brought to size, and can be pinned down. -/
theorem sized_at : Ensures (m.sized address) (fun v => ∃ tag' w', v.expr = .const tag' w' ∧
    w'.value.toNat = w.value.toNat % 2 ^ m.bits.toNat ∧
    ∀ concrete, Ensures (Session.make (m.pinned v concrete)) (fun _ => True) (fun _ => False))
    (fun _ => False) := by
  have fits := settings_fits some_ narrow
  have wf : address.expr.WellFormed := constant ▸ masked
  intro session
  have right : Ends (m.sized address) session (fun v _ => Sized _ address v) (fun _ _ => False) :=
    sized_ensures fits wf session
  rcases sized_const constant m.bits with ⟨w', sized⟩ | ⟨fault, sized⟩
  · obtain ⟨v, tag', left, done, isConst⟩ := sized m session rfl
    have right := right.of_ok done
    rw [done]
    refine ⟨tag', w', isConst, ?_, fun concrete => ?_⟩
    · have number := right.meaning_eq fun _ => 0
      rwa [isConst, constant] at number
    · have pinned := Session.make_when (pinned_when fits right concrete)
      exact pinned.mono (fun _ _ => True.intro) fun _ no => no
  · obtain ⟨left, failed⟩ := sized m session rfl
    exact (right.of_error failed).elim

/-- A store at a constant address lays the bytes of the value down there. -/
theorem storeAt_lies {value : Expr} {size : Nat} (storable : Storable value size)
    (room : size ≤ 2 ^ m.bits.toNat) :
    On.Ensures (storeAt address value) m
      (fun _ new => new.settings = m.settings ∧ new.Lies value size w.value) (fun _ => ¬ value.WellFormed) := by
  obtain ⟨whole, bytes⟩ := whole_bytes storable.width_eq
  unfold storeAt
  refine .first (Session.count_succeeds _) fun _ _ => ?_
  split
  · next refused =>
    refine On.Ensures.bind (.throw fun wf => ?_) fun _ _ (no : False) => no.elim
    have pos := (Expr.width_bounds wf).1
    rw [refused.resolve_right (not_not.mpr whole)] at pos
    exact absurd pos (by decide)
  · refine .look (.first (sized_at some_ narrow constant masked) fun v ⟨tag', w', isConst, number, pinned⟩ => ?_)
    rw [concretize_eq_observe isConst]
    refine .first (Concretizer.observe_ensures _ _) fun found same => ?_
    subst same
    rw [writeValue, bytes]
    refine (writeMore_written storable (Nat.le_refl size) narrow room w'.value).bind fun _ new written => ?_
    refine .first (pinned _) fun c _ => .pure ⟨written.settings_eq, fun i less => ?_⟩
    have there : new.wrap (w.value + .ofNat i) = new.wrap (w'.value + .ofNat i) := by
      rw [wrap_of_settings written.settings_eq, wrap_of_settings written.settings_eq]
      simpa using wrap_add_add narrow (i := 0) (by rw [number, Nat.add_zero, Nat.mod_mod]) i
    rw [there]
    exact written.lies storable i less

/-- A load from a constant address at which some bytes of a value lie. -/
theorem loadFrom_gathers {value : Expr} {size : Nat} (storable : Storable value size) {base : UInt64}
    (lies : m.Lies value size base) {i count : Nat} (pos : 0 < count) (inside : i + count ≤ size)
    (there : w.value.toNat % 2 ^ m.bits.toNat = (base.toNat + i) % 2 ^ m.bits.toNat) :
    On.Ensures (loadFrom address (.ofNat (8 * count))) m
      (fun (e, _) new => new = m ∧ Expr.Gathered value
        (value.origin.2 + 8 * .ofNat (lowest m.littleEndian size i count)) count e)
      (fun _ => False) := by
  have few := storable.few
  have number : (UInt64.ofNat (8 * count)).toNat = 8 * count :=
    UInt64.toNat_ofNat_of_lt' (by simp only [UInt64.size]; omega)
  obtain ⟨whole, bytes⟩ := whole_bytes number
  have allowed : ¬ (UInt64.ofNat (8 * count) = 0 ∨ UInt64.ofNat (8 * count) % 8 ≠ 0 ∨
      64 < UInt64.ofNat (8 * count)) := by
    rintro (none_ | odd | wide)
    · rw [none_, UInt64.toNat_zero] at number
      omega
    · exact odd whole
    · have wide := UInt64.lt_iff_toNat_lt.mp wide
      rw [number, show (64 : UInt64).toNat = 64 from rfl] at wide
      omega
  unfold loadFrom
  refine .first (Session.count_succeeds _) fun _ _ => ?_
  rw [if_neg allowed]
  refine .look (.first (sized_at some_ narrow constant masked) fun v ⟨tag', w', isConst, value_eq, pinned⟩ => ?_)
  rw [concretize_eq_observe isConst]
  refine .first (Concretizer.observe_ensures _ _) fun found same => ?_
  subst same
  rw [bytes]
  have places : ∀ j, m.wrap (w'.value + .ofNat j) = m.wrap (base + .ofNat (i + j)) :=
    wrap_add_add narrow (by rw [value_eq, Nat.mod_mod, there])
  refine (readValue_gathers storable lies pos inside places).bind ?_
  rintro e _ ⟨rfl, gathered⟩
  exact .first (pinned _) fun c _ => .pure ⟨rfl, gathered⟩

end Accesses

/-- What some bytes give, beside the slice that lies there. -/
theorem Storable.loaded {value e : Expr} {size i count : Nat} (storable : Storable value size)
    {littleEndian : Bool} (pos : 0 < count) (inside : i + count ≤ size)
    (gathered : Expr.Gathered value (value.origin.2 + 8 * .ofNat (lowest littleEndian size i count)) count e) :
    ∃ part, value.slice (.ofNat (8 * lowest littleEndian size i count)) (.ofNat (8 * count)) = .ok part ∧
      (e.erase = part.erase ↔ value.Rejoins count) ∧
      (i = 0 → count = size → value.kind.isSealed = true → e = value) := by
  have width := storable.width_eq
  have below : lowest littleEndian size i count + count ≤ size := by
    unfold lowest
    split <;> omega
  have offset := storable.offset_toNat (show lowest littleEndian size i count < size by omega)
  obtain ⟨part, cut, alike⟩ := gathered.exists_slice storable.proper storable.single (by omega)
  rw [UInt64.ofNat_mul]
  refine ⟨part, cut, alike, fun first all sealed_ => ?_⟩
  have start : lowest littleEndian size i count = 0 := by
    unfold lowest
    split <;> omega
  rw [start, show 8 * UInt64.ofNat 0 = 0 from rfl, UInt64.add_zero] at gathered
  exact gathered.eq_value sealed_ (by rw [all, ← width, UInt64.ofNat_toNat])

/-- A well-formed value can be stored at a constant address. Whenever a value was stored, its bytes can be
    loaded, and they have the shape of the slice that lies there exactly if they rejoin, as those of a
    well-formed value do. All bytes of a node that no slice looks into give back the node itself. -/
theorem loadFrom_stored {m : Memory} (some_ : 0 < m.bits) (narrow : m.bits ≤ 64) {value : Expr}
    (built : value.Built) (tagged : value.Tagged) (single : value.kind ≠ .concat) {size : Nat}
    (width : value.width.toNat = 8 * size) (few : size ≤ 8) (room : size ≤ 2 ^ m.bits.toNat)
    {address : Value} {tag : Tag} {w : Word} (constant : address.expr = .const tag w) (masked : w.Masked)
    (session : Session) :
    (value.WellFormed → (∃ constraints after, storeAt address value (m, session) = .ok constraints after) ∧
      ∀ count ≤ size, value.Rejoins count) ∧
    ∀ constraints new left, storeAt address value (m, session) = .ok constraints (new, left) →
    ∀ (place : Value) tag' w', place.expr = .const tag' w' → w'.Masked →
    ∀ i count, 0 < count → i + count ≤ size →
      w'.value.toNat % 2 ^ m.bits.toNat = (w.value.toNat + i) % 2 ^ m.bits.toNat →
    ∀ session', ∃ loaded constraints' left' part,
      loadFrom place (.ofNat (8 * count)) (new, session') = .ok (loaded, constraints') (new, left') ∧
      value.slice (.ofNat (8 * if m.littleEndian then i else size - i - count)) (.ofNat (8 * count)) = .ok part ∧
      (loaded.erase = part.erase ↔ value.Rejoins count) ∧
      (i = 0 → count = size → value.kind.isSealed = true → loaded = value) := by
  have storable : Storable value size := ⟨built.proper, tagged, single, width, few⟩
  have stores := storeAt_lies some_ narrow constant masked storable room session
  constructor
  · intro wf
    refine ⟨?_, fun count fewer => wf.rejoins (by omega)⟩
    cases result : storeAt address value (m, session) with
    | ok constraints after => exact ⟨constraints, after, rfl⟩
    | error f after =>
        rw [result] at stores
        exact absurd wf stores
  · intro constraints new left stored place tag' w' constant' masked' i count pos inside there session'
    rw [stored] at stores
    obtain ⟨settings_eq, lies⟩ := stores
    have bits : new.bits = m.bits := congrArg (·.bits) settings_eq
    have order : new.littleEndian = m.littleEndian := congrArg (·.littleEndian) settings_eq
    rw [← bits] at some_ narrow there
    have loads := loadFrom_gathers some_ narrow constant' masked' storable lies pos inside there session'
    cases result : loadFrom place (.ofNat (8 * count)) (new, session') with
    | ok answer after =>
        rw [result] at loads
        obtain ⟨same, gathered⟩ := loads
        obtain ⟨loaded, constraints'⟩ := answer
        obtain ⟨_, left'⟩ := after
        subst same
        rw [order] at gathered
        obtain ⟨part, cut, alike, whole⟩ := storable.loaded pos inside gathered
        exact ⟨loaded, constraints', left', part, rfl, cut, alike, whole⟩
    | error f after =>
        rw [result] at loads
        exact loads.elim

/-- The bytes of a value that lies across the end of the address space. -/
theorem loadFrom_stored_across :
    let value : Expr := .zext (some 6) (.var (some 5) ⟨"x", 8⟩) 32
    let m : Memory := { bits := 16, littleEndian := true, concretizer := {}, store := { id := "mem" } }
    ∃ constraints new left,
      storeAt ⟨none, [], .const none ⟨65534, 16⟩⟩ value (m, {}) = .ok constraints (new, left) ∧
      (∃ loaded c left', loadFrom ⟨none, [], .const none ⟨65535, 16⟩⟩ 16 (new, left) = .ok (loaded, c) (new, left') ∧
        loaded.erase = .extract none (.zext none (.var none ⟨"x", 8⟩) 32) 8 16) ∧
      ∃ c left', loadFrom ⟨none, [], .const none ⟨65534, 16⟩⟩ 32 (new, left) = .ok (value, c) (new, left') := by
  intro value m
  have named : Expr.named "x" 8 = .ok (.var none ⟨"x", 8⟩) := rfl
  have resized : (Expr.var none ⟨"x", 8⟩).resize 32 = .ok (.zext none (.var none ⟨"x", 8⟩) 32) := rfl
  have built : value.Built := .stamp 5 (.resize (.named named) resized)
  obtain ⟨stores, loads⟩ := loadFrom_stored (by decide : 0 < m.bits) (by decide) built (by decide) (by decide)
    (show value.width.toNat = 8 * 4 from rfl) (by decide) (by decide)
    (show (Value.mk none [] (.const none ⟨65534, 16⟩)).expr = _ from rfl) (by decide) {}
  obtain ⟨⟨constraints, ⟨new, left⟩, stored⟩, rejoins⟩ := stores (by decide)
  obtain ⟨loaded, c, left', part, done, cut, alike, _⟩ := loads constraints new left stored
    ⟨none, [], .const none ⟨65535, 16⟩⟩ none _ rfl (by decide) 1 2 (by decide) (by decide) (by decide) left
  obtain ⟨whole, c', left'', _, done', _, _, same⟩ := loads constraints new left stored
    ⟨none, [], .const none ⟨65534, 16⟩⟩ none _ rfl (by decide) 0 4 (by decide) (by decide) rfl left
  have here : value.slice 8 16 = .ok (.extract none value 8 16) :=
    Expr.slice_sealed (by decide) (by decide) rfl (by decide)
  cases here.symm.trans cut
  rw [same rfl rfl rfl] at done'
  exact ⟨constraints, new, left, stored, ⟨loaded, c, left', done, alike.mpr (rejoins 2 (by decide))⟩, c', left'', done'⟩

/-- Two bytes of a slice that reaches beyond its source, which has one byte, are not rejoined. -/
theorem not_loadFrom_stored : ¬ ∀ (m : Memory) (value : Expr) (size : Nat) (address : Value) (tag : Tag) (w : Word)
    (session : Session), 0 < m.bits → m.bits ≤ 64 → value.Built → value.Tagged → value.kind ≠ .concat →
    value.width.toNat = 8 * size → size ≤ 8 → size ≤ 2 ^ m.bits.toNat → address.expr = .const tag w → w.Masked →
    ∀ constraints new left, storeAt address value (m, session) = .ok constraints (new, left) →
    ∀ loaded constraints' after, loadFrom address value.width (new, left) = .ok (loaded, constraints') after →
      loaded.erase = value.erase := by
  intro all
  let m : Memory := { bits := 16, littleEndian := false, concretizer := {}, store := { id := "mem" } }
  let value : Expr := .extract (some 6) (.var (some 5) ⟨"x", 8⟩) 18446744073709551608 16
  let address : Value := ⟨none, [], .const none ⟨256, 16⟩⟩
  have named : Expr.named "x" 8 = .ok (.var none ⟨"x", 8⟩) := rfl
  have cut : (Expr.var none ⟨"x", 8⟩).slice 18446744073709551608 16 =
      .ok (.extract none (.var none ⟨"x", 8⟩) 18446744073709551608 16) :=
    Expr.slice_sealed (by decide) (by decide) rfl (by decide)
  have built : value.Built := .stamp 5 (.slice (.named named) cut)
  have storable : Storable value 2 := ⟨built.proper, by decide, by decide, rfl, by decide⟩
  obtain ⟨⟨new, left⟩, stored⟩ := ok_of_returned?
    (show returned? (storeAt address value (m, {})) = some [.const (some 0) ⟨1, 1⟩] by cbv)
  have stores := storeAt_lies (by decide : 0 < m.bits) (by decide) (show address.expr = _ from rfl) (by decide)
    storable (by decide) {}
  rw [stored] at stores
  obtain ⟨settings_eq, lies⟩ := stores
  have bits : new.bits = 16 := congrArg (·.bits) settings_eq
  have loads := loadFrom_gathers (by rw [bits]; decide : 0 < new.bits) (by rw [bits]; decide)
    (show address.expr = _ from rfl) (by decide) storable lies (i := 0) (by decide : 0 < 2) (by decide) rfl left
  have stuck : ¬ value.Rejoins 2 := fun rejoins => rejoins 1 (by decide) (by decide) rfl
  cases result : loadFrom address (.ofNat (8 * 2)) (new, left) with
  | ok answer after =>
      rw [result] at loads
      obtain ⟨loaded, constraints⟩ := answer
      have same := all m value 2 address none _ {} (by decide) (by decide) built storable.tagged storable.single rfl
        (by decide) (by decide) rfl (by decide) _ _ _ stored loaded constraints after result
      have pair := loads.2.pair stuck
      rw [← Expr.kind_erase, same] at pair
      cases pair
  | error f after =>
      rw [result] at loads
      exact loads

end Memory

end SymbolicMemory
