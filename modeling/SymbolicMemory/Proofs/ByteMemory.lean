import SymbolicMemory.Memory
import SymbolicMemory.Proofs.Building
import SymbolicMemory.Proofs.Outcome

/-! # Symbolic cells and plain bytes

A plain memory has one byte at each of the `2 ^ n` addresses, which wrap around. Under a
valuation a symbolic memory shows a part of a plain one: the bytes that have a cell. Reading a
value only adds cells, for bytes as they stand at first, and what is read stands for what the
plain memory holds there. Writing a value shows the plain memory after the same bytes are
written, also where a value is longer than the memory and runs over itself.
-/

namespace SymbolicMemory

/-- A byte at every address of `n` bits. -/
abbrev ByteMemory (n : Nat) := BitVec n → BitVec 8

namespace ByteMemory

variable {n : Nat}

/-- Replaces one byte. -/
def set (bytes : ByteMemory n) (address : BitVec n) (byte : BitVec 8) : ByteMemory n :=
  fun place => if place = address then byte else bytes place

/-- Replaces bytes one after the other, from an address on. -/
def write : ByteMemory n → BitVec n → List (BitVec 8) → ByteMemory n
  | bytes, _, [] => bytes
  | bytes, address, byte :: rest => write (bytes.set address byte) (address + 1) rest

/-- The bytes from an address on. -/
def read (bytes : ByteMemory n) : BitVec n → (count : Nat) → List (BitVec 8)
  | _, 0 => []
  | address, count + 1 => bytes address :: bytes.read (address + 1) count

/-- The byte of a number that stands at a place among `count`. -/
def byteAt (littleEndian : Bool) (count value place : Nat) : BitVec 8 :=
  BitVec.ofNat 8 (value / 2 ^ (8 * if littleEndian then place else count - 1 - place))

/-- The bytes of a number in the order of their addresses. -/
def encode (littleEndian : Bool) (count value : Nat) : List (BitVec 8) :=
  (List.range count).map (byteAt littleEndian count value)

/-- The number that bytes in the order of their addresses stand for. -/
def decode (littleEndian : Bool) (bytes : List (BitVec 8)) : Nat :=
  if littleEndian then bytes.foldr (fun byte value => value * 2 ^ 8 + byte.toNat) 0
  else bytes.foldl (fun value byte => value * 2 ^ 8 + byte.toNat) 0

end ByteMemory

/-- What never changes about a memory: its address width, its byte order, and its image. -/
structure Layout where
  bits : UInt64
  littleEndian : Bool
  image : Image
  bits_pos : 0 < bits
  bits_le : bits ≤ 64

namespace Layout

variable (l : Layout)

/-- A plain memory with as many addresses. -/
abbrev Bytes := ByteMemory l.bits.toNat

/-- The plain address of an address that is reduced to the address space. -/
def place (address : UInt64) : BitVec l.bits.toNat := BitVec.ofNat l.bits.toNat address.toNat

/-- A byte as it is when it is first read. -/
def IsInitial (address : UInt64) (cell : Expr) : Prop :=
  match l.image address with
  | some b => ∃ tag, cell = .const tag ⟨b.toUInt64, 8⟩
  | none => ∃ tag name, cell = .var tag ⟨name, 8⟩

end Layout

namespace Memory

/-- The cell at an address, if there is one. -/
abbrev cell? (m : Memory) (address : UInt64) : Option Expr := m.store.cells.get? address

/-- A memory of a given layout whose cells are bytes within the address space. -/
structure Fits (l : Layout) (m : Memory) : Prop where
  bits_eq : m.bits = l.bits
  littleEndian_eq : m.littleEndian = l.littleEndian
  image_eq : m.store.image = l.image
  cells : ∀ address cell, m.cell? address = some cell →
    address.toNat < 2 ^ l.bits.toNat ∧ cell.WellFormed ∧ cell.width = 8

/-- Under a valuation, the cells hold what stands in a plain memory. -/
def Shows (l : Layout) (ρ : Valuation) (m : Memory) (bytes : l.Bytes) : Prop :=
  ∀ address cell, m.cell? address = some cell → cell.meaning ρ = (bytes (l.place address)).toNat

/-- Cells were added for bytes as they are at first, and the others are as they were. -/
structure Grows (l : Layout) (m new : Memory) : Prop where
  fits : new.Fits l
  kept : ∀ address cell, m.cell? address = some cell → new.cell? address = some cell
  added : ∀ address cell, m.cell? address = none → new.cell? address = some cell →
    l.IsInitial address cell

variable {l : Layout} {m m' m'' : Memory}

theorem Fits.grows (fits : m.Fits l) : m.Grows l m :=
  ⟨fits, fun _ _ h => h, fun _ _ absent present => by
    rw [absent] at present
    cases present⟩

theorem Grows.trans (first : m.Grows l m') (second : m'.Grows l m'') : m.Grows l m'' where
  fits := second.fits
  kept address cell h := second.kept address cell (first.kept address cell h)
  added address cell absent present := by
    cases between : m'.cell? address with
    | none => exact second.added address cell between present
    | some other =>
        rw [second.kept address other between] at present
        cases present
        exact first.added address cell absent between

/-- A variable occurs in some cell. -/
def Mentions (m : Memory) (v : Var) : Prop := ∃ address cell, m.cell? address = some cell ∧ v ∈ cell.occurrences

theorem Grows.mentions (grows : m.Grows l m') {v : Var} (mentions : m.Mentions v) : m'.Mentions v := by
  obtain ⟨address, cell, present, occurs⟩ := mentions
  exact ⟨address, cell, grows.kept address cell present, occurs⟩

theorem Grows.present (grows : m.Grows l m') {address : UInt64} (present : (m.cell? address).isSome) :
    (m'.cell? address).isSome := by
  obtain ⟨cell, present⟩ := Option.isSome_iff_exists.mp present
  rw [grows.kept address cell present]
  rfl

theorem Grows.shows (grows : m.Grows l m') {ρ : Valuation} {bytes : l.Bytes}
    (shows_ : m'.Shows l ρ bytes) : m.Shows l ρ bytes :=
  fun address cell h => shows_ address cell (grows.kept address cell h)

end Memory

section Places

variable (l : Layout)

theorem wrap_toNat {m : Memory} (fits : m.Fits l) (address : UInt64) :
    (m.wrap address).toNat = address.toNat % 2 ^ l.bits.toNat := by
  rw [Memory.wrap, fits.bits_eq, toNat_and_mask address l.bits_le]

theorem place_wrap {m : Memory} (fits : m.Fits l) (address : UInt64) :
    l.place (m.wrap address) = l.place address := by
  rw [Layout.place, wrap_toNat l fits, Layout.place]
  apply BitVec.eq_of_toNat_eq
  simp only [BitVec.toNat_ofNat, Nat.mod_mod]

theorem wrap_eq {m m' : Memory} (fits : m.Fits l) (fits' : m'.Fits l) (address : UInt64) :
    m.wrap address = m'.wrap address := by
  rw [Memory.wrap, Memory.wrap, fits.bits_eq, fits'.bits_eq]

theorem place_succ (address : UInt64) : l.place (address + 1) = l.place address + 1 := by
  apply BitVec.eq_of_toNat_eq
  simp only [Layout.place, BitVec.ofNat_eq_ofNat, BitVec.toNat_add, BitVec.toNat_ofNat,
    UInt64.toNat_add, UInt64.toNat_one, mod_mod_two_pow _ l.bits_le, Nat.mod_add_mod, Nat.add_mod_mod]

theorem place_inj {a b : UInt64} (ha : a.toNat < 2 ^ l.bits.toNat) (hb : b.toNat < 2 ^ l.bits.toNat)
    (h : l.place a = l.place b) : a = b := by
  have same := congrArg BitVec.toNat h
  simp only [Layout.place, BitVec.toNat_ofNat, Nat.mod_eq_of_lt ha, Nat.mod_eq_of_lt hb] at same
  exact UInt64.toNat_inj.mp same

end Places

/-- An expression of the same shape denotes the same. -/
theorem Expr.Denotes.of_erase {e e' : Expr} {width : UInt64} {vars : List Var}
    {value : Valuation → Nat} (h : e.Denotes width vars value) (same : e'.erase = e.erase) :
    e'.Denotes width vars value where
  wellFormed := by rw [← Expr.wellFormed_erase, same, Expr.wellFormed_erase]; exact h.wellFormed
  width_eq := by rw [← Expr.width_erase, same, Expr.width_erase]; exact h.width_eq
  vars_subset := by rw [← Expr.occurrences_erase, same, Expr.occurrences_erase]; exact h.vars_subset
  meaning_eq ρ := by rw [← Expr.meaning_erase, same, Expr.meaning_erase]; exact h.meaning_eq ρ

namespace Session

/-- Taking over an expression changes its tags only. -/
theorem make_erase (e : Expr) :
    Ensures (make (.ok e)) (fun made => made.erase = e.erase) (fun _ => False) := by
  intro session
  exact e.erase_stamp session.nextTag

theorem make_denotes {built : Except Fault Expr} {width : UInt64} {vars : List Var}
    {value : Valuation → Nat} (h : Expr.Builds built width vars value) :
    Ensures (make built) (fun made => made.Denotes width vars value) (fun _ => False) := by
  obtain ⟨e, rfl, denotes⟩ := h
  exact (make_erase e).mono (fun made same => denotes.of_erase same) fun _ no => no

end Session

namespace Store

theorem eq_const_of_erase {e : Expr} {w : Word} (h : e.erase = .const none w) :
    ∃ tag, e = .const tag w := by
  cases e with
  | const tag w' =>
      cases h
      exact ⟨tag, rfl⟩
  | _ => cases h

theorem eq_var_of_erase {e : Expr} {v : Var} (h : e.erase = .var none v) : ∃ tag, e = .var tag v := by
  cases e with
  | var tag v' =>
      cases h
      exact ⟨tag, rfl⟩
  | _ => cases h

/-- A byte that is read for the first time comes from the image or is a fresh variable. -/
theorem materialize_initial (l : Layout) {s : Store} (image : s.image = l.image) (address : UInt64) :
    Ensures (s.materialize address) (l.IsInitial address) (fun _ => False) := by
  unfold materialize Layout.IsInitial
  rw [image]
  cases l.image address with
  | some b =>
      refine (Session.make_erase _).bind fun cell same => ?_
      exact (Session.count_succeeds _).bind fun _ _ => .pure (eq_const_of_erase same)
  | none =>
      refine (Session.draw_succeeds _ _).bind fun name _ => ?_
      refine (Session.make_erase (.var none ⟨name, 8⟩)).bind fun cell same => ?_
      obtain ⟨tag, fresh⟩ := eq_var_of_erase same
      exact (Session.count_succeeds _).bind fun _ _ => .pure ⟨tag, name, fresh⟩

/-- Reading a byte keeps it, and makes it first where there is none. -/
theorem read_ensures (l : Layout) {s : Store} (image : s.image = l.image) (address : UInt64) :
    On.Ensures (read address) s
      (fun cell new => (s.cells.get? address = some cell ∧ new = s) ∨
        (s.cells.get? address = none ∧ l.IsInitial address cell ∧
          new = { s with cells := s.cells.insert address cell }))
      (fun _ => False) := by
  refine .look ?_
  cases present : s.cells.get? address with
  | some cell => exact .pure (.inl ⟨rfl, rfl⟩)
  | none =>
      refine .first (materialize_initial l image address) fun cell initial => ?_
      exact On.Ensures.bind (.change rfl) fun _ new h => .pure (.inr ⟨rfl, initial, h⟩)

theorem write_ensures (s : Store) (address : UInt64) {cell : Expr} (byte : cell.width = 8) :
    On.Ensures (write address cell) s
      (fun _ new => new = { s with cells := s.cells.insert address cell }) (fun _ => False) := by
  unfold write
  rw [if_neg fun wrong => wrong byte]
  exact .change rfl

end Store

theorem Layout.IsInitial.byte {l : Layout} {address : UInt64} {cell : Expr}
    (h : l.IsInitial address cell) : cell.WellFormed ∧ cell.width = 8 := by
  have byte : (0 : UInt64) < 8 ∧ (8 : UInt64) ≤ 64 := by decide
  unfold Layout.IsInitial at h
  cases image : l.image address with
  | some b =>
      rw [image] at h
      obtain ⟨tag, rfl⟩ := h
      exact ⟨⟨byte.1, byte.2, b.toNat_lt⟩, rfl⟩
  | none =>
      rw [image] at h
      obtain ⟨tag, name, rfl⟩ := h
      exact ⟨byte, rfl⟩

namespace Memory

variable {l : Layout} {m : Memory}

theorem cell?_insert (m : Memory) (address : UInt64) (cell : Expr) (other : UInt64) :
    cell? { m with store := { m.store with cells := m.store.cells.insert address cell } } other =
      if address = other then some cell else m.cell? other := by
  simp only [cell?, Std.TreeMap.get?_eq_getElem?, Std.TreeMap.getElem?_insert,
    Std.compare_eq_iff_eq]

theorem Fits.insert (fits : m.Fits l) {address : UInt64} (inside : address.toNat < 2 ^ l.bits.toNat)
    {cell : Expr} (wf : cell.WellFormed) (byte : cell.width = 8) :
    Fits l { m with store := { m.store with cells := m.store.cells.insert address cell } } where
  bits_eq := fits.bits_eq
  littleEndian_eq := fits.littleEndian_eq
  image_eq := fits.image_eq
  cells other cell' h := by
    rw [cell?_insert] at h
    split at h
    · next same =>
      cases h
      exact ⟨same ▸ inside, wf, byte⟩
    · exact fits.cells other cell' h

theorem wrap_lt (fits : m.Fits l) (address : UInt64) :
    (m.wrap address).toNat < 2 ^ l.bits.toNat := by
  rw [wrap_toNat l fits]
  exact Nat.mod_lt _ (Nat.two_pow_pos _)

theorem readCell_ensures (fits : m.Fits l) (address : UInt64) :
    On.Ensures (readCell address) m
      (fun cell new => m.Grows l new ∧ new.cell? (m.wrap address) = some cell) (fun _ => False) := by
  refine .look ((On.Ensures.part (Store.read_ensures l fits.image_eq (m.wrap address))).mono ?_ ?_)
  · rintro cell _ ⟨s, ⟨present, rfl⟩ | ⟨absent, initial, rfl⟩, rfl⟩
    · exact ⟨fits.grows, present⟩
    · obtain ⟨wf, byte⟩ := initial.byte
      refine ⟨⟨fits.insert (wrap_lt fits address) wf byte, fun other cell' h => ?_,
        fun other cell' before after => ?_⟩, ?_⟩
      · rw [cell?_insert]
        split
        · next same =>
          rw [← same, show m.cell? (m.wrap address) = none from absent] at h
          cases h
        · exact h
      · rw [cell?_insert] at after
        split at after
        · next same =>
          cases after
          exact same ▸ initial
        · rw [before] at after
          cases after
      · rw [cell?_insert, if_pos rfl]
  · rintro _ ⟨_, no, _⟩
    exact no

/-- The number that a value of some width stands for with further bytes behind it. -/
def extended (littleEndian : Bool) (width value : Nat) (bytes : List (BitVec 8)) : Nat :=
  if littleEndian then
    bytes.foldr (fun byte value => value * 2 ^ 8 + byte.toNat) 0 * 2 ^ width + value
  else bytes.foldl (fun value byte => value * 2 ^ 8 + byte.toNat) value

theorem extended_cons (littleEndian : Bool) (width value : Nat) (byte : BitVec 8)
    (bytes : List (BitVec 8)) :
    extended littleEndian width value (byte :: bytes) =
      extended littleEndian (width + 8)
        (if littleEndian then byte.toNat * 2 ^ width + value else value * 2 ^ 8 + byte.toNat) bytes := by
  cases littleEndian with
  | false => rfl
  | true =>
      simp only [extended, if_true, List.foldr_cons]
      rw [Nat.add_mul, Nat.mul_assoc, ← Nat.pow_add, Nat.add_comm 8, Nat.add_assoc]

theorem decode_cons (littleEndian : Bool) (byte : BitVec 8) (bytes : List (BitVec 8)) :
    ByteMemory.decode littleEndian (byte :: bytes) = extended littleEndian 8 byte.toNat bytes := by
  cases littleEndian with
  | false => simp [ByteMemory.decode, extended]
  | true => rfl

theorem joined_ensures (littleEndian : Bool) {cell soFar : Expr} (cellWf : cell.WellFormed)
    (byte : cell.width.toNat = 8) (wf : soFar.WellFormed) (room : soFar.width.toNat + 8 ≤ 64) :
    Ensures (Session.make
        (if littleEndian then Expr.append cell soFar else Expr.append soFar cell))
      (fun e => e.WellFormed ∧ e.width.toNat = soFar.width.toNat + 8 ∧
        (∀ v ∈ e.occurrences, v ∈ soFar.occurrences ∨ v ∈ cell.occurrences) ∧
        ∀ ρ, e.meaning ρ = if littleEndian
          then cell.meaning ρ * 2 ^ soFar.width.toNat + soFar.meaning ρ
          else soFar.meaning ρ * 2 ^ 8 + cell.meaning ρ) (fun _ => False) := by
  cases littleEndian with
  | false =>
      have fits : soFar.width.toNat + cell.width.toNat ≤ 64 := by omega
      refine (Session.make_denotes (Expr.append_builds wf cellWf fits)).mono ?_ fun _ no => no
      intro e denotes
      refine ⟨denotes.wellFormed, ?_, fun v occurs => ?_, fun ρ => ?_⟩
      · rw [denotes.width_eq, toNat_add_small fits, byte]
      · exact List.mem_append.mp (denotes.vars_subset occurs)
      · rw [denotes.meaning_eq, byte]
        rfl
  | true =>
      have fits : cell.width.toNat + soFar.width.toNat ≤ 64 := by omega
      refine (Session.make_denotes (Expr.append_builds cellWf wf fits)).mono ?_ fun _ no => no
      intro e denotes
      refine ⟨denotes.wellFormed, ?_, fun v occurs => ?_, denotes.meaning_eq⟩
      · rw [denotes.width_eq, toNat_add_small fits, byte, Nat.add_comm]
      · exact (List.mem_append.mp (denotes.vars_subset occurs)).symm

/-- Bytes were read from an address on, which adds cells only: the value stands for what a plain
    memory holds there, and mentions what the cells do. -/
structure Fetched (l : Layout) (m : Memory) (address : UInt64) (count : Nat) (e : Expr) (new : Memory) :
    Prop where
  grows : m.Grows l new
  wellFormed : e.WellFormed
  width_eq : e.width.toNat = 8 * count
  meaning_eq : ∀ ρ bytes, new.Shows l ρ bytes →
    e.meaning ρ = ByteMemory.decode l.littleEndian (bytes.read (l.place address) count)
  mentioned : ∀ v ∈ e.occurrences, new.Mentions v
  present : ∀ i < count, (new.cell? (new.wrap (address + UInt64.ofNat i))).isSome

theorem present_cons {m : Memory} {address : UInt64} {count : Nat}
    (first : (m.cell? (m.wrap address)).isSome)
    (later : ∀ i < count, (m.cell? (m.wrap (address + 1 + UInt64.ofNat i))).isSome) :
    ∀ i < count + 1, (m.cell? (m.wrap (address + UInt64.ofNat i))).isSome := by
  intro i less
  cases i with
  | zero => exact (add_ofNat_zero address).symm ▸ first
  | succ i => exact add_one_add_ofNat address i ▸ later i (by omega)

theorem readMore_ensures (address : UInt64) (count : Nat) {m : Memory} (fits : m.Fits l)
    {soFar : Expr} (wf : soFar.WellFormed) (room : soFar.width.toNat + 8 * count ≤ 64) :
    On.Ensures (readMore address count soFar) m
      (fun e new => m.Grows l new ∧ e.WellFormed ∧
        e.width.toNat = soFar.width.toNat + 8 * count ∧
        (∀ v ∈ e.occurrences, v ∈ soFar.occurrences ∨ new.Mentions v) ∧
        (∀ i < count, (new.cell? (new.wrap (address + UInt64.ofNat i))).isSome) ∧
        ∀ ρ bytes, new.Shows l ρ bytes → e.meaning ρ =
          extended l.littleEndian soFar.width.toNat (soFar.meaning ρ)
            (bytes.read (l.place address) count))
      (fun _ => False) := by
  induction count generalizing m soFar address with
  | zero =>
      refine .pure ⟨fits.grows, wf, rfl, fun _ => .inl, by simp, fun ρ bytes _ => ?_⟩
      cases l.littleEndian <;> simp [extended, ByteMemory.read]
  | succ count ih =>
      rw [readMore]
      refine (readCell_ensures fits address).bind ?_
      rintro cell m' ⟨grows, present⟩
      obtain ⟨_, cellWf, byte⟩ := grows.fits.cells _ cell present
      refine .look ?_
      rw [grows.fits.littleEndian_eq]
      have joined := joined_ensures l.littleEndian cellWf (congrArg UInt64.toNat byte) wf (by omega)
      refine .first joined ?_
      rintro e ⟨eWf, eWidth, eVars, eMeaning⟩
      refine (ih (address + 1) grows.fits eWf (by omega)).mono ?_ fun _ no => no
      rintro e' new ⟨grows', wf', width', vars', present', meaning'⟩
      have stays : (new.cell? (new.wrap address)).isSome := by
        rw [← wrap_eq l fits grows'.fits, grows'.kept _ cell present]
        rfl
      refine ⟨grows.trans grows', wf', by omega, fun v occurs => ?_, present_cons stays present',
        fun ρ bytes shows_ => ?_⟩
      · rcases vars' v occurs with before | mentioned
        · exact (eVars v before).imp_right fun here => grows'.mentions ⟨_, cell, present, here⟩
        · exact .inr mentioned
      · have here := grows'.shows shows_ _ cell present
        rw [place_wrap l fits] at here
        rw [meaning' ρ bytes shows_, eMeaning, eWidth, here, place_succ, ByteMemory.read, extended_cons]

theorem readValue_ensures (fits : m.Fits l) (address : UInt64) {count : Nat} (pos : 0 < count)
    (room : 8 * count ≤ 64) :
    On.Ensures (readValue address count) m (m.Fetched l address count) (fun _ => False) := by
  obtain ⟨rest, rfl⟩ : ∃ rest, count = rest + 1 := ⟨count - 1, by omega⟩
  refine (readCell_ensures fits address).bind ?_
  rintro first m' ⟨grows, present⟩
  obtain ⟨_, wf, byte⟩ := grows.fits.cells _ first present
  have eight : first.width.toNat = 8 := congrArg UInt64.toNat byte
  refine (readMore_ensures (address + 1) rest grows.fits wf (by omega)).mono ?_ fun _ no => no
  rintro e new ⟨grows', wf', width', vars', present', meaning'⟩
  have stays : (new.cell? (new.wrap address)).isSome := by
    rw [← wrap_eq l fits grows'.fits, grows'.kept _ first present]
    rfl
  refine ⟨grows.trans grows', wf', by omega, fun ρ bytes shows_ => ?_, fun v occurs => ?_,
    present_cons stays present'⟩
  · have here := grows'.shows shows_ _ first present
    rw [place_wrap l fits] at here
    rw [meaning' ρ bytes shows_, here, eight, place_succ, ByteMemory.read, decode_cons]
  · rcases vars' v occurs with here | mentioned
    · exact grows'.mentions ⟨_, first, present, here⟩
    · exact mentioned

/-- Under a valuation, the cells hold what stands in a plain memory, and everywhere else that
    memory is as it was initially. -/
structure Mirrors (l : Layout) (ρ : Valuation) (m : Memory) (initial bytes : l.Bytes) : Prop where
  shown : m.Shows l ρ bytes
  untouched : ∀ address : UInt64, address.toNat < 2 ^ l.bits.toNat → m.cell? address = none →
    bytes (l.place address) = initial (l.place address)

theorem Mirrors.insert (fits : m.Fits l) {ρ : Valuation} {initial bytes : l.Bytes}
    (mirrors : m.Mirrors l ρ initial bytes) {address : UInt64}
    (inside : address.toNat < 2 ^ l.bits.toNat) {cell : Expr} {byte : BitVec 8}
    (value : cell.meaning ρ = byte.toNat) :
    Mirrors l ρ { m with store := { m.store with cells := m.store.cells.insert address cell } }
      initial (bytes.set (l.place address) byte) := by
  have elsewhere : ∀ other : UInt64, other.toNat < 2 ^ l.bits.toNat → address ≠ other →
      bytes.set (l.place address) byte (l.place other) = bytes (l.place other) :=
    fun other otherInside apart =>
      if_neg fun same => apart (place_inj l inside otherInside same.symm)
  refine ⟨fun other cell' h => ?_, fun other otherInside h => ?_⟩
  · rw [cell?_insert] at h
    split at h
    · next same =>
      cases h
      rw [← same, ByteMemory.set, if_pos rfl, value]
    · next apart => rw [elsewhere other (fits.cells other cell' h).1 apart, mirrors.shown other cell' h]
  · rw [cell?_insert] at h
    split at h
    · cases h
    · next apart => rw [elsewhere other otherInside apart, mirrors.untouched other otherInside h]

/-- A memory without its content. -/
def settings (m : Memory) : Memory := { m with store := { m.store with cells := ∅ } }

/-- Bytes over some variables were written from an address on, and a plain memory follows by
    writing them there. -/
structure Writes (l : Layout) (m : Memory) (address : UInt64) (vars : List Var)
    (written : Valuation → List (BitVec 8)) (new : Memory) : Prop where
  fits : new.Fits l
  settings_eq : new.settings = m.settings
  mentioned : ∀ v, new.Mentions v → m.Mentions v ∨ v ∈ vars
  kept : ∀ place, (m.cell? place).isSome → (new.cell? place).isSome
  mirrors : ∀ ρ initial bytes, m.Mirrors l ρ initial bytes →
    new.Mirrors l ρ initial (bytes.write (l.place address) (written ρ))

theorem writeCell_ensures (fits : m.Fits l) (address : UInt64) {cell : Expr} (wf : cell.WellFormed)
    (byte : cell.width = 8) :
    On.Ensures (writeCell address cell) m
      (fun _ new => m.Writes l address cell.occurrences (fun ρ => [BitVec.ofNat 8 (cell.meaning ρ)]) new)
      (fun _ => False) := by
  have inside := wrap_lt fits address
  refine .look ((On.Ensures.part (Store.write_ensures m.store (m.wrap address) byte)).mono ?_ ?_)
  · rintro _ _ ⟨s, rfl, rfl⟩
    refine ⟨fits.insert inside wf byte, rfl, ?_, fun place present => ?_, fun ρ initial bytes mirrors => ?_⟩
    · rintro v ⟨place, cell', present, occurs⟩
      rw [cell?_insert] at present
      split at present
      · cases present
        exact .inr occurs
      · exact .inl ⟨place, cell', present, occurs⟩
    · rw [cell?_insert]
      split
      · rfl
      · exact present
    · have small := Expr.meaning_lt ρ wf
      rw [byte] at small
      rw [← place_wrap l fits address]
      refine mirrors.insert fits inside ?_
      exact (Nat.mod_eq_of_lt small).symm
  · rintro _ ⟨_, no, _⟩
    exact no

/-- Each byte of a value is cut out of it and written at its place. -/
theorem writeMore_ensures {value : Expr} (wf : value.WellFormed) {count : Nat}
    (width : value.width.toNat = 8 * count) (left : Nat) (le : left ≤ count) (address : UInt64)
    {m : Memory} (fits : m.Fits l) :
    On.Ensures (writeMore value count left address) m
      (fun _ new => m.Writes l address value.occurrences (fun ρ =>
        (List.range' (count - left) left).map
          (ByteMemory.byteAt l.littleEndian count (value.meaning ρ))) new)
      (fun _ => False) := by
  induction left generalizing m address with
  | zero =>
      exact .pure ⟨fits, rfl, fun _ => .inl, fun _ present => present, fun _ _ _ mirrors => mirrors⟩
  | succ left ih =>
      have narrow : value.width.toNat ≤ 64 := UInt64.le_iff_toNat_le.mp (Expr.width_bounds wf).2
      rw [writeMore]
      refine .look ?_
      rw [fits.littleEndian_eq]
      -- The place of the byte within the value, counted from its low end.
      generalize here : (if l.littleEndian = true then count - (left + 1) else left) = position
      have bound : position < count := by
        split at here <;> omega
      have offset : (8 * UInt64.ofNat position).toNat = 8 * position := by
        rw [UInt64.toNat_mul, UInt64.toNat_ofNat_of_lt' (show position < 2 ^ 64 by omega)]
        exact Nat.mod_eq_of_lt (show 8 * position < 2 ^ 64 by omega)
      have inside : (8 * UInt64.ofNat position).toNat + 8 ≤ value.width.toNat := by omega
      have sliced := Expr.sliceable wf (8 * UInt64.ofNat position) 8 (by decide) inside
      refine .first (Session.make_denotes sliced) fun cell denotes => ?_
      have byte : ∀ ρ, BitVec.ofNat 8 (cell.meaning ρ) =
          ByteMemory.byteAt l.littleEndian count (value.meaning ρ) (count - (left + 1)) := fun ρ => by
        have same : (if l.littleEndian then count - (left + 1) else count - 1 - (count - (left + 1)))
            = position := by
          rw [← here]
          split <;> omega
        rw [denotes.meaning_eq, offset, ByteMemory.byteAt, same]
        exact BitVec.eq_of_toNat_eq (by simp)
      refine (writeCell_ensures fits address denotes.wellFormed denotes.width_eq).bind
        fun _ m' first => ?_
      refine (ih (by omega) (address + 1) first.fits).mono (fun _ new rest => ?_) fun _ no => no
      refine ⟨rest.fits, rest.settings_eq.trans first.settings_eq, fun v mentions => ?_,
        fun place present => rest.kept place (first.kept place present), fun ρ initial bytes mirrors => ?_⟩
      · rcases rest.mentioned v mentions with before | inside
        · exact (first.mentioned v before).imp_right fun inside => denotes.vars_subset inside
        · exact .inr inside
      have both := rest.mirrors ρ initial _ (first.mirrors ρ initial bytes mirrors)
      rw [List.range'_succ, show count - (left + 1) + 1 = count - left by omega, List.map_cons, ← byte]
      rw [place_succ] at both
      exact both

/-- Writing a value writes its bytes in the byte order of the memory. -/
theorem writeValue_ensures (fits : m.Fits l) (address : UInt64) {value : Expr} (wf : value.WellFormed)
    (whole : value.width % 8 = 0) :
    On.Ensures (writeValue address value) m
      (fun _ new => m.Writes l address value.occurrences
        (fun ρ => ByteMemory.encode l.littleEndian (value.width.toNat / 8) (value.meaning ρ)) new)
      (fun _ => False) := by
  have count : (value.width / 8).toNat = value.width.toNat / 8 := UInt64.toNat_div _ _
  have rest : value.width.toNat % 8 = 0 := congrArg UInt64.toNat whole
  have written := writeMore_ensures wf (show _ = 8 * (value.width.toNat / 8) by omega) _
    (Nat.le_refl _) address fits
  rw [Nat.sub_self, ← List.range_eq_range'] at written
  rw [writeValue, count]
  exact written

end Memory

end SymbolicMemory
