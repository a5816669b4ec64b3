import SymbolicMemory.Proofs.Concretization
import SymbolicMemory.Proofs.Naming

/-! # Loads from several addresses are exact

A load from several addresses returns a fresh variable and one condition. The addresses are all
that the path leaves open, so wherever the path is followed the condition leaves the variable one
value: the one that the bytes at the address stand for.
-/

namespace SymbolicMemory

theorem ByteMemory.decode_lt (littleEndian : Bool) (bytes : List (BitVec 8)) :
    ByteMemory.decode littleEndian bytes < 2 ^ (8 * bytes.length) := by
  have step : ∀ {value count : Nat} (byte : BitVec 8), value < 2 ^ (8 * count) →
      value * 2 ^ 8 + byte.toNat < 2 ^ (8 * (count + 1)) := by
    intro value count byte small
    rw [Nat.mul_succ]
    exact mul_two_pow_add_lt small byte.isLt
  cases littleEndian with
  | true =>
      simp only [decode, if_true]
      induction bytes with
      | nil => exact Nat.one_pos
      | cons byte rest ih => exact step byte ih
  | false =>
      have folded : ∀ (bytes : List (BitVec 8)) (value count : Nat), value < 2 ^ (8 * count) →
          bytes.foldl (fun value byte => value * 2 ^ 8 + byte.toNat) value <
            2 ^ (8 * (count + bytes.length)) := by
        intro bytes
        induction bytes with
        | nil => exact fun _ _ small => small
        | cons byte rest ih =>
            intro value count small
            have rest_lt := ih _ _ (step byte small)
            rw [List.length_cons, Nat.add_comm rest.length, ← Nat.add_assoc]
            exact rest_lt
      have all := folded bytes 0 0 Nat.one_pos
      rw [Nat.zero_add] at all
      exact all

theorem ByteMemory.length_read {n : Nat} (bytes : ByteMemory n) (address : BitVec n) (count : Nat) :
    (bytes.read address count).length = count := by
  induction count generalizing address with
  | zero => rfl
  | succ count ih => rw [read, List.length_cons, ih]

/-- The number that bytes stand for fits into the width they come from. -/
theorem ByteMemory.exists_decode_read (littleEndian : Bool) {n : Nat} (bytes : ByteMemory n)
    (address : BitVec n) {width : UInt64} (narrow : width ≤ 64) :
    ∃ y : UInt64, y.toNat = decode littleEndian (bytes.read address (width.toNat / 8)) ∧
      y.toNat < 2 ^ width.toNat := by
  have small := decode_lt littleEndian (bytes.read address (width.toNat / 8))
  rw [length_read] at small
  have within := Nat.lt_of_lt_of_le small
    (Nat.pow_le_pow_right (by decide) (Nat.mul_div_le width.toNat 8))
  have number := UInt64.toNat_ofNat_of_lt' (Nat.lt_of_lt_of_le within (two_pow_toNat_le narrow))
  refine ⟨UInt64.ofNat _, number, ?_⟩
  rw [number]
  exact within

namespace Memory

/-- The bytes from an address on, if they all have cells with a value. -/
def bytesAt (m : Memory) (a : Assignment) : (address : UInt64) → (count : Nat) → Option (List (BitVec 8))
  | _, 0 => some []
  | address, count + 1 => do
    let cell ← m.cell? (m.wrap address)
    let byte ← (cell.eval a).toOption
    return BitVec.ofNat 8 byte.value.toNat :: (← m.bytesAt a (address + 1) count)

variable {l : Layout} {m : Memory} {ρ : Valuation}

/-- A plain memory that the cells show, with zeros where there is no cell. -/
def shown (l : Layout) (m : Memory) (ρ : Valuation) : l.Bytes := fun place =>
  match m.cell? (UInt64.ofNat place.toNat) with
  | some cell => BitVec.ofNat 8 (cell.meaning ρ)
  | none => 0

theorem shows_shown (fits : m.Fits l) (ρ : Valuation) : m.Shows l ρ (m.shown l ρ) := by
  intro address cell present
  obtain ⟨inside, wf, byte⟩ := fits.cells address cell present
  have same : UInt64.ofNat (l.place address).toNat = address := by
    rw [Layout.place, BitVec.toNat_ofNat, Nat.mod_eq_of_lt inside, UInt64.ofNat_toNat]
  have small := Expr.meaning_lt ρ wf
  rw [byte] at small
  rw [shown, same, present]
  exact (Nat.mod_eq_of_lt small).symm

theorem Shows.congr {ρ' : Valuation} (same : ∀ v, m.Mentions v → ρ v.name = ρ' v.name)
    {bytes : l.Bytes} (shows_ : m.Shows l ρ bytes) : m.Shows l ρ' bytes := by
  intro address cell present
  rw [← shows_ address cell present]
  exact (Expr.meaning_congr fun v occurs => same v ⟨address, cell, present, occurs⟩).symm

theorem bytesAt_eq (fits : m.Fits l) {bytes : l.Bytes} (shows_ : m.Shows l ρ bytes) (address : UInt64)
    (count : Nat) (present : ∀ i < count, (m.cell? (m.wrap (address + UInt64.ofNat i))).isSome) :
    m.bytesAt (.total ρ) address count = some (bytes.read (l.place address) count) := by
  induction count generalizing address with
  | zero => rfl
  | succ count ih =>
      have first : (m.cell? (m.wrap address)).isSome := by
        have here := present 0 (Nat.succ_pos _)
        rwa [add_ofNat_zero] at here
      have later : ∀ i < count, (m.cell? (m.wrap (address + 1 + UInt64.ofNat i))).isSome := by
        intro i less
        have here := present (i + 1) (Nat.succ_lt_succ less)
        rwa [← add_one_add_ofNat] at here
      obtain ⟨cell, there⟩ := Option.isSome_iff_exists.mp first
      obtain ⟨_, wf, _⟩ := fits.cells _ cell there
      have value := shows_ _ cell there
      rw [place_wrap l fits, ← Expr.value_toNat ρ wf] at value
      rw [bytesAt, there, ih (address + 1) later, place_succ, ByteMemory.read]
      simp only [Option.bind_eq_bind, Option.bind_some, Exhaustive.eval_total wf, Except.toOption, value,
        BitVec.ofNat_toNat, BitVec.setWidth_eq]
      rfl

theorem wrap_add_eq (fits : m.Fits l) {a b : UInt64} (same : l.place a = l.place b) (k : UInt64) :
    m.wrap (a + k) = m.wrap (b + k) := by
  have numbers : a.toNat % 2 ^ l.bits.toNat = b.toNat % 2 ^ l.bits.toNat := by
    simpa [Layout.place] using congrArg BitVec.toNat same
  apply UInt64.toNat_inj.mp
  rw [wrap_toNat l fits, wrap_toNat l fits, UInt64.toNat_add, UInt64.toNat_add,
    mod_mod_two_pow _ l.bits_le, mod_mod_two_pow _ l.bits_le, Nat.add_mod, numbers, ← Nat.add_mod]

section Possible

variable {s : Exhaustive} {address v : Value} {strategies : List Strategy} {session mid : Session}
  {found : Addresses}

theorem Sized.mem_possible (sized : Sized l address v) (conditions : ∀ c ∈ address.constraints, c.Condition)
    {x : UInt64} : x ∈ Concretizer.possible s v ↔
      ∃ ρ, s.Within ((v.expr :: address.constraints).flatMap Expr.occurrences) ρ ∧
        Holds ρ address.constraints ∧ address.expr.meaning ρ % 2 ^ l.bits.toNat = x.toNat := by
  rw [← sized.constraints_eq] at conditions ⊢
  simp only [← sized.meaning_eq]
  exact Exhaustive.mem_feasible conditions sized.wellFormed

/-- On a path that can be followed, an address is narrowed down to one that is possible or to all
    of them. -/
theorem Resolved.oneOrAll (resolved : Resolved l m address strategies session v found mid)
    (known : ∀ name, .unknown name ∉ strategies) (solver : address.solver = some s.solver)
    (conditions : ∀ c ∈ address.constraints, c.Condition) {ρ : Valuation}
    (within : s.Within (address.constraints.flatMap Expr.occurrences) ρ)
    (holds : Holds ρ address.constraints) :
    Concretizer.OneOrAll (Concretizer.possible s v) found.toList := by
  obtain ⟨before, answer⟩ := resolved.answer
  have sized := resolved.sized
  rcases Concretizer.asks_of_ok (sized.solver_eq.trans solver) sized.wellFormed
    (sized.constraints_eq ▸ conditions) answer with asks | ⟨tag, w, constant, rfl⟩
  · have right := Concretizer.concretize_possible asks m.concretizer known before
    rw [answer] at right
    exact right
  · have value := sized.meaning_eq ρ
    rw [constant] at value
    refine .inl ⟨w.value, (sized.mem_possible conditions).mpr ⟨ρ, ?_, holds, value.symm⟩, rfl⟩
    rw [constant]
    exact within

/-- If several addresses were found, none that the path can lead to is missing. -/
theorem Resolved.reached (resolved : Resolved l m address strategies session v found mid)
    (known : ∀ name, .unknown name ∉ strategies) (solver : address.solver = some s.solver)
    (conditions : ∀ c ∈ address.constraints, c.Condition) {ρ : Valuation}
    (within : s.Within ((address.expr :: address.constraints).flatMap Expr.occurrences) ρ)
    (holds : Holds ρ address.constraints) (many : found.others ≠ []) :
    ∃ concrete ∈ found.toList, address.expr.meaning ρ % 2 ^ l.bits.toNat = concrete.toNat := by
  have sized := resolved.sized
  have onPath : s.Within (address.constraints.flatMap Expr.occurrences) ρ :=
    within.mono fun _ occurs => List.mem_append_right _ occurs
  rcases resolved.oneOrAll known solver conditions onPath holds with ⟨x, _, single⟩ | all
  · exact absurd (List.cons.inj single).2 many
  · have value := (sized.meaning_eq ρ).symm.trans (Expr.value_toNat ρ sized.wellFormed).symm
    refine ⟨_, (all _).mpr ((sized.mem_possible conditions).mpr ⟨ρ, ?_, holds, value⟩), value⟩
    intro u occurs
    rcases List.mem_append.mp occurs with inAddress | inConstraints
    · exact within u (List.mem_append_left _ (sized.vars_subset inAddress))
    · exact onPath u inConstraints

/-- Where the address is one of those that were found, the condition says that the value is what
    stands there. -/
theorem Obtained.holds_at {new : Memory} {width : UInt64} {value c : Expr}
    (obtained : m.Obtained l address width found value c new) {bytes : l.Bytes}
    (shows_ : new.Shows l ρ bytes) {concrete : UInt64} (member : concrete ∈ found.toList)
    (here : BitVec.ofNat l.bits.toNat (address.expr.meaning ρ) = l.place concrete) :
    c.meaning ρ = 1 ↔ value.meaning ρ =
      ByteMemory.decode l.littleEndian (bytes.read (l.place concrete) (width.toNat / 8)) := by
  rw [obtained.holds_iff ρ bytes shows_]
  constructor
  · rintro ⟨other, _, there, value⟩
    rw [value, ← there, here]
  · intro value
    exact ⟨concrete, member, here, value⟩

/-- The condition on a fresh variable, for one value of it: nothing else depends on the variable. -/
theorem Obtained.holds_update {new : Memory} {width : UInt64} {tag : Tag} {r : Var} {c : Expr}
    (obtained : m.Obtained l address width found (.var tag r) c new)
    (unused : ∀ u ∈ address.expr.occurrences, u.name ≠ r.name)
    (unmentioned : ∀ u, new.Mentions u → u.name ≠ r.name) {bytes : l.Bytes}
    (shows_ : new.Shows l ρ bytes) {concrete : UInt64} (member : concrete ∈ found.toList)
    (here : BitVec.ofNat l.bits.toNat (address.expr.meaning ρ) = l.place concrete) {z : UInt64}
    (small : z.toNat < 2 ^ width.toNat) :
    c.meaning (Function.update ρ r.name z) = 1 ↔ z.toNat =
      ByteMemory.decode l.littleEndian (bytes.read (l.place concrete) (width.toNat / 8)) := by
  have apart : ∀ u : Var, u.name ≠ r.name → ρ u.name = Function.update ρ r.name z u.name :=
    fun u other => (Function.update_of_ne other z ρ).symm
  have address_eq : address.expr.meaning ρ = address.expr.meaning (Function.update ρ r.name z) :=
    Expr.meaning_congr fun u occurs => apart u (unused u occurs)
  have width_eq : r.width = width := obtained.width_eq
  have shows' := shows_.congr fun u mentions => apart u (unmentioned u mentions)
  rw [obtained.holds_at shows' member (address_eq ▸ here), Expr.meaning, Function.update_self, width_eq,
    Nat.mod_eq_of_lt small]

end Possible

/-- A load from several addresses returns a fresh variable `r`, told by its name, and one
    condition. Wherever the constraints of the path hold, with values from the domains of the solver,
    the condition leaves `r` exactly one value: what the bytes stand for that are found at the
    address, in the order of the memory. -/
theorem loadFrom_exact {s : Exhaustive} {new : Memory} {address : Value} {width : UInt64}
    {session left : Session} {tag : Tag} {r : Var} {constraints : List Expr} (fits : m.Fits l)
    (solver : address.solver = some s.solver) (wf : address.expr.WellFormed)
    (conditions : ∀ c ∈ address.constraints, c.Condition)
    (done : loadFrom address width (m, session) = .ok (.var tag r, constraints) (new, left))
    (several : r.name = Names.valueName m.id (session.supplied m.store.supply).addrs)
    (unused : ∀ v ∈ (address.expr :: address.constraints).flatMap Expr.occurrences, v.name ≠ r.name)
    (unstored : ∀ v, m.Mentions v → v.name ≠ r.name) :
    r.width = width ∧ m.Grows l new ∧ ∃ c, constraints = [c] ∧ ∀ ρ : Valuation,
      s.Within ((address.expr :: address.constraints).flatMap Expr.occurrences) ρ →
      (∀ c ∈ address.constraints, c.eval (.total ρ) = .ok (.ofBool true)) →
      ∃ x bytes y, address.expr.eval (.total ρ) = .ok ⟨x, address.expr.width⟩ ∧
        new.bytesAt (.total ρ) x (width.toNat / 8) = some bytes ∧
        y.toNat = ByteMemory.decode m.littleEndian bytes ∧ y.toNat < 2 ^ width.toNat ∧
        ∀ z : UInt64, z.toNat < 2 ^ width.toNat →
          (c.eval (.total (Function.update ρ r.name z)) = .ok (.ofBool true) ↔ z = y) := by
  obtain ⟨v, found, mid, resolved, ⟨c, rfl, obtained⟩, draws⟩ :=
    (loadFrom_ends fits wf width session).of_ok done
  have width_eq : r.width = width := obtained.width_eq
  obtain ⟨start, ⟨listed, reading⟩, _⟩ := draws.reading
  have unmentioned : ∀ v, new.Mentions v → v.name ≠ r.name := by
    intro v mentions
    rcases reading.mentions mentions with before | ⟨i, _, rfl⟩
    · exact unstored v before
    · rw [several]
      exact Names.byteName_ne_valueName _ _ _
  have many : found.others ≠ [] := by
    rcases obtained.origin with ⟨_, fetched⟩ | ⟨many, _⟩
    · exact absurd rfl (unmentioned r (fetched.mentioned r (List.mem_singleton.mpr rfl)))
    · exact many
  refine ⟨width_eq, obtained.grows, c, rfl, fun ρ within satisfied => ?_⟩
  have holds := (Exhaustive.holds_iff conditions ρ).mp satisfied
  obtain ⟨concrete, member, here⟩ := resolved.reached (by simp [Strategy.forLoad]) solver conditions
    within holds many
  have fits' := obtained.grows.fits
  have placed := resolved.sized.placed ((resolved.sized.meaning_eq ρ).trans here)
  have value := Expr.value_toNat ρ wf
  have same : l.place (address.expr.value ρ).value = l.place concrete := by
    rw [← placed, Layout.place, value]
  have shows_ := shows_shown fits' ρ
  have found_ : ∀ i < width.toNat / 8,
      (new.cell? (new.wrap ((address.expr.value ρ).value + UInt64.ofNat i))).isSome := by
    intro i less
    rw [wrap_add_eq fits' same]
    exact obtained.present concrete member i less
  have bytes_eq := bytesAt_eq fits' shows_ _ _ found_
  rw [same] at bytes_eq
  obtain ⟨y, y_eq, y_lt⟩ := ByteMemory.exists_decode_read l.littleEndian (new.shown l ρ)
    (l.place concrete) (width_eq ▸ obtained.wellFormed.2 : width ≤ 64)
  refine ⟨_, _, y, Exhaustive.eval_total wf ρ, bytes_eq, fits.littleEndian_eq ▸ y_eq, y_lt, fun z z_lt => ?_⟩
  rw [obtained.condition.eval_true_iff (Assignment.total_binds _ c), Assignment.valuation_total,
    obtained.holds_update (fun u occurs => unused u (List.mem_append_left _ occurs)) unmentioned shows_
      member placed z_lt, ← y_eq, UInt64.toNat_inj]

/-- Two bytes are loaded from the last address or the first one of a memory of 16 bytes. -/
theorem loadFrom_exact_wrapped :
    let s := Exhaustive.bound {} "x" 15 16
    let address : Value := ⟨some s.solver, [], .var none ⟨"x", 8⟩⟩
    let m : Memory := ⟨4, true, {}, { id := "mem" }⟩
    ∃ tag c new left,
      loadFrom address 16 (m, {}) = .ok (.var tag ⟨"mem_addr_0", 16⟩, [c]) (new, left) ∧
      ∀ ρ : Valuation, s.Within [⟨"x", 8⟩] ρ → ∃ y : UInt64, ∀ z : UInt64, z.toNat < 2 ^ 16 →
        (c.eval (.total (Function.update ρ "mem_addr_0" z)) = .ok (.ofBool true) ↔ z = y) := by
  intro s address m
  let l : Layout := ⟨4, true, .empty, by decide, by decide⟩
  have empty : ∀ place, m.cell? place = none := fun place => Std.TreeMap.getElem?_emptyc
  have fits : m.Fits l := ⟨rfl, rfl, rfl, fun place cell present => by
    rw [empty] at present
    cases present⟩
  have answer : (match loadFrom address 16 (m, {}) with
      | .ok (value, _) _ => some value.erase
      | .error _ _ => none) = some (.var none ⟨"mem_addr_0", 16⟩) := by cbv
  cases result : loadFrom address 16 (m, {}) with
  | error f left =>
      rw [result] at answer
      cases answer
  | ok loaded after =>
      obtain ⟨value, constraints⟩ := loaded
      obtain ⟨new, left⟩ := after
      rw [result] at answer
      obtain ⟨tag, rfl⟩ := Store.eq_var_of_erase (Option.some.inj answer)
      have unstored : ∀ v, m.Mentions v → v.name ≠ "mem_addr_0" := by
        rintro v ⟨place, cell, present, _⟩
        rw [empty] at present
        cases present
      obtain ⟨_, _, c, rfl, leaves⟩ := loadFrom_exact fits rfl (by decide) (by simp [address]) result
        (by decide) (by decide) unstored
      refine ⟨tag, c, new, left, rfl, fun ρ within => ?_⟩
      obtain ⟨_, _, y, _, _, _, _, only⟩ := leaves ρ within (by simp [address])
      exact ⟨y, only⟩

end Memory

end SymbolicMemory
