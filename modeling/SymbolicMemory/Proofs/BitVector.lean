import Mathlib.Algebra.Group.Nat.Defs
import SymbolicMemory.Word

/-! # Operators as bit-vector operations

The standard meaning of the operators on bit vectors, and the agreement of word
arithmetic with it. Machine words are wider than the words that they carry, so every
operation is first brought to a remainder modulo a power of two. On masked words
folding an operator never fails and gives exactly the word of its meaning.
-/

namespace SymbolicMemory

namespace Op

/-- The bit vector that an arithmetic operator makes of two others. -/
def arithmetic (op : Op) {n : Nat} (x y : BitVec n) : BitVec n :=
  match op with
  | add => x + y
  | sub => x - y
  | mul => x * y
  | udiv => x.smtUDiv y
  | urem => x % y
  | and => x &&& y
  | or => x ||| y
  | xor => x ^^^ y
  | shl => x <<< y
  | lshr => x >>> y
  | _ => 0

/-- The answer of a comparison of two bit vectors. -/
def comparison (op : Op) {n : Nat} (x y : BitVec n) : Bool :=
  match op with
  | eq => x == y
  | ne => x != y
  | ult => x.ult y
  | ule => x.ule y
  | ugt => y.ult x
  | uge => y.ule x
  | _ => false

/-- The number that an operator makes of two numbers of `n` bits. -/
def meaning (op : Op) (n x y : Nat) : Nat :=
  if op.isCompare then (op.comparison (BitVec.ofNat n x) (BitVec.ofNat n y)).toNat
  else (op.arithmetic (BitVec.ofNat n x) (BitVec.ofNat n y)).toNat

/-- The width of a result for operands of a given width. -/
def resultWidth (op : Op) (width : UInt64) : UInt64 := if op.isCompare then 1 else width

/-- Operators that have a meaning. -/
def Known (op : Op) : Prop := op.isArithmetic ∨ op.isCompare

instance (op : Op) : Decidable op.Known := inferInstanceAs (Decidable (_ ∨ _))

section Meaning

variable {n x y : Nat}

theorem meaning_add : add.meaning n x y = (x + y) % 2 ^ n := by
  change (BitVec.ofNat n x + BitVec.ofNat n y).toNat = _
  simp

theorem meaning_sub (hy : y < 2 ^ n) : sub.meaning n x y = (2 ^ n - y + x) % 2 ^ n := by
  change (BitVec.ofNat n x - BitVec.ofNat n y).toNat = _
  simp [Nat.mod_eq_of_lt hy]

theorem meaning_mul : mul.meaning n x y = x * y % 2 ^ n := by
  change (BitVec.ofNat n x * BitVec.ofNat n y).toNat = _
  simp

variable (hx : x < 2 ^ n) (hy : y < 2 ^ n)
include hx hy

theorem meaning_udiv : udiv.meaning n x y = if y = 0 then 2 ^ n - 1 else x / y := by
  change ((BitVec.ofNat n x).smtUDiv (BitVec.ofNat n y)).toNat = _
  have zero : BitVec.ofNat n y = 0 ↔ y = 0 := by
    simp [← BitVec.toNat_inj, Nat.mod_eq_of_lt hy]
  by_cases h : y = 0
  · simp [BitVec.smtUDiv_eq, h]
  · have nonzero : ¬ BitVec.ofNat n y = 0#n := fun same => h (zero.mp same)
    simp [BitVec.smtUDiv_eq, h, nonzero, Nat.mod_eq_of_lt hx, Nat.mod_eq_of_lt hy]

theorem meaning_urem : urem.meaning n x y = x % y := by
  change (BitVec.ofNat n x % BitVec.ofNat n y).toNat = _
  simp [Nat.mod_eq_of_lt hx, Nat.mod_eq_of_lt hy]

theorem meaning_and : and.meaning n x y = x &&& y := by
  change (BitVec.ofNat n x &&& BitVec.ofNat n y).toNat = _
  simp [Nat.mod_eq_of_lt hx, Nat.mod_eq_of_lt hy]

theorem meaning_or : or.meaning n x y = x ||| y := by
  change (BitVec.ofNat n x ||| BitVec.ofNat n y).toNat = _
  simp [Nat.mod_eq_of_lt hx, Nat.mod_eq_of_lt hy]

theorem meaning_xor : xor.meaning n x y = x ^^^ y := by
  change (BitVec.ofNat n x ^^^ BitVec.ofNat n y).toNat = _
  simp [Nat.mod_eq_of_lt hx, Nat.mod_eq_of_lt hy]

theorem meaning_shl : shl.meaning n x y = x * 2 ^ y % 2 ^ n := by
  change (BitVec.ofNat n x <<< BitVec.ofNat n y).toNat = _
  simp [Nat.mod_eq_of_lt hx, Nat.mod_eq_of_lt hy, Nat.shiftLeft_eq]

theorem meaning_lshr : lshr.meaning n x y = x / 2 ^ y := by
  change (BitVec.ofNat n x >>> BitVec.ofNat n y).toNat = _
  simp [Nat.mod_eq_of_lt hx, Nat.mod_eq_of_lt hy, Nat.shiftRight_eq_div_pow]

theorem meaning_eq : eq.meaning n x y = (decide (x = y)).toNat := by
  change (BitVec.ofNat n x == BitVec.ofNat n y).toNat = _
  simp [← BitVec.toNat_inj, Nat.mod_eq_of_lt hx, Nat.mod_eq_of_lt hy, BEq.beq]

theorem meaning_ne : ne.meaning n x y = (decide (x ≠ y)).toNat := by
  change (BitVec.ofNat n x != BitVec.ofNat n y).toNat = _
  simp [← BitVec.toNat_inj, Nat.mod_eq_of_lt hx, Nat.mod_eq_of_lt hy, BEq.beq, bne]

theorem meaning_ult : ult.meaning n x y = (decide (x < y)).toNat := by
  change ((BitVec.ofNat n x).ult (BitVec.ofNat n y)).toNat = _
  simp [BitVec.ult, Nat.mod_eq_of_lt hx, Nat.mod_eq_of_lt hy]

theorem meaning_ule : ule.meaning n x y = (decide (x ≤ y)).toNat := by
  change ((BitVec.ofNat n x).ule (BitVec.ofNat n y)).toNat = _
  simp [BitVec.ule, Nat.mod_eq_of_lt hx, Nat.mod_eq_of_lt hy]

end Meaning

theorem meaning_ugt (n x y : Nat) : ugt.meaning n x y = ult.meaning n y x := rfl

theorem meaning_uge (n x y : Nat) : uge.meaning n x y = ule.meaning n y x := rfl

theorem meaning_lt (op : Op) (width : UInt64) (x y : Nat) :
    op.meaning width.toNat x y < 2 ^ (op.resultWidth width).toNat := by
  unfold meaning resultWidth
  split
  · exact Bool.toNat_lt _
  · exact BitVec.isLt _

end Op

theorem mask_toNat {width : UInt64} (h : width ≤ 64) : (mask width).toNat = 2 ^ width.toNat - 1 := by
  have hn : width.toNat ≤ 64 := UInt64.le_iff_toNat_le.mp h
  unfold mask
  split
  · next full =>
    have whole : width.toNat = 64 := Nat.le_antisymm hn (UInt64.le_iff_toNat_le.mp full)
    rw [whole]
    rfl
  · next short =>
    have lt : width.toNat < 64 := by
      have := UInt64.lt_iff_toNat_lt.mp (UInt64.not_le.mp short)
      simpa using this
    have fits : 2 ^ width.toNat < 2 ^ 64 := Nat.pow_lt_pow_right (by decide) lt
    have shifted : ((1 : UInt64) <<< width).toNat = 2 ^ width.toNat := by
      rw [UInt64.toNat_shiftLeft, Nat.mod_eq_of_lt lt, Nat.shiftLeft_eq, UInt64.toNat_one,
        Nat.one_mul, Nat.mod_eq_of_lt fits]
    have one_le : (1 : UInt64) ≤ 1 <<< width := by
      rw [UInt64.le_iff_toNat_le, shifted]
      exact Nat.one_le_two_pow
    rw [UInt64.toNat_sub_of_le _ _ one_le, shifted, UInt64.toNat_one]

theorem toNat_and_mask (value : UInt64) {width : UInt64} (h : width ≤ 64) :
    (value &&& mask width).toNat = value.toNat % 2 ^ width.toNat := by
  rw [UInt64.toNat_and, mask_toNat h, Nat.and_two_pow_sub_one_eq_mod]

theorem toNat_add_small {a b : UInt64} (small : a.toNat + b.toNat ≤ 64) :
    (a + b).toNat = a.toNat + b.toNat := by
  rw [UInt64.toNat_add, Nat.mod_eq_of_lt (by omega)]

theorem add_ofNat_zero (x : UInt64) : x + .ofNat 0 = x := UInt64.add_zero x

theorem add_one_add_ofNat (x : UInt64) (i : Nat) : x + 1 + .ofNat i = x + .ofNat (i + 1) := by
  rw [UInt64.add_assoc, UInt64.add_comm 1, UInt64.ofNat_add]
  rfl

theorem two_pow_toNat_le {width : UInt64} (h : width ≤ 64) : 2 ^ width.toNat ≤ 2 ^ 64 :=
  Nat.pow_le_pow_right (by decide) (UInt64.le_iff_toNat_le.mp h)

theorem mod_mod_two_pow (x : Nat) {width : UInt64} (h : width ≤ 64) :
    x % 2 ^ 64 % 2 ^ width.toNat = x % 2 ^ width.toNat :=
  Nat.mod_mod_of_dvd x (Nat.pow_dvd_pow 2 (UInt64.le_iff_toNat_le.mp h))

theorem mul_two_pow_add_lt {x y m n : Nat} (hx : x < 2 ^ m) (hy : y < 2 ^ n) :
    x * 2 ^ n + y < 2 ^ (m + n) := by
  rw [Nat.pow_add]
  calc
    x * 2 ^ n + y < x * 2 ^ n + 2 ^ n := by omega
    _ = (x + 1) * 2 ^ n := by rw [Nat.add_mul, Nat.one_mul]
    _ ≤ 2 ^ m * 2 ^ n := Nat.mul_le_mul_right _ hx

namespace Word

/-- The word of a number, which has to fit a machine word. -/
def ofNat (value : Nat) (width : UInt64) : Word := ⟨UInt64.ofNat value, width⟩

/-- The width is 1 to 64, and no bit is set beyond it. -/
def Masked (w : Word) : Prop := 0 < w.width ∧ w.width ≤ 64 ∧ w.value.toNat < 2 ^ w.width.toNat

instance (w : Word) : Decidable w.Masked := inferInstanceAs (Decidable (_ ∧ _ ∧ _))

theorem ofNat_toNat (w : Word) : ofNat w.value.toNat w.width = w := by
  simp [ofNat]

theorem eq_ofNat {value width : UInt64} {n : Nat} (h : value.toNat = n) :
    (⟨value, width⟩ : Word) = ofNat n width := by
  rw [← h]
  exact (ofNat_toNat ⟨value, width⟩).symm

@[simp] theorem width_ofNat (n : Nat) (width : UInt64) : (ofNat n width).width = width := rfl

theorem value_ofNat {n : Nat} (h : n < 2 ^ 64) (width : UInt64) :
    (ofNat n width).value.toNat = n :=
  UInt64.toNat_ofNat_of_lt' h

theorem ofNat_masked {n : Nat} {width : UInt64} (pos : 0 < width) (le : width ≤ 64)
    (h : n < 2 ^ width.toNat) : (ofNat n width).Masked := by
  refine ⟨pos, le, ?_⟩
  rw [value_ofNat (Nat.lt_of_lt_of_le h (two_pow_toNat_le le))]
  exact h

theorem make_eq {value width : UInt64} (pos : 0 < width) (le : width ≤ 64) :
    make value width = .ok (ofNat (value.toNat % 2 ^ width.toNat) width) := by
  rw [make, if_pos ⟨pos, le⟩, eq_ofNat (toNat_and_mask value le)]

theorem ofBool_eq (b : Bool) : ofBool b = ofNat b.toNat 1 := by
  cases b <;> rfl

/-- The word that an operator makes of two others. -/
def result (op : Op) (a b : Word) : Word :=
  ofNat (op.meaning a.width.toNat a.value.toNat b.value.toNat) (op.resultWidth a.width)

theorem resultWidth_bounds {op : Op} {width : UInt64} (pos : 0 < width) (le : width ≤ 64) :
    0 < op.resultWidth width ∧ op.resultWidth width ≤ 64 := by
  unfold Op.resultWidth
  split
  · decide
  · exact ⟨pos, le⟩

theorem result_masked (op : Op) {a : Word} (b : Word) (ha : a.Masked) : (result op a b).Masked :=
  have bounds := resultWidth_bounds ha.1 ha.2.1
  ofNat_masked bounds.1 bounds.2 (op.meaning_lt _ _ _)

theorem value_result (op : Op) {a : Word} (b : Word) (ha : a.Masked) :
    (result op a b).value.toNat = op.meaning a.width.toNat a.value.toNat b.value.toNat :=
  have bounds := resultWidth_bounds ha.1 ha.2.1
  value_ofNat (Nat.lt_of_lt_of_le (op.meaning_lt _ _ _) (two_pow_toNat_le bounds.2)) _

theorem sub_add_mod {width : UInt64} (le : width ≤ 64) {x : Nat} (h : x ≤ 2 ^ width.toNat)
    (y : Nat) : (2 ^ 64 - x + y) % 2 ^ width.toNat = (2 ^ width.toNat - x + y) % 2 ^ width.toNat := by
  obtain ⟨q, hq⟩ := Nat.pow_dvd_pow 2 (UInt64.le_iff_toNat_le.mp le)
  have pos : 0 < q := Nat.pos_of_ne_zero (by rintro rfl; simp at hq)
  obtain ⟨k, rfl⟩ : ∃ k, q = k + 1 := ⟨q - 1, by omega⟩
  have split : 2 ^ 64 - x + y = (2 ^ width.toNat - x + y) + 2 ^ width.toNat * k := by
    have : 2 ^ 64 = 2 ^ width.toNat * k + 2 ^ width.toNat := hq
    omega
  rw [split, Nat.add_mul_mod_self_left]

section Operations

variable {a b : Word} (ha : a.Masked) (hb : b.Masked) (same : a.width = b.width)

include ha

theorem add_eq : a.add b = .ok (result .add a b) := by
  rw [add, make_eq ha.1 ha.2.1, UInt64.toNat_add, mod_mod_two_pow _ ha.2.1, result, Op.meaning_add]
  rfl

theorem mul_eq : a.mul b = .ok (result .mul a b) := by
  rw [mul, make_eq ha.1 ha.2.1, UInt64.toNat_mul, mod_mod_two_pow _ ha.2.1, result, Op.meaning_mul]
  rfl

theorem not_eq : a.not = .ok (ofNat (2 ^ a.width.toNat - 1 - a.value.toNat) a.width) := by
  have hx := ha.2.2
  have flipped : (~~~a.value).toNat = 2 ^ 64 - (a.value.toNat + 1) + 0 := by
    rw [UInt64.toNat_not]
    simp only [UInt64.size]
    omega
  rw [not, make_eq ha.1 ha.2.1, flipped, sub_add_mod ha.2.1 (by omega),
    Nat.mod_eq_of_lt (by omega)]
  congr 2
  omega

include hb same

theorem sub_eq : a.sub b = .ok (result .sub a b) := by
  have hy : b.value.toNat < 2 ^ a.width.toNat := same ▸ hb.2.2
  rw [sub, make_eq ha.1 ha.2.1, UInt64.toNat_sub, mod_mod_two_pow _ ha.2.1,
    sub_add_mod ha.2.1 (by omega), result, Op.meaning_sub hy]
  rfl

theorem udiv_eq : a.udiv b = .ok (result .udiv a b) := by
  have hx := ha.2.2
  have hy : b.value.toNat < 2 ^ a.width.toNat := same ▸ hb.2.2
  rw [udiv, result, Op.meaning_udiv hx hy]
  by_cases zero : b.value = 0
  · rw [if_pos zero, make_eq ha.1 ha.2.1, mask_toNat ha.2.1, if_pos (by simp [zero]),
      Nat.mod_eq_of_lt (by omega)]
    rfl
  · have nonzero : b.value.toNat ≠ 0 := by simpa [← UInt64.toNat_inj] using zero
    rw [if_neg zero, make_eq ha.1 ha.2.1, UInt64.toNat_div, if_neg nonzero,
      Nat.mod_eq_of_lt (Nat.lt_of_le_of_lt (Nat.div_le_self _ _) hx)]
    rfl

theorem urem_eq : a.urem b = .ok (result .urem a b) := by
  have hx := ha.2.2
  have hy : b.value.toNat < 2 ^ a.width.toNat := same ▸ hb.2.2
  rw [urem, result, Op.meaning_urem hx hy]
  by_cases zero : b.value = 0
  · rw [if_pos zero, zero, UInt64.toNat_zero, Nat.mod_zero]
    exact congrArg Except.ok (ofNat_toNat a).symm
  · rw [if_neg zero, make_eq ha.1 ha.2.1, UInt64.toNat_mod,
      Nat.mod_eq_of_lt (Nat.lt_of_le_of_lt (Nat.mod_le _ _) hx)]
    rfl

theorem and_eq : a.and b = .ok (result .and a b) := by
  have hx := ha.2.2
  have hy : b.value.toNat < 2 ^ a.width.toNat := same ▸ hb.2.2
  rw [and, make_eq ha.1 ha.2.1, UInt64.toNat_and, Nat.mod_eq_of_lt (Nat.and_lt_two_pow _ hy), result,
    Op.meaning_and hx hy]
  rfl

theorem or_eq : a.or b = .ok (result .or a b) := by
  have hx := ha.2.2
  have hy : b.value.toNat < 2 ^ a.width.toNat := same ▸ hb.2.2
  rw [or, make_eq ha.1 ha.2.1, UInt64.toNat_or, Nat.mod_eq_of_lt (Nat.or_lt_two_pow hx hy), result,
    Op.meaning_or hx hy]
  rfl

theorem xor_eq : a.xor b = .ok (result .xor a b) := by
  have hx := ha.2.2
  have hy : b.value.toNat < 2 ^ a.width.toNat := same ▸ hb.2.2
  rw [xor, make_eq ha.1 ha.2.1, UInt64.toNat_xor, Nat.mod_eq_of_lt (Nat.xor_lt_two_pow hx hy), result,
    Op.meaning_xor hx hy]
  rfl

theorem shl_eq : a.shl b = .ok (result .shl a b) := by
  have hx := ha.2.2
  have hy : b.value.toNat < 2 ^ a.width.toNat := same ▸ hb.2.2
  have wide : a.width.toNat ≤ 64 := UInt64.le_iff_toNat_le.mp ha.2.1
  rw [shl, result, Op.meaning_shl hx hy]
  by_cases out : a.width ≤ b.value
  · have all : 2 ^ a.width.toNat ∣ a.value.toNat * 2 ^ b.value.toNat :=
      Nat.dvd_trans (Nat.pow_dvd_pow 2 (UInt64.le_iff_toNat_le.mp out)) (Nat.dvd_mul_left _ _)
    rw [if_pos out, make_eq ha.1 ha.2.1, Nat.mod_eq_zero_of_dvd all]
    rfl
  · have inside : b.value.toNat < a.width.toNat :=
      UInt64.lt_iff_toNat_lt.mp (UInt64.not_le.mp out)
    have small : b.value < 64 := UInt64.lt_iff_toNat_lt.mpr (Nat.lt_of_lt_of_le inside wide)
    rw [if_neg out, make_eq ha.1 ha.2.1, shiftUp, if_pos small, UInt64.toNat_shiftLeft,
      Nat.mod_eq_of_lt (by omega : b.value.toNat < 64), mod_mod_two_pow _ ha.2.1, Nat.shiftLeft_eq]
    rfl

theorem lshr_eq : a.lshr b = .ok (result .lshr a b) := by
  have hx := ha.2.2
  have hy : b.value.toNat < 2 ^ a.width.toNat := same ▸ hb.2.2
  have wide : a.width.toNat ≤ 64 := UInt64.le_iff_toNat_le.mp ha.2.1
  rw [lshr, result, Op.meaning_lshr hx hy]
  by_cases out : a.width ≤ b.value
  · have gone : a.value.toNat < 2 ^ b.value.toNat :=
      Nat.lt_of_lt_of_le hx (Nat.pow_le_pow_right (by decide) (UInt64.le_iff_toNat_le.mp out))
    rw [if_pos out, make_eq ha.1 ha.2.1, Nat.div_eq_of_lt gone]
    rfl
  · have inside : b.value.toNat < a.width.toNat :=
      UInt64.lt_iff_toNat_lt.mp (UInt64.not_le.mp out)
    have small : b.value < 64 := UInt64.lt_iff_toNat_lt.mpr (Nat.lt_of_lt_of_le inside wide)
    rw [if_neg out, make_eq ha.1 ha.2.1, shiftDown, if_pos small, UInt64.toNat_shiftRight,
      Nat.mod_eq_of_lt (by omega : b.value.toNat < 64), Nat.shiftRight_eq_div_pow,
      Nat.mod_eq_of_lt (Nat.lt_of_le_of_lt (Nat.div_le_self _ _) hx)]
    rfl

theorem eq_eq : a.eq b = .ok (result .eq a b) := by
  have hy : b.value.toNat < 2 ^ a.width.toNat := same ▸ hb.2.2
  rw [eq, if_pos same, ofBool_eq, result, Op.meaning_eq ha.2.2 hy]
  simp [Op.resultWidth, Op.isCompare, BEq.beq, UInt64.toNat_inj]

theorem ult_eq : a.ult b = result .ult a b := by
  have hy : b.value.toNat < 2 ^ a.width.toNat := same ▸ hb.2.2
  rw [ult, ofBool_eq, result, Op.meaning_ult ha.2.2 hy]
  simp [Op.resultWidth, Op.isCompare, UInt64.lt_iff_toNat_lt]

theorem ule_eq : a.ule b = result .ule a b := by
  have hy : b.value.toNat < 2 ^ a.width.toNat := same ▸ hb.2.2
  rw [ule, ofBool_eq, result, Op.meaning_ule ha.2.2 hy]
  simp [Op.resultWidth, Op.isCompare, UInt64.le_iff_toNat_le]

end Operations

/-- On one bit, sum, difference and exclusive or are the same, and so are product and
    conjunction. -/
theorem meaning_one_bit {x y : Nat} (hx : x < 2 ^ 1) (hy : y < 2 ^ 1) :
    Op.add.meaning 1 x y = Op.xor.meaning 1 x y ∧ Op.sub.meaning 1 x y = Op.xor.meaning 1 x y ∧
      Op.mul.meaning 1 x y = Op.and.meaning 1 x y := by
  have hx' : x = 0 ∨ x = 1 := by omega
  have hy' : y = 0 ∨ y = 1 := by omega
  rcases hx' with rfl | rfl <;> rcases hy' with rfl | rfl <;> decide

theorem result_eq {op : Op} {a b w : Word}
    (value : op.meaning a.width.toNat a.value.toNat b.value.toNat = w.value.toNat)
    (width : op.resultWidth a.width = w.width) : result op a b = w := by
  rw [result, value, width, ofNat_toNat]

theorem one_bit {w : Word} (masked : w.Masked) (one : w.width = 1) : w.value.toNat < 2 ^ 1 := by
  have := masked.2.2
  rwa [one] at this

/-- Folding an operator gives the word of its meaning, whether that is an operand or new. -/
theorem fold_eq {op : Op} {a b : Word} (known : op.Known) (ha : a.Masked) (hb : b.Masked)
    (same : a.width = b.width) :
    (fold op a b).map (Folded.resolve a b) = .ok (result op a b) := by
  have hx := ha.2.2
  have hy : b.value.toNat < 2 ^ a.width.toNat := same ▸ hb.2.2
  cases op with
  | add =>
      simp only [fold]
      split
      · next zero =>
        have neutral : result .add a b = b := by
          refine result_eq ?_ same
          rw [Op.meaning_add, zero, UInt64.toNat_zero, Nat.zero_add, Nat.mod_eq_of_lt hy]
        rw [neutral]
        rfl
      split
      · next one =>
        have bit := meaning_one_bit (one_bit ha one) (one_bit hb (same ▸ one))
        have alike : result .xor a b = result .add a b := by
          simp only [result, one, Op.resultWidth, Op.isCompare]
          exact congrArg (ofNat · _) bit.1.symm
        simp only [xor_eq ha hb same, Except.map, Folded.resolve, alike]
      · simp only [add_eq ha, Except.map, Folded.resolve]
  | sub =>
      simp only [fold]
      split
      · next equal =>
        subst equal
        have none : result .sub a a = ofNat 0 a.width := by
          rw [result, Op.meaning_sub hx, Nat.sub_add_cancel (Nat.le_of_lt hx), Nat.mod_self]
          rfl
        simp only [make_eq ha.1 ha.2.1, UInt64.toNat_zero, Nat.zero_mod, Except.map, Folded.resolve,
          none]
      · simp only [sub_eq ha hb same, Except.map, Folded.resolve]
  | mul =>
      simp only [fold]
      split
      · next one =>
        have bit := meaning_one_bit (one_bit ha one) (one_bit hb (same ▸ one))
        have alike : result .and a b = result .mul a b := by
          simp only [result, one, Op.resultWidth, Op.isCompare]
          exact congrArg (ofNat · _) bit.2.2.symm
        simp only [and_eq ha hb same, Except.map, Folded.resolve, alike]
      split
      · next unit =>
        have neutral : result .mul a b = b := by
          refine result_eq ?_ same
          rw [Op.meaning_mul, unit, UInt64.toNat_one, Nat.one_mul, Nat.mod_eq_of_lt hy]
        rw [neutral]
        rfl
      split
      · next zero =>
        have absorbed : result .mul a b = a := by
          refine result_eq ?_ rfl
          rw [Op.meaning_mul, zero, UInt64.toNat_zero, Nat.zero_mul, Nat.zero_mod]
        rw [absorbed]
        rfl
      · simp only [mul_eq ha, Except.map, Folded.resolve]
  | udiv => simp only [fold, udiv_eq ha hb same, Except.map, Folded.resolve]
  | urem =>
      simp only [fold]
      split
      · next zero =>
        have neutral : result .urem a b = a := by
          refine result_eq ?_ rfl
          rw [Op.meaning_urem hx hy, zero, UInt64.toNat_zero, Nat.mod_zero]
        rw [neutral]
        rfl
      · simp only [urem_eq ha hb same, Except.map, Folded.resolve]
  | and => simp only [fold, and_eq ha hb same, Except.map, Folded.resolve]
  | or => simp only [fold, or_eq ha hb same, Except.map, Folded.resolve]
  | xor =>
      simp only [fold]
      split
      · next zero =>
        have neutral : result .xor a b = b := by
          refine result_eq ?_ same
          rw [Op.meaning_xor hx hy, zero, UInt64.toNat_zero, Nat.zero_xor]
        rw [neutral]
        rfl
      · simp only [xor_eq ha hb same, Except.map, Folded.resolve]
  | shl => simp only [fold, shl_eq ha hb same, Except.map, Folded.resolve]
  | lshr => simp only [fold, lshr_eq ha hb same, Except.map, Folded.resolve]
  | eq => simp only [fold, eq_eq ha hb same, Except.map, Folded.resolve]
  | ne =>
      have negated : ofBool (result .eq a b).isFalse = result .ne a b := by
        rw [result, result, Op.meaning_eq hx hy, Op.meaning_ne hx hy]
        by_cases h : a.value.toNat = b.value.toNat <;>
          simp [h, Op.resultWidth, Op.isCompare] <;> rfl
      simp only [fold, eq_eq ha hb same, Except.map, Folded.resolve, negated]
  | ult => simp only [fold, ult_eq ha hb same, Except.map, Folded.resolve]
  | ule => simp only [fold, ule_eq ha hb same, Except.map, Folded.resolve]
  | ugt =>
      have swapped : result .ult b a = result .ugt a b := by
        simp only [result, Op.meaning_ugt, same]
        rfl
      simp only [fold, ult_eq hb ha same.symm, Except.map, Folded.resolve, swapped]
  | uge =>
      have swapped : result .ule b a = result .uge a b := by
        simp only [result, Op.meaning_uge, same]
        rfl
      simp only [fold, ule_eq hb ha same.symm, Except.map, Folded.resolve, swapped]
  | unassigned code free => simp [Op.Known, Op.isArithmetic, Op.isCompare] at known

theorem binary_eq {op : Op} {a b : Word} (known : op.Known) (ha : a.Masked) (hb : b.Masked)
    (same : a.width = b.width) : binary op a b = .ok (result op a b) := by
  rw [binary, if_pos same, fold_eq known ha hb same]

theorem resize_eq (a : Word) {width : UInt64} (pos : 0 < width) (le : width ≤ 64) :
    a.resize width = .ok (ofNat (a.value.toNat % 2 ^ width.toNat) width) :=
  make_eq pos le

theorem extract_eq (a : Word) (offset : UInt64) {width : UInt64} (pos : 0 < width)
    (le : width ≤ 64) :
    a.extract offset width =
      .ok (ofNat (a.value.toNat / 2 ^ offset.toNat % 2 ^ width.toNat) width) := by
  rw [extract, make_eq pos le, shiftDown]
  split
  · next small =>
    have inside : offset.toNat < 64 := UInt64.lt_iff_toNat_lt.mp small
    rw [UInt64.toNat_shiftRight, Nat.mod_eq_of_lt inside, Nat.shiftRight_eq_div_pow]
  · next large =>
    have beyond : 64 ≤ offset.toNat := UInt64.le_iff_toNat_le.mp (UInt64.not_lt.mp large)
    have gone : a.value.toNat < 2 ^ offset.toNat :=
      Nat.lt_of_lt_of_le a.value.toNat_lt (Nat.pow_le_pow_right (by decide) beyond)
    rw [Nat.div_eq_of_lt gone, UInt64.toNat_zero]

theorem concat_eq {a b : Word} (ha : a.Masked) (hb : b.Masked)
    (fits : a.width.toNat + b.width.toNat ≤ 64) :
    a.concat b =
      .ok (ofNat (a.value.toNat * 2 ^ b.width.toNat + b.value.toNat) (a.width + b.width)) := by
  have apos : 0 < a.width.toNat := UInt64.lt_iff_toNat_lt.mp ha.1
  have total := toNat_add_small fits
  have small : b.width < 64 := UInt64.lt_iff_toNat_lt.mpr (by simp; omega)
  have pos : 0 < a.width + b.width := UInt64.lt_iff_toNat_lt.mpr (by rw [total]; simp; omega)
  have le : a.width + b.width ≤ 64 := UInt64.le_iff_toNat_le.mpr (by rw [total]; simpa using fits)
  have bound := mul_two_pow_add_lt ha.2.2 hb.2.2
  have high : a.value.toNat * 2 ^ b.width.toNat < 2 ^ 64 := by
    have := Nat.pow_le_pow_right (n := 2) (by decide) fits
    omega
  have joined : (shiftUp a.value b.width ||| b.value).toNat =
      a.value.toNat * 2 ^ b.width.toNat + b.value.toNat := by
    have inside : b.width.toNat < 64 := UInt64.lt_iff_toNat_lt.mp small
    rw [shiftUp, if_pos small, UInt64.toNat_or, UInt64.toNat_shiftLeft, Nat.mod_eq_of_lt inside,
      Nat.shiftLeft_eq, Nat.mod_eq_of_lt high, ← Nat.shiftLeft_eq,
      ← Nat.shiftLeft_add_eq_or_of_lt hb.2.2]
  rw [concat, make_eq pos le, joined, total, Nat.mod_eq_of_lt bound]

end Word

end SymbolicMemory
