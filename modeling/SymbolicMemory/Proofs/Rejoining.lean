import SymbolicMemory.Proofs.Construction
import SymbolicMemory.Proofs.Twins

/-! # Parts of an expression and how they rejoin

The bits of an expression are cut out of its origin: of the source of a slice, or else of the
expression itself. Two parts that lie side by side make one part again, unless one of them is all
of the origin: that is no slice any more, and what is joined to it stays a pair.
-/

namespace SymbolicMemory

namespace Word

theorem extract_zero {w : Word} (masked : w.Masked) : w.extract 0 w.width = .ok w := by
  rw [extract_eq w 0 masked.1 masked.2.1, UInt64.toNat_zero, Nat.pow_zero, Nat.div_one,
    Nat.mod_eq_of_lt masked.2.2, ofNat_toNat]

theorem extract_ok {w w' : Word} {offset width : UInt64} (made : w.extract offset width = .ok w') :
    0 < width ∧ width ≤ 64 ∧ w' = ofNat (w.value.toNat / 2 ^ offset.toNat % 2 ^ width.toNat) width := by
  by_cases fits : 0 < width ∧ width ≤ 64
  · rw [extract_eq w offset fits.1 fits.2] at made
    cases made
    exact ⟨fits.1, fits.2, rfl⟩
  · rw [extract, make, if_neg fits] at made
    cases made

theorem concat_extract {w high low : Word} {offset width width' : UInt64}
    (fits : offset.toNat + width.toNat + width'.toNat ≤ 64)
    (upper : w.extract (offset + width) width' = .ok high) (lower : w.extract offset width = .ok low) :
    high.concat low = w.extract offset (width + width') := by
  obtain ⟨pos', le', rfl⟩ := extract_ok upper
  obtain ⟨pos, le, rfl⟩ := extract_ok lower
  have start := toNat_add_small (a := offset) (b := width) (by omega)
  have total := toNat_add_small (a := width) (b := width') (by omega)
  have highLt := Nat.mod_lt (w.value.toNat / 2 ^ (offset + width).toNat) (Nat.two_pow_pos width'.toNat)
  have lowLt := Nat.mod_lt (w.value.toNat / 2 ^ offset.toNat) (Nat.two_pow_pos width.toNat)
  have somePos : 0 < width + width' := by
    have := UInt64.lt_iff_toNat_lt.mp pos
    rw [UInt64.lt_iff_toNat_lt, total]
    exact Nat.add_pos_left this _
  have narrow : width + width' ≤ 64 := by
    rw [UInt64.le_iff_toNat_le, total]
    exact Nat.le_trans (by omega) (Nat.le_refl 64)
  have joined := concat_eq (ofNat_masked pos' le' highLt) (ofNat_masked pos le lowLt)
    (by simp only [width_ofNat]; omega)
  rw [value_ofNat (Nat.lt_of_lt_of_le highLt (two_pow_toNat_le le')),
    value_ofNat (Nat.lt_of_lt_of_le lowLt (two_pow_toNat_le le))] at joined
  simp only [width_ofNat] at joined
  rw [joined, extract_eq w offset somePos narrow, total, start, Nat.pow_add, ← Nat.div_div_eq_div_mul,
    join_slices, UInt64.add_comm, Nat.add_comm]

end Word

namespace Expr

/-- What the bits of an expression are cut out of, and from which bit on. -/
def origin : Expr → Expr × UInt64
  | extract _ source offset _ => (source, offset)
  | e => (e, 0)

/-- An expression for some bits of another one that no slice looks into, or of a constant. -/
inductive Part : Expr → UInt64 → UInt64 → Expr → Prop
  | word {tag tag' : Tag} {w w' : Word} {offset width : UInt64} : offset.toNat + width.toNat ≤ 64 →
      w.extract offset width = .ok w' → Part (const tag w) offset width (const tag' w')
  | whole {source : Expr} {offset : UInt64} : source.kind.isSealed = true → source.width ≠ 0 →
      offset + source.width ≤ source.width → Part source offset source.width source
  | slice {source : Expr} {tag : Tag} {offset width : UInt64} : source.kind.isSealed = true → width ≠ 0 →
      offset + width ≤ source.width → width ≠ source.width →
      Part source offset width (extract tag source offset width)

theorem slice_checked {e r : Expr} {offset width : UInt64} (cut : e.slice offset width = .ok r) :
    width ≠ 0 ∧ offset + width ≤ e.width ∧ (width = e.width → r = e) := by
  rw [slice_eq] at cut
  by_cases empty : width = 0
  · rw [if_pos empty] at cut
    cases cut
  by_cases beyond : e.width < offset + width
  · rw [if_neg empty, if_pos beyond] at cut
    cases cut
  refine ⟨empty, UInt64.not_lt.mp beyond, fun all => ?_⟩
  rw [if_neg empty, if_neg beyond, if_pos all] at cut
  cases cut
  rfl

section Slices

variable {source : Expr} {offset width : UInt64} (some_ : width ≠ 0) (inside : offset + width ≤ source.width)

include some_ inside

theorem slice_whole (all : width = source.width) : source.slice offset width = .ok source := by
  rw [slice_eq, if_neg some_, if_neg (UInt64.not_lt.mpr inside), if_pos all]

theorem slice_sealed (sealed_ : source.kind.isSealed = true) (part : width ≠ source.width) :
    source.slice offset width = .ok (extract none source offset width) := by
  rw [slice_eq, if_neg some_, if_neg (UInt64.not_lt.mpr inside), if_neg part]
  cases source with
  | const | concat | extract => cases sealed_
  | var | not | zext | binary => rfl

theorem slice_exists (sealed_ : source.kind.isSealed = true) : ∃ r, source.slice offset width = .ok r := by
  by_cases all : width = source.width
  · exact ⟨_, slice_whole some_ inside all⟩
  · exact ⟨_, slice_sealed some_ inside sealed_ all⟩

end Slices

theorem slice_const {tag : Tag} {w : Word} {offset width : UInt64} (some_ : width ≠ 0)
    (inside : offset + width ≤ (const tag w).width) (part : width ≠ (const tag w).width) :
    (const tag w).slice offset width = (w.extract offset width).map (const none) := by
  rw [slice_eq, if_neg some_, if_neg (UInt64.not_lt.mpr inside), if_neg part]

theorem slice_extract {tag : Tag} {source : Expr} {offset width offset' width' : UInt64} (some_ : width ≠ 0)
    (inside : offset + width ≤ (extract tag source offset' width').width)
    (part : width ≠ (extract tag source offset' width').width) :
    (extract tag source offset' width').slice offset width = source.slice (offset' + offset) width := by
  rw [slice_eq, if_neg some_, if_neg (UInt64.not_lt.mpr inside), if_neg part]

theorem append_words {a b : Word} (narrow : ¬ 64 < a.width + b.width) (tag tag' : Tag) :
    append (const tag a) (const tag' b) = (a.concat b).map (const none) := by
  have joined : join (const tag a) (const tag' b) = (a.concat b).map .word := if_neg narrow
  rw [append, joined]
  cases a.concat b <;> rfl

theorem append_slices {width width' : UInt64} (narrow : ¬ 64 < width' + width) (tag tag' : Tag) (source : Expr)
    (offset : UInt64) :
    append (extract tag' source (offset + width) width') (extract tag source offset width) =
      source.slice offset (width' + width) := by
  have joined : join (extract tag' source (offset + width) width') (extract tag source offset width) =
      .ok (.slice source offset (width' + width)) := (if_neg narrow).trans (if_pos ⟨rfl, rfl⟩)
  rw [append, joined]

/-- What is neither a constant nor a slice stays in a pair with anything. -/
theorem append_pair {msb lsb : Expr} (narrow : ¬ 64 < msb.width + lsb.width)
    (node : msb.kind ≠ .const ∧ msb.kind ≠ .extract ∨ lsb.kind ≠ .const ∧ lsb.kind ≠ .extract) :
    append msb lsb = .ok (concat none msb lsb) := by
  obtain ⟨_, _, _, _, rfl, rfl, _⟩ | ⟨_, _, _, _, _, _, _, rfl, rfl, _⟩ | joined := join_cases narrow
  · simp [kind] at node
  · simp [kind] at node
  · rw [append, joined]

/-- What can be cut out of a node that is not looked into, is a part of it. -/
theorem part_of_slice {source e : Expr} {offset width : UInt64} (sealed_ : source.kind.isSealed = true)
    (cut : source.slice offset width = .ok e) : Part source offset width e := by
  obtain ⟨some_, inside, whole⟩ := slice_checked cut
  by_cases all : width = source.width
  · rw [whole all]
    subst all
    exact .whole sealed_ some_ inside
  · rw [slice_sealed some_ inside sealed_ all] at cut
    cases cut
    exact .slice sealed_ some_ inside all

/-- A slice of an expression is the part of its origin that lies there. -/
theorem Proper.part {e r : Expr} (proper : e.Proper) (single : e.kind ≠ .concat) {offset width : UInt64}
    (inside : offset.toNat + width.toNat ≤ e.width.toNat) (cut : e.slice offset width = .ok r) :
    Part e.origin.1 (e.origin.2 + offset) width r := by
  obtain ⟨some_, checked, whole⟩ := slice_checked cut
  have start : width = e.width → offset = 0 := by
    rintro rfl
    exact UInt64.toNat_inj.mp (by simpa using inside)
  cases e with
  | concat => exact absurd rfl single
  | var | not | zext | binary =>
      simp only [origin, UInt64.zero_add]
      exact part_of_slice rfl cut
  | const tag w =>
      have narrow : offset.toNat + width.toNat ≤ 64 :=
        Nat.le_trans inside (UInt64.le_iff_toNat_le.mp proper.2.1)
      simp only [origin, UInt64.zero_add]
      by_cases all : width = w.width
      · rw [whole all]
        obtain rfl := start all
        subst all
        exact .word narrow (Word.extract_zero proper)
      · rw [slice_const some_ checked all] at cut
        cases made : w.extract offset width with
        | error fault =>
            rw [made] at cut
            cases cut
        | ok w' =>
            rw [made] at cut
            cases cut
            exact .word narrow made
  | extract tag source offset' width' =>
      obtain ⟨_, sealed_, some', within, apart⟩ := proper
      by_cases all : width = width'
      · rw [whole all]
        obtain rfl := start all
        subst all
        simp only [origin, UInt64.add_zero]
        exact .slice sealed_ some' within apart
      · rw [slice_extract some_ checked all] at cut
        exact part_of_slice sealed_ cut

namespace Part

variable {source e e' : Expr} {offset width : UInt64}

theorem width_eq (part : Part source offset width e) : e.width = width := by
  cases part with
  | word _ made =>
      obtain ⟨_, _, rfl⟩ := Word.extract_ok made
      rfl
  | whole => rfl
  | slice => rfl

theorem width_ne_zero (part : Part source offset width e) : width ≠ 0 := by
  cases part with
  | word _ made => exact UInt64.pos_iff_ne_zero.mp (Word.extract_ok made).1
  | whole _ some_ => exact some_
  | slice _ some_ => exact some_

theorem kind_ne_concat (part : Part source offset width e) : e.kind ≠ .concat := by
  cases part with
  | word => simp [kind]
  | slice => simp [kind]
  | whole sealed_ =>
      intro same
      rw [same] at sealed_
      cases sealed_

theorem stamp (part : Part source offset width e) (tagged : source.Tagged) (next : Nat) :
    Part source offset width (e.stamp next).1 := by
  cases part with
  | @word tag tag' w w' _ _ inside made => cases tag' <;> exact .word inside made
  | whole sealed_ some_ inside =>
      rw [tagged.stamp]
      exact .whole sealed_ some_ inside
  | @slice _ tag _ _ sealed_ some_ inside part =>
      cases tag with
      | none =>
          simp only [Expr.stamp, tagged.stamp]
          exact .slice sealed_ some_ inside part
      | some n => exact .slice sealed_ some_ inside part

/-- Two expressions for the same part differ in tags only. -/
theorem erase_eq (part : Part source offset width e) (part' : Part source offset width e') :
    e.erase = e'.erase := by
  cases part with
  | word _ made =>
      cases part' with
      | word _ made' =>
          cases made.symm.trans made'
          rfl
      | whole sealed_ | slice sealed_ => cases sealed_
  | whole sealed_ =>
      cases part' with
      | word => cases sealed_
      | whole => rfl
      | slice _ _ _ apart => exact absurd rfl apart
  | slice sealed_ _ _ apart =>
      cases part' with
      | word => cases sealed_
      | whole => exact absurd rfl apart
      | slice => rfl

/-- The part that takes in all of its source is the source. -/
theorem eq_source (part : Part source offset width e) (sealed_ : source.kind.isSealed = true)
    (all : width = source.width) : e = source := by
  cases part with
  | word => cases sealed_
  | whole => rfl
  | slice _ _ _ apart => exact absurd all apart

/-- Two parts side by side, neither of which is all of the source, are joined into one. -/
theorem append {high low : Expr} {width' : UInt64} (upper : Part source (offset + width) width' high)
    (lower : Part source offset width low) (fits : width.toNat + width'.toNat ≤ 64)
    (apart : source.kind.isSealed = true → width ≠ source.width ∧ width' ≠ source.width) :
    ∃ r, Expr.append high low = .ok r ∧ Part source offset (width + width') r := by
  have total := toNat_add_small fits
  have le : width + width' ≤ 64 := by
    rw [UInt64.le_iff_toNat_le, total]
    exact fits
  have some_ : width + width' ≠ 0 := by
    intro none_
    rw [none_, UInt64.toNat_zero] at total
    exact lower.width_ne_zero (UInt64.toNat_inj.mp (Nat.eq_zero_of_add_eq_zero_right total.symm))
  rw [UInt64.add_comm] at le some_ ⊢
  have narrow := UInt64.not_lt.mpr le
  cases upper with
  | @word _ _ w _ _ _ inside' made' =>
      cases lower with
      | word inside made =>
          have start := toNat_add_small inside
          have joined := Word.concat_extract (by omega) made' made
          rw [UInt64.add_comm] at joined total
          have here := Word.extract_eq w offset (UInt64.pos_iff_ne_zero.mpr some_) le
          refine ⟨const none _, ?_, .word (by omega) here⟩
          obtain ⟨_, _, rfl⟩ := Word.extract_ok made'
          obtain ⟨_, _, rfl⟩ := Word.extract_ok made
          rw [append_words narrow, joined, here]
          rfl
      | whole sealed_ | slice sealed_ => cases sealed_
  | whole sealed_ => exact absurd rfl (apart sealed_).2
  | slice sealed_ _ inside' =>
      cases lower with
      | word => cases sealed_
      | whole => exact absurd rfl (apart sealed_).1
      | slice =>
          rw [UInt64.add_assoc, UInt64.add_comm width] at inside'
          obtain ⟨r, cut⟩ := slice_exists some_ inside' sealed_
          exact ⟨r, (append_slices narrow _ _ _ _).trans cut, part_of_slice sealed_ cut⟩

theorem inside (part : Part source offset width e) (sealed_ : source.kind.isSealed = true) :
    width ≠ 0 ∧ offset + width ≤ source.width := by
  cases part with
  | word => cases sealed_
  | whole _ some_ inside => exact ⟨some_, inside⟩
  | slice _ some_ inside => exact ⟨some_, inside⟩

/-- Below a part, more bits can be cut out. -/
theorem extend {width' : UInt64} (upper : Part source (offset + width) width' e)
    (sealed_ : source.kind.isSealed = true) (some_ : width + width' ≠ 0) :
    ∃ r, Part source offset (width + width') r := by
  have within := (upper.inside sealed_).2
  rw [UInt64.add_assoc] at within
  obtain ⟨r, cut⟩ := slice_exists some_ within sealed_
  exact ⟨r, part_of_slice sealed_ cut⟩

/-- Where a part can be cut out of the origin, it can be cut out of the expression. -/
theorem exists_slice {value : Expr} (part : Part value.origin.1 (value.origin.2 + offset) width e)
    (proper : value.Proper) (checked : offset + width ≤ value.width) (some_ : width ≠ 0)
    (single : value.kind ≠ .concat) : ∃ r, value.slice offset width = .ok r := by
  by_cases all : width = value.width
  · exact ⟨_, slice_whole some_ checked all⟩
  cases value with
  | concat => exact absurd rfl single
  | var | not | zext | binary => exact slice_exists some_ checked rfl
  | const tag w =>
      simp only [origin, UInt64.zero_add] at part
      cases part with
      | @word _ _ _ w' _ _ _ made => exact ⟨const none w', by rw [slice_const some_ checked all, made]; rfl⟩
      | whole sealed_ | slice sealed_ => cases sealed_
  | extract tag source offset' width' =>
      obtain ⟨r, cut⟩ := slice_exists some_ (part.inside proper.2.1).2 proper.2.1
      exact ⟨r, (slice_extract some_ checked all).trans cut⟩

end Part

/-- Some bytes of an expression are joined again one by one: it is no slice of a source that fewer of
    them fill. -/
def Rejoins (value : Expr) (count : Nat) : Prop :=
  match value with
  | extract _ source _ _ => ∀ fewer, 0 < fewer → fewer < count → source.width.toNat ≠ 8 * fewer
  | _ => True

section Rejoins

variable {value : Expr} {count : Nat}

theorem rejoins_one (value : Expr) : value.Rejoins 1 := by
  cases value with
  | extract => exact fun fewer pos less => absurd less (Nat.not_lt.mpr pos)
  | const | var | concat | not | zext | binary => exact True.intro

theorem Rejoins.fewer (rejoins : value.Rejoins (count + 1)) : value.Rejoins count := by
  cases value with
  | extract => exact fun fewer pos less => rejoins fewer pos (Nat.lt_succ_of_lt less)
  | const | var | concat | not | zext | binary => exact True.intro

theorem WellFormed.rejoins (wf : value.WellFormed) (inside : 8 * count ≤ value.width.toNat) :
    value.Rejoins count := by
  cases value with
  | extract tag source offset width =>
      intro fewer _ less
      have within := wf.2.2
      simp only [Expr.width] at inside
      omega
  | const | var | concat | not | zext | binary => exact True.intro

/-- Fewer bytes than are joined do not fill the origin. -/
theorem Rejoins.ne_width (rejoins : value.Rejoins count) (inside : 8 * count ≤ value.width.toNat)
    (sealed_ : value.origin.1.kind.isSealed = true) {fewer : Nat} (pos : 0 < fewer) (less : fewer < count) :
    UInt64.ofNat (8 * fewer) ≠ value.origin.1.width := by
  intro same
  have bound := value.width.toNat_lt
  have number : value.origin.1.width.toNat = 8 * fewer := by
    rw [← same]
    exact UInt64.toNat_ofNat_of_lt' (by simp only [UInt64.size]; omega)
  cases value with
  | extract => exact rejoins fewer pos less number
  | const | concat => cases sealed_
  | var | not | zext | binary =>
      simp only [origin] at number
      omega

theorem Proper.sealed_of_not_rejoins (proper : value.Proper) (stuck : ¬ value.Rejoins count) :
    value.origin.1.kind.isSealed = true := by
  cases value with
  | extract => exact proper.2.1
  | const | var | concat | not | zext | binary => exact absurd True.intro stuck

theorem width_of_not_rejoins (stuck : ¬ value.Rejoins (count + 1)) (before : value.Rejoins count) :
    UInt64.ofNat (8 * count) = value.origin.1.width := by
  cases value with
  | extract tag source offset width =>
      by_contra apart
      apply stuck
      intro fewer pos less same
      rcases Nat.lt_succ_iff_lt_or_eq.mp less with less | rfl
      · exact before fewer pos less same
      · exact apart (same ▸ UInt64.ofNat_toNat)
  | const | var | concat | not | zext | binary => exact absurd True.intro stuck

end Rejoins

/-- What becomes of some bytes of an expression when they are joined: the part they make up, or else
    a pair. -/
structure Gathered (value : Expr) (offset : UInt64) (count : Nat) (e : Expr) : Prop where
  width_eq : e.width = .ofNat (8 * count)
  exists_part : ∃ part, Part value.origin.1 offset (.ofNat (8 * count)) part
  part : value.Rejoins count → Part value.origin.1 offset (.ofNat (8 * count)) e
  pair : ¬ value.Rejoins count → e.kind = .concat

namespace Gathered

variable {value e cell : Expr} {offset : UInt64} {count : Nat}

theorem of_part (rejoins : value.Rejoins count) (part : Part value.origin.1 offset (.ofNat (8 * count)) e) :
    Gathered value offset count e where
  width_eq := part.width_eq
  exists_part := ⟨e, part⟩
  part _ := part
  pair stuck := absurd rejoins stuck

theorem stamp (soFar : Gathered value offset count e) (tagged : value.origin.1.Tagged) (next : Nat) :
    Gathered value offset count (e.stamp next).1 where
  width_eq := by rw [← width_erase, erase_stamp, width_erase, soFar.width_eq]
  exists_part := soFar.exists_part
  part rejoins := (soFar.part rejoins).stamp tagged next
  pair stuck := by rw [← kind_erase, erase_stamp, kind_erase, soFar.pair stuck]

/-- Once the bytes fill the origin, or make a pair, nothing can be joined to them. -/
theorem node (soFar : Gathered value offset count e) (proper : value.Proper)
    (stuck : ¬ value.Rejoins (count + 1)) : e.kind ≠ .const ∧ e.kind ≠ .extract := by
  by_cases before : value.Rejoins count
  · have sealed_ := proper.sealed_of_not_rejoins stuck
    rw [(soFar.part before).eq_source sealed_ (width_of_not_rejoins stuck before)]
    constructor <;> intro same <;> rw [same] at sealed_ <;> cases sealed_
  · rw [soFar.pair before]
    simp

theorem ofNat_bytes (count : Nat) : UInt64.ofNat (8 * (count + 1)) = UInt64.ofNat (8 * count) + 8 :=
  UInt64.ofNat_add (8 * count) 8

section Steps

variable (proper : value.Proper) (pos : 0 < count) (inside : 8 * (count + 1) ≤ value.width.toNat)
  (narrow : value.width.toNat ≤ 64)

include pos inside in
theorem ne_width (rejoins : value.Rejoins (count + 1)) (sealed_ : value.origin.1.kind.isSealed = true) :
    8 ≠ value.origin.1.width ∧ UInt64.ofNat (8 * count) ≠ value.origin.1.width :=
  ⟨rejoins.ne_width inside sealed_ Nat.one_pos (by omega), rejoins.ne_width inside sealed_ pos (Nat.lt_succ_self _)⟩

include inside narrow

theorem toNat_bytes : (UInt64.ofNat (8 * count)).toNat + (8 : UInt64).toNat = 8 * (count + 1) := by
  rw [UInt64.toNat_ofNat_of_lt' (by simp only [UInt64.size]; omega)]
  rfl

theorem bytes_le : UInt64.ofNat (8 * (count + 1)) ≤ 64 ∧ UInt64.ofNat (8 * (count + 1)) ≠ 0 := by
  have number := toNat_bytes inside narrow
  have total := toNat_add_small (by omega : (UInt64.ofNat (8 * count)).toNat + (8 : UInt64).toNat ≤ 64)
  rw [ofNat_bytes]
  constructor
  · rw [UInt64.le_iff_toNat_le, total, number]
    exact Nat.le_trans inside narrow
  · intro none_
    rw [none_, UInt64.toNat_zero] at total
    omega

/-- Two expressions that do not rejoin stay a pair. -/
theorem of_pair {msb lsb : Expr} (stuck : ¬ value.Rejoins (count + 1))
    (node : msb.kind ≠ .const ∧ msb.kind ≠ .extract ∨ lsb.kind ≠ .const ∧ lsb.kind ≠ .extract)
    (width : msb.width + lsb.width = .ofNat (8 * (count + 1)))
    (more : ∃ part, Part value.origin.1 offset (.ofNat (8 * (count + 1))) part) :
    ∃ r, append msb lsb = .ok r ∧ Gathered value offset (count + 1) r := by
  have le : ¬ 64 < msb.width + lsb.width := by
    rw [UInt64.not_lt, width]
    exact (bytes_le inside narrow).1
  exact ⟨concat none msb lsb, append_pair le node, width, more, fun rejoins => absurd rejoins stuck, fun _ => rfl⟩

include proper pos

/-- One more byte below those that are joined. -/
theorem append_low (soFar : Gathered value (offset + 8) count e) (byte : Part value.origin.1 offset 8 cell) :
    ∃ r, append e cell = .ok r ∧ Gathered value offset (count + 1) r := by
  have number := toNat_bytes inside narrow
  have some_ := (bytes_le inside narrow).2
  have total : 8 + UInt64.ofNat (8 * count) = .ofNat (8 * (count + 1)) := by
    rw [UInt64.add_comm, ofNat_bytes]
  by_cases rejoins : value.Rejoins (count + 1)
  · obtain ⟨r, joined, part⟩ :=
      (soFar.part rejoins.fewer).append byte (by omega) (ne_width pos inside rejoins)
    exact ⟨r, joined, .of_part rejoins (total ▸ part)⟩
  · obtain ⟨_, upper⟩ := soFar.exists_part
    have more := upper.extend (proper.sealed_of_not_rejoins rejoins) (total.symm ▸ some_)
    refine of_pair inside narrow rejoins (.inl (soFar.node proper rejoins)) ?_ (total ▸ more)
    rw [soFar.width_eq, byte.width_eq, ofNat_bytes]

/-- One more byte above those that are joined. -/
theorem append_high (soFar : Gathered value offset count e)
    (byte : Part value.origin.1 (offset + .ofNat (8 * count)) 8 cell) :
    ∃ r, append cell e = .ok r ∧ Gathered value offset (count + 1) r := by
  have number := toNat_bytes inside narrow
  have some_ := (bytes_le inside narrow).2
  rw [ofNat_bytes] at some_
  by_cases rejoins : value.Rejoins (count + 1)
  · obtain ⟨r, joined, part⟩ :=
      byte.append (soFar.part rejoins.fewer) (by omega) fun sealed_ => (ne_width pos inside rejoins sealed_).symm
    rw [← ofNat_bytes] at part
    exact ⟨r, joined, .of_part rejoins part⟩
  · have more := byte.extend (proper.sealed_of_not_rejoins rejoins) some_
    rw [← ofNat_bytes] at more
    refine of_pair inside narrow rejoins (.inr (soFar.node proper rejoins)) ?_ more
    rw [soFar.width_eq, byte.width_eq, UInt64.add_comm, ofNat_bytes]

end Steps

/-- The slice that some bytes come from has their shape exactly if they rejoin. -/
theorem exists_slice (soFar : Gathered value (value.origin.2 + offset) count e) (proper : value.Proper)
    (single : value.kind ≠ .concat) (inside : offset.toNat + 8 * count ≤ value.width.toNat) :
    ∃ r, value.slice offset (.ofNat (8 * count)) = .ok r ∧ (e.erase = r.erase ↔ value.Rejoins count) := by
  have bound := value.width.toNat_lt
  have number : (UInt64.ofNat (8 * count)).toNat = 8 * count :=
    UInt64.toNat_ofNat_of_lt' (by simp only [UInt64.size]; omega)
  have checked : offset + .ofNat (8 * count) ≤ value.width := by
    rw [UInt64.le_iff_toNat_le, UInt64.toNat_add, number, Nat.mod_eq_of_lt (by omega)]
    exact inside
  obtain ⟨_, there⟩ := soFar.exists_part
  obtain ⟨r, cut⟩ := there.exists_slice proper checked there.width_ne_zero single
  have part := proper.part single (number.symm ▸ inside) cut
  refine ⟨r, cut, ?_, fun rejoins => (soFar.part rejoins).erase_eq part⟩
  intro same
  by_contra stuck
  apply part.kind_ne_concat
  rw [← kind_erase, ← same, kind_erase, soFar.pair stuck]

/-- All the bytes of a node that is not looked into make the node itself. -/
theorem eq_value (soFar : Gathered value value.origin.2 count e) (sealed_ : value.kind.isSealed = true)
    (all : UInt64.ofNat (8 * count) = value.width) : e = value := by
  cases value with
  | const | concat | extract => cases sealed_
  | var | not | zext | binary => exact (soFar.part True.intro).eq_source rfl all

end Gathered

end Expr

end SymbolicMemory
