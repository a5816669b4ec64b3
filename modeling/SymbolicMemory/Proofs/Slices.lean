import SymbolicMemory.Expr.Build
import SymbolicMemory.Proofs.Meaning

/-! # Slices and concatenations keep their meaning

Cutting, joining, flipping and resizing simplify on the way and still stand for the bits
that were asked for. Cutting and joining call each other, so both are settled together
by induction on the number of nodes: what lies below a slice is never larger than the
expression that it was cut from.
-/

namespace SymbolicMemory

section Arithmetic

variable (x : Nat) (a b c : Nat)

private theorem slice_of_slice (fits : a + c ≤ b) :
    x % 2 ^ b / 2 ^ a % 2 ^ c = x / 2 ^ a % 2 ^ c := by
  obtain ⟨d, rfl⟩ := Nat.exists_eq_add_of_le fits
  rw [Nat.add_assoc, Nat.pow_add, Nat.mod_mul_right_div_self, Nat.pow_add,
    Nat.mod_mul_right_mod]

theorem join_slices :
    x / 2 ^ a % 2 ^ b * 2 ^ a + x % 2 ^ a = x % 2 ^ (b + a) := by
  rw [Nat.add_comm b a, Nat.pow_add, Nat.mod_mul, Nat.mul_comm (2 ^ a), Nat.add_comm]

variable {y : Nat} (hy : y < 2 ^ b)

include hy

private theorem slice_high (beyond : b ≤ a) :
    (x * 2 ^ b + y) / 2 ^ a = x / 2 ^ (a - b) := by
  obtain ⟨d, rfl⟩ := Nat.exists_eq_add_of_le beyond
  rw [Nat.add_sub_cancel_left, Nat.pow_add, ← Nat.div_div_eq_div_mul, Nat.mul_comm x,
    Nat.mul_add_div (Nat.two_pow_pos b), Nat.div_eq_of_lt hy, Nat.add_zero]

private theorem slice_low (fits : a + c ≤ b) :
    (x * 2 ^ b + y) / 2 ^ a % 2 ^ c = y / 2 ^ a % 2 ^ c := by
  rw [← slice_of_slice _ _ _ _ fits, Nat.mul_comm x, Nat.mul_add_mod, Nat.mod_eq_of_lt hy]

private theorem slice_across (start : a < b) (finish : b < a + c) :
    (x * 2 ^ b + y) / 2 ^ a % 2 ^ c =
      x / 2 ^ 0 % 2 ^ (a + c - b) * 2 ^ (b - a) + y / 2 ^ a % 2 ^ (b - a) := by
  obtain ⟨k, rfl⟩ : ∃ k, b = a + k := ⟨b - a, by omega⟩
  obtain ⟨m, rfl⟩ : ∃ m, c = m + k := ⟨c - k, by omega⟩
  have low : y / 2 ^ a < 2 ^ k := by
    rw [Nat.div_lt_iff_lt_mul (Nat.two_pow_pos a), Nat.mul_comm, ← Nat.pow_add]
    exact hy
  have cut : (x * 2 ^ (a + k) + y) / 2 ^ a = 2 ^ k * x + y / 2 ^ a := by
    rw [Nat.pow_add, Nat.mul_left_comm, Nat.mul_add_div (Nat.two_pow_pos a), Nat.mul_comm x]
  rw [cut, ← join_slices, Nat.mul_add_div (Nat.two_pow_pos k), Nat.div_eq_of_lt low, Nat.mul_add_mod]
  simp only [Nat.pow_zero, Nat.div_one, Nat.add_zero, Nat.add_sub_cancel_left,
    show a + (m + k) - (a + k) = m by omega]

end Arithmetic

namespace Expr

/-- Every slice within the expression can be taken and stands for its bits. -/
def Sliceable (e : Expr) : Prop :=
  ∀ offset width : UInt64, 0 < width → offset.toNat + width.toNat ≤ e.width.toNat →
    Builds (e.slice offset width) width e.occurrences
      (fun ρ => e.meaning ρ / 2 ^ offset.toNat % 2 ^ width.toNat)

theorem sourceNodes_of_slice {e r : Expr} {offset width : UInt64}
    (sliced : e.slice offset width = .ok r) : r.sourceNodes ≤ e.nodes := by
  unfold slice at sliced
  cases bounded : e.sliceBounded offset width with
  | error fault => simp [bounded, Except.map] at sliced
  | ok inner =>
      simp only [bounded, Except.map, Except.ok.injEq] at sliced
      exact sliced ▸ inner.property

theorem join_cases {msb lsb : Expr} (narrow : ¬ 64 < msb.width + lsb.width) :
    (∃ tag a tag' b, msb = const tag a ∧ lsb = const tag' b ∧
      join msb lsb = (a.concat b).map .word) ∨
    (∃ tag source offset width tag' offset' width', msb = extract tag source offset width ∧
      lsb = extract tag' source offset' width' ∧ offset' + width' = offset ∧
      join msb lsb = .ok (.slice source offset' (width + width'))) ∨
    join msb lsb = .ok .pair := by
  unfold join
  rw [if_neg narrow]
  split
  · exact .inl ⟨_, _, _, _, rfl, rfl, rfl⟩
  · next tag source offset width tag' source' offset' width' =>
    by_cases adjacent : source = source' ∧ offset' + width' = offset
    · obtain ⟨rfl, next⟩ := adjacent
      exact .inr (.inl ⟨_, _, _, _, _, _, _, rfl, rfl, next, by rw [if_pos ⟨rfl, next⟩]⟩)
    · exact .inr (.inr (if_neg adjacent))
  · exact .inr (.inr rfl)

/-- Joining is sound where every smaller source can be cut. -/
theorem append_builds_of {msb lsb : Expr} (high : msb.WellFormed) (low : lsb.WellFormed)
    (fits : msb.width.toNat + lsb.width.toNat ≤ 64)
    (sliceable : ∀ source : Expr, source.nodes = msb.sourceNodes → source.WellFormed →
      source.Sliceable) :
    Builds (msb.append lsb) (msb.width + lsb.width) (msb.occurrences ++ lsb.occurrences)
      (fun ρ => msb.meaning ρ * 2 ^ lsb.width.toNat + lsb.meaning ρ) := by
  have total := toNat_add_small fits
  have narrow : ¬ 64 < msb.width + lsb.width := by
    rw [UInt64.not_lt, UInt64.le_iff_toNat_le, total]
    exact fits
  obtain ⟨tag, a, tag', b, rfl, rfl, joined⟩ |
    ⟨tag, source, offset, width, tag', offset', width', rfl, rfl, next, joined⟩ | joined :=
      join_cases narrow
  · have word := Word.concat_eq high low fits
    rw [word] at joined
    simp only [append, joined, Except.map]
    have bound := mul_two_pow_add_lt high.2.2 low.2.2
    have pos := UInt64.lt_iff_toNat_lt.mp high.1
    simp only [Expr.width] at total narrow
    refine (denotes_number ?_ (UInt64.not_lt.mp narrow) (by rw [total]; exact bound) none _).builds
    rw [UInt64.lt_iff_toNat_lt, total]
    omega
  · simp only [append, joined]
    simp only [Expr.width] at total fits ⊢
    have le := UInt64.le_iff_toNat_le.mp (width_bounds high.1).2
    have first : offset.toNat = offset'.toNat + width'.toNat := by
      rw [← next]
      exact toNat_add_small (Nat.le_trans low.2.2 le)
    have pos : 0 < width + width' := by
      have := UInt64.lt_iff_toNat_lt.mp high.2.1
      rw [UInt64.lt_iff_toNat_lt, total]
      omega
    have inside : offset'.toNat + (width + width').toNat ≤ source.width.toNat := by
      have := high.2.2
      omega
    refine ((sliceable source rfl high.1 offset' _ pos inside).mono ?_).value_eq fun ρ => ?_
    · exact List.subset_append_left _ _
    · rw [meaning, meaning, first, Nat.pow_add, ← Nat.div_div_eq_div_mul, join_slices, total]
  · simp only [append, joined]
    exact (denotes_self (e := concat none msb lsb) ⟨high, low, fits⟩).builds

/-- A slice that takes bits from both halves of a concatenation. -/
theorem slice_across_builds {msb lsb : Expr} {offset width : UInt64} (high : msb.WellFormed)
    (low : lsb.WellFormed) (fits : msb.width.toNat + lsb.width.toNat ≤ 64)
    (start : offset.toNat < lsb.width.toNat)
    (finish : lsb.width.toNat < offset.toNat + width.toNat)
    (inside : offset.toNat + width.toNat ≤ msb.width.toNat + lsb.width.toNat)
    (sliceable : ∀ e : Expr, e.nodes ≤ msb.nodes + lsb.nodes → e.WellFormed → e.Sliceable) :
    Builds
      (do
        let high ← msb.slice 0 (offset + width - lsb.width)
        let low ← lsb.slice offset (lsb.width - offset)
        append high low)
      width (msb.occurrences ++ lsb.occurrences)
      (fun ρ => (msb.meaning ρ * 2 ^ lsb.width.toNat + lsb.meaning ρ) / 2 ^ offset.toNat %
        2 ^ width.toNat) := by
  have ends := toNat_add_small (Nat.le_trans inside fits)
  have upper : (offset + width - lsb.width).toNat = offset.toNat + width.toNat - lsb.width.toNat := by
    rw [UInt64.toNat_sub_of_le _ _ (UInt64.le_iff_toNat_le.mpr (by omega)), ends]
  have lower : (lsb.width - offset).toNat = lsb.width.toNat - offset.toNat :=
    UInt64.toNat_sub_of_le _ _ (UInt64.le_iff_toNat_le.mpr (by omega))
  obtain ⟨top, topSliced, topDenotes⟩ := sliceable msb (by omega) high 0 (offset + width - lsb.width)
    (UInt64.lt_iff_toNat_lt.mpr (by rw [upper]; simp; omega)) (by rw [upper]; simp; omega)
  obtain ⟨bottom, bottomSliced, bottomDenotes⟩ := sliceable lsb (by omega) low offset
    (lsb.width - offset) (UInt64.lt_iff_toNat_lt.mpr (by rw [lower]; simp; omega))
    (by rw [lower]; omega)
  have topNodes := sourceNodes_of_slice topSliced
  simp only [topSliced, bottomSliced, bind, Except.bind]
  have joined := append_builds_of topDenotes.wellFormed bottomDenotes.wellFormed
    (by rw [topDenotes.width_eq, bottomDenotes.width_eq, upper, lower]; omega)
    (fun source nodes wf => sliceable source (by omega) wf)
  have total : top.width + bottom.width = width := by
    rw [topDenotes.width_eq, bottomDenotes.width_eq, ← UInt64.toNat_inj,
      toNat_add_small (by rw [upper, lower]; omega), upper, lower]
    omega
  rw [total] at joined
  refine (joined.mono (List.append_subset.mpr ⟨?_, ?_⟩)).value_eq fun ρ => ?_
  · exact List.Subset.trans topDenotes.vars_subset (List.subset_append_left _ _)
  · exact List.Subset.trans bottomDenotes.vars_subset (List.subset_append_right _ _)
  · rw [topDenotes.meaning_eq, bottomDenotes.meaning_eq, bottomDenotes.width_eq, upper, lower,
      slice_across _ _ _ _ (meaning_lt ρ low) start finish]
    rfl

theorem sliceable_of_nodes (n : Nat) :
    ∀ e : Expr, e.nodes ≤ n → e.WellFormed → e.Sliceable := by
  induction n with
  | zero => intro e small; cases e <;> simp [nodes] at small
  | succ n ih =>
      intro e small wf offset width pos inside
      have le := UInt64.le_iff_toNat_le.mp (width_bounds wf).2
      have finish := toNat_add_small (Nat.le_trans inside le)
      have nonzero : width ≠ 0 := (UInt64.ne_of_lt pos).symm
      have within : ¬ e.width < offset + width := by
        rw [UInt64.not_lt, UInt64.le_iff_toNat_le, finish]
        exact inside
      rw [slice_eq, if_neg nonzero, if_neg within]
      split
      · next whole =>
        subst whole
        have zero : offset.toNat = 0 := by omega
        refine ((denotes_self wf).value_eq fun ρ => ?_).builds
        rw [zero, Nat.pow_zero, Nat.div_one, Nat.mod_eq_of_lt (meaning_lt ρ wf)]
      · next part =>
        cases e with
        | const tag w =>
            have width_le : width ≤ 64 := UInt64.le_iff_toNat_le.mpr (by simp at le ⊢; omega)
            simp only [Word.extract_eq w offset pos width_le, Except.map]
            exact (denotes_number pos width_le (Nat.mod_lt _ (Nat.two_pow_pos _)) none _).builds
        | extract tag source offset' width' =>
            simp only [nodes] at small
            simp only [Expr.width] at inside
            have outer := wf.2.2
            have source_le := UInt64.le_iff_toNat_le.mp (width_bounds wf.1).2
            have shifted : (offset' + offset).toNat = offset'.toNat + offset.toNat :=
              toNat_add_small (by simp at source_le; omega)
            refine (ih source (by omega) wf.1 (offset' + offset) width pos
              (by rw [shifted]; omega)).value_eq fun ρ => ?_
            rw [meaning, slice_of_slice _ _ _ _ inside, shifted, Nat.pow_add, Nat.div_div_eq_div_mul]
        | concat tag msb lsb =>
            simp only [nodes] at small
            rw [Expr.width, toNat_add_small wf.2.2] at inside
            have low := fun ρ => meaning_lt ρ wf.2.1
            simp only
            split
            · next beyond =>
              have apart := UInt64.toNat_sub_of_le _ _ beyond
              have ordered := UInt64.le_iff_toNat_le.mp beyond
              refine ((ih msb (by omega) wf.1 (offset - lsb.width) width pos
                (by rw [apart]; omega)).mono (List.subset_append_left _ _)).value_eq fun ρ => ?_
              rw [meaning, apart, slice_high _ _ _ (low ρ) ordered]
            split
            · next before =>
              have ordered := UInt64.le_iff_toNat_le.mp before
              rw [finish] at ordered
              refine ((ih lsb (by omega) wf.2.1 offset width pos ordered).mono
                (List.subset_append_right _ _)).value_eq fun ρ => ?_
              rw [meaning, slice_low _ _ _ _ (low ρ) ordered]
            · next notHigh notLow =>
              rw [UInt64.not_le, UInt64.lt_iff_toNat_lt] at notHigh notLow
              rw [finish] at notLow
              exact slice_across_builds wf.1 wf.2.1 wf.2.2 notHigh notLow inside
                fun e smaller => ih e (by omega)
        | var | not | zext | binary =>
            exact (denotes_self (e := extract none _ offset width) ⟨wf, pos, inside⟩).builds

theorem sliceable {e : Expr} (wf : e.WellFormed) : e.Sliceable :=
  sliceable_of_nodes e.nodes e (Nat.le_refl _) wf

theorem append_builds {msb lsb : Expr} (high : msb.WellFormed) (low : lsb.WellFormed)
    (fits : msb.width.toNat + lsb.width.toNat ≤ 64) :
    Builds (msb.append lsb) (msb.width + lsb.width) (msb.occurrences ++ lsb.occurrences)
      (fun ρ => msb.meaning ρ * 2 ^ lsb.width.toNat + lsb.meaning ρ) :=
  append_builds_of high low fits fun _ _ => sliceable

theorem complement_builds {e : Expr} (wf : e.WellFormed) :
    Builds e.complement e.width e.occurrences (fun ρ => 2 ^ e.width.toNat - 1 - e.meaning ρ) := by
  have flipped := denotes_self (e := not none e) wf
  cases e with
  | const tag w =>
      have pos := Nat.two_pow_pos w.width.toNat
      simp only [complement, Word.not_eq wf, Except.map]
      exact (denotes_number wf.1 wf.2.1 (by omega) none _).builds
  | not tag source =>
      have inner : source.WellFormed := wf
      refine ((denotes_self inner).value_eq fun ρ => ?_).builds
      have := meaning_lt ρ inner
      simp only [meaning, width]
      omega
  | var | concat | extract | zext | binary => exact flipped.builds

theorem resize_builds {e : Expr} (wf : e.WellFormed) {width : UInt64} (pos : 0 < width)
    (le : width ≤ 64) :
    Builds (e.resize width) width e.occurrences (fun ρ => e.meaning ρ % 2 ^ width.toNat) := by
  unfold resize
  split
  · next same =>
    subst same
    exact ((denotes_self wf).value_eq fun ρ => (Nat.mod_eq_of_lt (meaning_lt ρ wf)).symm).builds
  split
  · next narrower =>
    have inside := UInt64.le_iff_toNat_le.mp (UInt64.le_of_lt narrower)
    refine (sliceable wf 0 width pos (by simpa using inside)).value_eq fun ρ => ?_
    rw [UInt64.toNat_zero, Nat.pow_zero, Nat.div_one]
  · next different notNarrower =>
    have wider : e.width < width :=
      UInt64.lt_of_le_of_ne (UInt64.not_lt.mp notNarrower) (Ne.symm different)
    have fits : ∀ ρ, e.meaning ρ < 2 ^ width.toNat := fun ρ =>
      Nat.lt_of_lt_of_le (meaning_lt ρ wf)
        (Nat.pow_le_pow_right (by decide) (UInt64.le_iff_toNat_le.mp (UInt64.le_of_lt wider)))
    have extended : ∀ tag, (zext tag e width).Denotes width e.occurrences
        (fun ρ => e.meaning ρ % 2 ^ width.toNat) := fun tag =>
      (denotes_self (e := zext tag e width) ⟨wf, wider, le⟩).value_eq
        fun ρ => (Nat.mod_eq_of_lt (fits ρ)).symm
    cases e with
    | const tag w =>
        simp only [Word.resize_eq w pos le, Except.map]
        exact (denotes_number pos le (Nat.mod_lt _ (Nat.two_pow_pos _)) none _).builds
    | var | concat | extract | not | zext | binary => exact (extended none).builds

/-- Slices, concatenations, resized and flipped expressions are built without a fault, and they
    evaluate to the shifted, joined, cut or extended, and complemented values of their operands,
    whatever nodes the operands share. -/
theorem structural_operations_keep_meaning {e : Expr} (wf : e.WellFormed) :
    (∀ offset width : UInt64, 0 < width → offset.toNat + width.toNat ≤ e.width.toNat →
      Computes (e.slice offset width) width e (fun x => (x >>> offset.toNat) % 2 ^ width.toNat)) ∧
    (∀ lsb : Expr, lsb.WellFormed → e.width.toNat + lsb.width.toNat ≤ 64 →
      Computes₂ (e.append lsb) (e.width + lsb.width) e lsb
        (fun x y => x * 2 ^ lsb.width.toNat + y)) ∧
    (∀ width : UInt64, 1 ≤ width → width ≤ 64 →
      Computes (e.resize width) width e (fun x => x % 2 ^ width.toNat)) ∧
    Computes e.complement e.width e (fun x => (~~~BitVec.ofNat e.width.toNat x).toNat) := by
  refine ⟨?_, ?_, ?_, ?_⟩
  · intro offset width pos inside
    refine Builds.computes wf ((sliceable wf offset width pos inside).value_eq fun ρ => ?_)
    rw [Nat.shiftRight_eq_div_pow]
  · intro lsb low fits
    exact Builds.computes₂ wf low (append_builds wf low fits)
  · intro width pos le
    exact Builds.computes wf (resize_builds wf (UInt64.lt_of_lt_of_le (by decide) pos) le)
  · refine Builds.computes wf ((complement_builds wf).value_eq fun ρ => ?_)
    rw [BitVec.toNat_not, BitVec.toNat_ofNat, Nat.mod_eq_of_lt (meaning_lt ρ wf)]

/-- Two slices of one variable next to each other, cut again across their boundary. -/
theorem structural_operations_keep_meaning_shared :
    let w : Expr := var (some 0) ⟨"w", 32⟩
    let e : Expr := concat none (extract none w 20 8) (extract none w 12 8)
    e.WellFormed ∧ Computes (e.slice 4 8) 8 e (fun x => (x >>> 4) % 2 ^ 8) ∧
      Computes₂ (e.append (extract none w 4 8)) 24 e (extract none w 4 8) (fun x y => x * 2 ^ 8 + y) :=
  ⟨by decide, (structural_operations_keep_meaning (by decide)).1 4 8 (by decide) (by decide),
    (structural_operations_keep_meaning (by decide)).2.1 _ (by decide) (by decide)⟩

end Expr

end SymbolicMemory
