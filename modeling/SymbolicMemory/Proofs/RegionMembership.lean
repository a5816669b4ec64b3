import SymbolicMemory.Proofs.Concretization

/-! # What the condition of a region says

The condition that an address lies in a region compares the address to the ends of the region,
cut to the width of the address. Which addresses meet it is therefore settled by the cut ends, and
that they are the ones in the region needs regions that lie within the address space, or happen to
be cut well. The strategies that go by regions find addresses that meet such conditions, whatever
solver they ask, as long as it is right.
-/

namespace SymbolicMemory

theorem Word.ofBool_inj {b b' : Bool} (same : ofBool b = ofBool b') : b = b' := by
  revert same
  cases b <;> cases b' <;> decide

namespace Region

/-- The ends of the region, cut to some width, tell its addresses of that width from all others: it
    lies among them, or starts there and covers them to the last, or lies beyond them and is cut to
    nothing. -/
def Faithful (r : Region) (width : UInt64) : Prop :=
  r.last.toNat < 2 ^ width.toNat ∨
    (r.first.toNat < 2 ^ width.toNat ∧ r.last.toNat % 2 ^ width.toNat = 2 ^ width.toNat - 1) ∨
    (2 ^ width.toNat ≤ r.first.toNat ∧
      r.last.toNat % 2 ^ width.toNat < r.first.toNat % 2 ^ width.toNat)

instance (r : Region) (width : UInt64) : Decidable (r.Faithful width) :=
  inferInstanceAs (Decidable (_ ∨ _))

section Cut

variable {r : Region} {width : UInt64} (le : width ≤ 64)

include le

theorem Faithful.cut_contains (forward : r.first ≤ r.last) (faithful : r.Faithful width) {x : UInt64}
    (small : x.toNat < 2 ^ width.toNat) : (r.cut width).contains x = r.contains x := by
  have ordered := UInt64.le_iff_toNat_le.mp forward
  rw [Bool.eq_iff_iff, cut_contains_iff r le, contains_iff]
  rcases faithful with inside | ⟨starts, covers⟩ | ⟨past, nothing⟩
  · rw [Nat.mod_eq_of_lt inside, Nat.mod_eq_of_lt (Nat.lt_of_le_of_lt ordered inside)]
  · have := Nat.mod_le r.last.toNat (2 ^ width.toNat)
    rw [Nat.mod_eq_of_lt starts]
    omega
  · omega

/-- Two addresses show whether a region is cut well: the last one of the width, and the cut start. -/
theorem faithful_of_cut_contains (forward : r.first ≤ r.last)
    (same : ∀ x : UInt64, x.toNat < 2 ^ width.toNat → (r.cut width).contains x = r.contains x) :
    r.Faithful width := by
  have ordered := UInt64.le_iff_toNat_le.mp forward
  have machine := two_pow_toNat_le le
  have pos := Nat.two_pow_pos width.toNat
  have same : ∀ n < 2 ^ width.toNat, (r.first.toNat % 2 ^ width.toNat ≤ n ∧ n ≤ r.last.toNat % 2 ^ width.toNat ↔
      r.first.toNat ≤ n ∧ n ≤ r.last.toNat) := by
    intro n small
    have value : (UInt64.ofNat n).toNat = n := by
      rw [UInt64.toNat_ofNat', Nat.mod_eq_of_lt (Nat.lt_of_lt_of_le small machine)]
    have agree := same (.ofNat n) (value.symm ▸ small)
    rwa [Bool.eq_iff_iff, cut_contains_iff r le, contains_iff, value] at agree
  have firstCut := Nat.mod_lt r.first.toNat pos
  have lastCut := Nat.mod_lt r.last.toNat pos
  by_cases inside : r.last.toNat < 2 ^ width.toNat
  · exact .inl inside
  by_cases starts : r.first.toNat < 2 ^ width.toNat
  · have full := same (2 ^ width.toNat - 1) (by omega)
    exact .inr (.inl ⟨starts, by omega⟩)
  · have start := same (r.first.toNat % 2 ^ width.toNat) firstCut
    exact .inr (.inr ⟨by omega, by omega⟩)

end Cut

/-- Evaluated, the condition says whether the value of the address lies between the cut ends. -/
theorem condition_eval (r : Region) {e : Expr} (wf : e.WellFormed) {a : Assignment} (binds : a.Binds e) :
    ∃ c x, r.condition e = .ok c ∧ e.eval a = .ok x ∧ x.value.toNat < 2 ^ e.width.toNat ∧
      c.eval a = .ok (.ofBool ((r.cut e.width).contains x.value)) := by
  obtain ⟨c, built, states⟩ := r.condition_when wf
  have value := Expr.value_toNat a.valuation wf
  have inCut := r.cut_contains_iff (Expr.width_bounds wf).2 (e.value a.valuation).value
  refine ⟨c, e.value a.valuation, built, Expr.eval_eq wf binds, ?_, ?_⟩
  · rw [value]
    exact Expr.meaning_lt _ wf
  · rw [value, ← states.holds_iff] at inCut
    rw [Expr.eval_eq states.condition.wellFormed fun v occurs => binds v (states.vars_subset occurs), Expr.value,
      states.condition.one_bit]
    rcases states.condition.meaning_cases a.valuation with bit | bit
    · have out : (r.cut e.width).contains (e.value a.valuation).value = false := by
        rw [← Bool.not_eq_true, inCut, bit]
        decide
      rw [bit, out]
      rfl
    · rw [bit, inCut.mpr bit]
      rfl

end Region

namespace Concretizer

section Found

variable {v : Value} {solver : Solver} {known : List Var} {admissible : Valuation → Prop}
  (posed : v.Posed solver known admissible) (symbolic : v.isSymbolic = true)

include posed symbolic

theorem anyUnder_found {condition : Expr} {q : Nat → Prop}
    (states : condition.States v.expr.occurrences fun ρ => q (v.expr.meaning ρ)) :
    Ensures (anyUnder v condition) (fun found => ∀ x ∈ found, v.Can admissible x ∧ q x.toNat) (fun _ => True) := by
  unfold anyUnder
  split
  · exact .pure (List.forall_mem_nil _)
  · have single : Ensures (do pure [← (v.under [condition]).any] : Run (List UInt64))
        (fun found => ∀ x ∈ found, v.Can admissible x ∧ q x.toNat) (fun _ => True) := by
      refine ((Value.any_right (posed.states states) symbolic).mono (fun _ h => h) fun _ _ => trivial).bind ?_
      intro x can
      exact .pure (List.forall_mem_singleton.mpr ((Value.under_can (q := q) states x).mp can))
    refine single.tryCatch fun f _ => ?_
    split
    · split
      · exact .pure (List.forall_mem_nil _)
      · exact .throw trivial
    · exact .throw trivial

theorem anyIn_found (regions : List Region) :
    Ensures (anyIn v regions) (fun found => ∀ x ∈ found, v.Can admissible x ∧
      ∃ r ∈ regions, (r.cut v.expr.width).contains x = true) (fun _ => True) := by
  induction regions with
  | nil => exact .pure (List.forall_mem_nil _)
  | cons r rest ih =>
      rw [anyIn]
      refine ((Session.check_when (r.condition_when posed.wellFormed)).mono (fun _ h => h) fun _ _ => trivial).bind ?_
      intro condition states
      refine (anyUnder_found posed symbolic (q := fun n => r.first.toNat % 2 ^ v.expr.width.toNat ≤ n ∧
        n ≤ r.last.toNat % 2 ^ v.expr.width.toNat) states).bind fun found right => ?_
      split
      · refine ih.mono (fun found right x member => ?_) fun _ h => h
        obtain ⟨can, r', listed, holds⟩ := right x member
        exact ⟨can, r', List.mem_cons_of_mem r listed, holds⟩
      · refine .pure fun x member => ?_
        obtain ⟨can, holds⟩ := right x member
        have inCut := r.cut_contains_iff (Expr.width_bounds posed.wellFormed).2 x
        exact ⟨can, r, List.mem_cons_self, inCut.mpr holds⟩

theorem anyFree_found (c : Concretizer) :
    Ensures (c.anyFree v) (fun found => ∀ x ∈ found, v.Can admissible x ∧
      ∀ r ∈ c.regions.regions, (r.cut v.expr.width).contains x = false) (fun _ => True) := by
  unfold anyFree
  split
  · exact .pure (List.forall_mem_nil _)
  · have all := Region.free_when posed.wellFormed c.regions.regions
    refine ((Session.check_when all).mono (fun _ h => h) fun _ _ => trivial).bind fun condition states => ?_
    refine (anyUnder_found posed symbolic (q := fun n => ∀ r ∈ c.regions.regions,
      ¬ (r.first.toNat % 2 ^ v.expr.width.toNat ≤ n ∧ n ≤ r.last.toNat % 2 ^ v.expr.width.toNat))
      states).mono (fun found right x member => ?_) fun _ h => h
    obtain ⟨can, outside⟩ := right x member
    refine ⟨can, fun r listed => ?_⟩
    rw [← Bool.not_eq_true, r.cut_contains_iff (Expr.width_bounds posed.wellFormed).2]
    exact outside r listed

end Found

end Concretizer

/-- The permission that a strategy asks of the region of an address. -/
def Strategy.perm? : Strategy → Option Perm
  | writeable => some .write
  | executable => some .execute
  | free | symbolic | any | unknown _ => none

namespace Concretizer

/-- What a strategy finds lies, or does not lie, where the strategy says, as the cut ends tell. -/
theorem choose_found {v : Value} {solver : Solver} {known : List Var} {admissible : Valuation → Prop}
    (posed : v.Posed solver known admissible) (symbolic : v.isSymbolic = true) (c : Concretizer)
    (strategy : Strategy) :
    Ensures (c.choose v strategy) (fun found => ∀ x ∈ found,
      (∀ perm ∈ strategy.perm?, v.Can admissible x ∧ ∃ r ∈ c.regions.regions, r.perm.includes perm = true ∧
        (r.cut v.expr.width).contains x = true) ∧
      (strategy = .free → v.Can admissible x ∧ ∀ r ∈ c.regions.regions, (r.cut v.expr.width).contains x = false))
      (fun _ => True) := by
  have inPerm : ∀ perm, Ensures (anyIn v (c.regions.withPerm perm)) (fun found => ∀ x ∈ found, v.Can admissible x ∧
      ∃ r ∈ c.regions.regions, r.perm.includes perm = true ∧ (r.cut v.expr.width).contains x = true)
      (fun _ => True) := by
    intro perm
    refine (anyIn_found posed symbolic _).mono (fun found right x member => ?_) fun _ h => h
    obtain ⟨can, r, listed, holds⟩ := right x member
    obtain ⟨inTable, includes⟩ := List.mem_filter.mp listed
    exact ⟨can, r, inTable, includes, holds⟩
  cases strategy with
  | free =>
      refine (anyFree_found posed symbolic c).mono (fun found right x member => ?_) fun _ h => h
      simpa [Strategy.perm?] using right x member
  | writeable =>
      refine (inPerm .write).mono (fun found right x member => ?_) fun _ h => h
      simpa [Strategy.perm?] using right x member
  | executable =>
      refine (inPerm .execute).mono (fun found right x member => ?_) fun _ h => h
      simpa [Strategy.perm?] using right x member
  | symbolic | any | unknown =>
      refine (Ensures.trivial _).mono (fun found _ x _ => ?_) fun _ h => h
      simp [Strategy.perm?]

end Concretizer

namespace Region

/-- Where a condition is membership for a variable of some width, whatever its value, the region is
    cut well. -/
theorem faithful_of_condition {r : Region} {e : Expr} {tag : Tag} {v : Var} (alone : e = .var tag v)
    (wf : e.WellFormed) (forward : r.first ≤ r.last)
    (means : ∀ a : Assignment, a.Binds e →
      ∃ c x, r.condition e = .ok c ∧ e.eval a = .ok x ∧ c.eval a = .ok (.ofBool (r.contains x.value))) :
    r.Faithful e.width := by
  refine faithful_of_cut_contains (Expr.width_bounds wf).2 forward fun x small => ?_
  have binds := Assignment.total_binds (fun _ => x) e
  obtain ⟨c, y, built, value, holds⟩ := means _ binds
  obtain ⟨c', y', built', value', _, holds'⟩ := r.condition_eval wf binds
  cases built.symm.trans built'
  cases value.symm.trans value'
  have same : y.value = x := by
    cases value.symm.trans (Expr.eval_eq wf binds)
    rw [← UInt64.toNat_inj, Expr.value_toNat _ wf]
    subst alone
    exact Nat.mod_eq_of_lt small
  have agree := Except.ok.inj (holds'.symm.trans holds)
  rw [same] at agree
  exact Word.ofBool_inj agree

/-- The condition of a region, evaluated, tells whether the value of an address lies between the ends
    of the region cut to the width of the address. That this is membership in the region, for every
    address of some width, comes down to a comparison of the ends. Addresses found for a permission lie
    between the cut ends of a region that has it, free ones between those of none, and so in the region
    or outside of it where the region is cut well. -/
theorem condition_is_membership_iff {width : UInt64} (pos : 0 < width) (le : width ≤ 64) :
    (∀ r : Region, r.first ≤ r.last →
      (∀ e : Expr, e.WellFormed → e.width = width → ∀ a : Assignment, a.Binds e →
        ∃ c x, r.condition e = .ok c ∧ e.eval a = .ok x ∧
          c.eval a = .ok (.ofBool ((r.cut width).contains x.value))) ∧
      ((∀ e : Expr, e.WellFormed → e.width = width → ∀ a : Assignment, a.Binds e →
        ∃ c x, r.condition e = .ok c ∧ e.eval a = .ok x ∧ c.eval a = .ok (.ofBool (r.contains x.value))) ↔
      r.Faithful width)) ∧
    ∀ regions table, RegionTable.ofList regions = .ok table →
      ∀ (v : Value) (solver : Solver) (known : List Var) (admissible : Valuation → Prop),
        v.Posed solver known admissible → v.isSymbolic = true → v.expr.width = width →
      ∀ (c : Concretizer), c.regions = table → ∀ strategy session found left,
        c.choose v strategy session = .ok found left → ∀ x ∈ found,
        (∀ perm ∈ strategy.perm?, ∃ r ∈ table.regions, r.perm.includes perm = true ∧
          (r.cut width).contains x = true ∧ (r.Faithful width → r.contains x = true)) ∧
        (strategy = .free → ∀ r ∈ table.regions,
          (r.cut width).contains x = false ∧ (r.Faithful width → r.contains x = false)) := by
  refine ⟨fun r forward => ⟨?_, fun means => ?_, fun faithful => ?_⟩, ?_⟩
  · rintro e wf rfl a binds
    obtain ⟨c, x, built, value, _, holds⟩ := r.condition_eval wf binds
    exact ⟨c, x, built, value, holds⟩
  · have wf : (Expr.var none ⟨"address", width⟩).WellFormed := ⟨pos, le⟩
    exact faithful_of_condition rfl wf forward (means _ wf rfl)
  · rintro e wf rfl a binds
    obtain ⟨c, x, built, value, small, holds⟩ := r.condition_eval wf binds
    exact ⟨c, x, built, value, faithful.cut_contains le forward small ▸ holds⟩
  · rintro regions table made v solver known admissible posed symbolic rfl c rfl strategy session found left done
    intro x member
    obtain ⟨forward, _⟩ := RegionTable.ofList_ok made
    have right := Concretizer.choose_found posed symbolic c strategy session
    rw [done] at right
    obtain ⟨inPerm, free⟩ := right x member
    constructor
    · intro perm asked
      obtain ⟨can, r, listed, includes, holds⟩ := inPerm perm asked
      refine ⟨r, listed, includes, holds, fun faithful => ?_⟩
      rw [← faithful.cut_contains le (forward r listed) (can.lt posed.wellFormed)]
      exact holds
    · intro isFree r listed
      obtain ⟨can, outside⟩ := free isFree
      refine ⟨outside r listed, fun faithful => ?_⟩
      rw [← faithful.cut_contains le (forward r listed) (can.lt posed.wellFormed)]
      exact outside r listed

/-- A region that starts among the addresses of a byte and covers them to the last is cut well, though
    it ends far beyond them. -/
theorem condition_is_membership_iff_covering :
    let x : Expr := .var none ⟨"x", 8⟩
    let s := Exhaustive.bound {} "x" 3 17
    let v : Value := ⟨some s.solver, [], x⟩
    let r : Region := ⟨16, 0xffff, .write⟩
    let c : Concretizer := { regions := ⟨[r]⟩ }
    r.Faithful 8 ∧ (∀ a : Assignment, a.Binds x → ∃ c y, r.condition x = .ok c ∧ x.eval a = .ok y ∧
        c.eval a = .ok (.ofBool (r.contains y.value))) ∧
      (∃ left, c.choose v .writeable {} = .ok [16] left) ∧ r.contains 16 = true ∧
      (∃ left, c.choose v .free {} = .ok [3] left) ∧ r.contains 3 = false := by
  intro x s v r c
  have faithful : r.Faithful 8 := by decide
  have asks : Concretizer.Asks s v :=
    ⟨⟨rfl, rfl, by decide, by simp [v]⟩, by simp [Vars.OneWidth, v, x, Expr.occurrences]⟩
  have table : RegionTable.ofList [r] = .ok c.regions := by cbv
  obtain ⟨left, chosen⟩ := ok_of_returned? (show returned? (c.choose v .writeable {}) = some [16] by cbv)
  obtain ⟨left', chosen'⟩ := ok_of_returned? (show returned? (c.choose v .free {}) = some [3] by cbv)
  obtain ⟨membership, strategies⟩ := @condition_is_membership_iff 8 (by decide) (by decide)
  have found := strategies [r] c.regions table v s.solver _ _ asks.posed rfl rfl c rfl
  refine ⟨faithful, (membership r (by decide)).2.mpr faithful x (by decide) rfl, ⟨left, chosen⟩, ?_,
    ⟨left', chosen'⟩, ?_⟩
  · obtain ⟨r', listed, _, _, inside⟩ :=
      (found .writeable {} [16] left chosen 16 (List.mem_singleton.mpr rfl)).1 .write rfl
    cases List.mem_singleton.mp listed
    exact inside faithful
  · have outside := (found .free {} [3] left' chosen' 3 (List.mem_singleton.mpr rfl)).2 rfl
    exact (outside r (List.mem_singleton.mpr rfl)).2 faithful

/-- An address of a byte meets the condition of a region above all of them, and is chosen for a
    permission that no region has where it lies. -/
theorem not_condition_is_membership :
    ¬ (∀ r : Region, r.first ≤ r.last → ∀ e : Expr, e.WellFormed → ∀ a : Assignment, a.Binds e →
      ∃ c x, r.condition e = .ok c ∧ e.eval a = .ok x ∧ c.eval a = .ok (.ofBool (r.contains x.value))) ∧
    ¬ ∀ regions table, RegionTable.ofList regions = .ok table →
      ∀ (v : Value) (solver : Solver) (known : List Var) (admissible : Valuation → Prop),
        v.Posed solver known admissible → v.isSymbolic = true →
      ∀ (c : Concretizer), c.regions = table → ∀ session found left,
        c.choose v .writeable session = .ok found left → ∀ x ∈ found,
        ∃ r ∈ table.regions, r.perm.includes .write = true ∧ r.contains x = true := by
  constructor
  · intro means
    have wf : (Expr.var none ⟨"x", 8⟩).WellFormed := by decide
    have faithful := faithful_of_condition rfl wf (by decide) (means ⟨256, 511, .write⟩ (by decide) _ wf)
    exact absurd faithful (by decide)
  · intro lies
    have asks : Concretizer.Asks {} ⟨some (Exhaustive.solver {}), [], .var none ⟨"x", 8⟩⟩ :=
      ⟨⟨rfl, rfl, by decide, by simp⟩, by simp [Vars.OneWidth, Expr.occurrences]⟩
    have table : RegionTable.ofList [⟨256, 511, .write⟩] = .ok ⟨[⟨256, 511, .write⟩]⟩ := by cbv
    obtain ⟨left, chosen⟩ := ok_of_returned? (show returned? (Concretizer.choose { regions := ⟨[⟨256, 511, .write⟩]⟩ }
      ⟨some (Exhaustive.solver {}), [], .var none ⟨"x", 8⟩⟩ .writeable {}) = some [0] by cbv)
    obtain ⟨r, listed, _, inside⟩ :=
      lies _ _ table _ _ _ _ asks.posed rfl _ rfl _ _ _ chosen 0 (List.mem_singleton.mpr rfl)
    cases List.mem_singleton.mp listed
    exact absurd inside (by decide)

end Region

end SymbolicMemory
