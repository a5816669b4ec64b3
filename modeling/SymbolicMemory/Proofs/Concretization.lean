import Mathlib
import SymbolicMemory.Concretizer
import SymbolicMemory.Proofs.AddressLookup
import SymbolicMemory.Proofs.Values

/-! # Concrete addresses are those that the strategies ask for

What a strategy asks for is stated by the set of values that an address can have. The strategies
are then tried in turn: the first that applies decides, and one that does not apply is told from a
solver that gives up.
-/

namespace SymbolicMemory

namespace Strategy

/-- Whether a strategy finds an address among the possible ones. -/
def Applies (c : Concretizer) (possible : Set UInt64) : Strategy → Prop
  | free => c.regions.regions ≠ [] ∧ ∃ x ∈ possible, ∀ r ∈ c.regions.regions, r.contains x = false
  | writeable => ∃ r ∈ c.regions.regions, r.perm.includes .write = true ∧ ∃ x ∈ possible, r.contains x = true
  | executable => ∃ r ∈ c.regions.regions, r.perm.includes .execute = true ∧ ∃ x ∈ possible, r.contains x = true
  | symbolic => ∃ least ∈ possible, ∃ greatest ∈ possible, (∀ x ∈ possible, least ≤ x ∧ x ≤ greatest) ∧
      (greatest.toNat : Int) - least.toNat < if c.limit ≤ 0 then 1024 else c.limit
  | any => True
  | unknown _ => False

/-- One possible address, in the first of the regions with a permission that any of them lies in. -/
def PicksIn (c : Concretizer) (possible : Set UInt64) (perm : Perm) (found : Addresses) : Prop :=
  found.others = [] ∧ found.first ∈ possible ∧
    ∃ r ∈ c.regions.regions, r.perm.includes perm = true ∧ r.contains found.first = true ∧
      ∀ earlier ∈ c.regions.regions, earlier.perm.includes perm = true → earlier.first < r.first →
        ∀ x ∈ possible, earlier.contains x = false

/-- The addresses that a strategy is to find where it applies. -/
def Yields (c : Concretizer) (possible : Set UInt64) (found : Addresses) : Strategy → Prop
  | free => found.others = [] ∧ found.first ∈ possible ∧
      ∀ r ∈ c.regions.regions, r.contains found.first = false
  | writeable => PicksIn c possible .write found
  | executable => PicksIn c possible .execute found
  | symbolic => found.toList.Pairwise (· < ·) ∧ ∀ x, x ∈ found.toList ↔ x ∈ possible
  | any => found.others = [] ∧ found.first ∈ possible
  | unknown _ => False

end Strategy

namespace Region

/-- A region as an address of some width sees it, with its ends cut to that width. -/
def cut (r : Region) (width : UInt64) : Region :=
  { r with first := r.first &&& mask width, last := r.last &&& mask width }

theorem cut_eq {r : Region} {width : UInt64} (le : width ≤ 64) (forward : r.first ≤ r.last)
    (inside : r.last ≤ mask width) : r.cut width = r := by
  have full := mask_toNat le
  have pos := Nat.two_pow_pos width.toNat
  have last := UInt64.le_iff_toNat_le.mp inside
  have first := UInt64.le_iff_toNat_le.mp forward
  have keeps : ∀ x : UInt64, x.toNat < 2 ^ width.toNat → x &&& mask width = x := by
    intro x small
    apply UInt64.toNat_inj.mp
    rw [toNat_and_mask x le, Nat.mod_eq_of_lt small]
  simp only [cut, keeps r.first (by omega), keeps r.last (by omega)]

theorem cut_contains_iff (r : Region) {width : UInt64} (le : width ≤ 64) (x : UInt64) :
    (r.cut width).contains x = true ↔
      r.first.toNat % 2 ^ width.toNat ≤ x.toNat ∧ x.toNat ≤ r.last.toNat % 2 ^ width.toNat := by
  simp [contains, cut, UInt64.le_iff_toNat_le, ← toNat_and_mask _ le]

theorem condition_when (r : Region) {e : Expr} (wf : e.WellFormed) :
    Expr.BuildsWhen (r.condition e) e.occurrences (fun ρ =>
      r.first.toNat % 2 ^ e.width.toNat ≤ e.meaning ρ ∧
        e.meaning ρ ≤ r.last.toNat % 2 ^ e.width.toNat) := by
  have fits : ∀ x : UInt64, x.toNat % 2 ^ e.width.toNat < 2 ^ e.width.toNat :=
    fun _ => Nat.mod_lt _ (Nat.two_pow_pos _)
  obtain ⟨above, aboveBuilt, aboveStates⟩ := Expr.constant_when .uge rfl wf r.first
  obtain ⟨below, belowBuilt, belowStates⟩ := Expr.constant_when .ule rfl wf r.last
  have both : ∀ c ∈ [above, below], c.Condition := by
    simp [aboveStates.condition, belowStates.condition]
  have built : r.condition e = Expr.all [above, below] := by
    calc
      r.condition e = (do
          let above ← (do Expr.apply .uge e (← Expr.constant r.first e.width))
          let below ← (do Expr.apply .ule e (← Expr.constant r.last e.width))
          Expr.all [above, below]) := by simp only [condition, bind_assoc]
      _ = Expr.all [above, below] := by
        rw [aboveBuilt, belowBuilt]
        rfl
  rw [built]
  refine (Expr.all_when both).congr ?_ fun ρ => ?_
  · simpa using ⟨aboveStates.vars_subset, belowStates.vars_subset⟩
  · have small := Expr.meaning_lt ρ wf
    have aboveIff := aboveStates.holds_iff ρ
    have belowIff := belowStates.holds_iff ρ
    rw [Op.meaning_uge, Op.meaning_ule (fits r.first) small] at aboveIff
    rw [Op.meaning_ule small (fits r.last)] at belowIff
    simp [Holds, aboveIff, belowIff]

end Region

theorem Expr.States.complement_when {c : Expr} {vars : List Var} {holds : Valuation → Prop}
    (states : c.States vars holds) : BuildsWhen c.complement vars (fun ρ => ¬ holds ρ) := by
  obtain ⟨e, built, denotes⟩ := complement_builds states.condition.wellFormed
  refine ⟨e, built, ⟨denotes.wellFormed, denotes.width_eq.trans states.condition.one_bit⟩,
    List.Subset.trans denotes.vars_subset states.vars_subset, fun ρ => ?_⟩
  rw [denotes.meaning_eq, states.condition.one_bit, ← states.holds_iff]
  rcases states.condition.meaning_cases ρ with bit | bit <;> simp [bit]

/-- The conditions that an address lies outside of each of some regions. -/
theorem Region.outside_when {e : Expr} (wf : e.WellFormed) (regions : List Region) :
    ∃ es, regions.mapM (fun r => do Expr.complement (← r.condition e)) = .ok es ∧
      (∀ c ∈ es, c.Condition) ∧ es.flatMap Expr.occurrences ⊆ e.occurrences ∧
      ∀ ρ, Holds ρ es ↔ ∀ r ∈ regions, ¬ (r.first.toNat % 2 ^ e.width.toNat ≤ e.meaning ρ ∧
        e.meaning ρ ≤ r.last.toNat % 2 ^ e.width.toNat) := by
  induction regions with
  | nil => exact ⟨[], rfl, by simp, by simp, by simp [Holds]⟩
  | cons r rest ih =>
      obtain ⟨es, built, conditions, covered, holds⟩ := ih
      obtain ⟨c, conditionBuilt, states⟩ := r.condition_when wf
      obtain ⟨c', complementBuilt, states'⟩ := states.complement_when
      refine ⟨c' :: es, ?_, List.forall_mem_cons.mpr ⟨states'.condition, conditions⟩, ?_, fun ρ => ?_⟩
      · rw [List.mapM_cons, built, conditionBuilt]
        change c.complement >>= _ = _
        rw [complementBuilt]
        rfl
      · exact List.append_subset.mpr ⟨states'.vars_subset, covered⟩
      · have rest := holds ρ
        rw [Holds] at rest ⊢
        rw [List.forall_mem_cons, List.forall_mem_cons, states'.holds_iff, rest]

theorem Region.free_when {e : Expr} (wf : e.WellFormed) (regions : List Region) :
    Expr.BuildsWhen (do Expr.all (← regions.mapM fun r => do Expr.complement (← r.condition e))) e.occurrences
      (fun ρ => ∀ r ∈ regions, ¬ (r.first.toNat % 2 ^ e.width.toNat ≤ e.meaning ρ ∧
        e.meaning ρ ≤ r.last.toNat % 2 ^ e.width.toNat)) := by
  obtain ⟨es, built, conditions, covered, holds⟩ := outside_when wf regions
  rw [built]
  exact (Expr.all_when conditions).congr covered holds

/-- An error of an exhaustive search says that it gave up. -/
theorem Exhaustive.reports_limit {s : Exhaustive} {f : Failure} (reports : s.solver.Reports f) :
    ∃ e, f = .error e ∧ e.root = .solverResourceLimit := by
  rcases reports with ⟨e, ⟨calls, constraints, vars, failed, rfl⟩ |
    ⟨enumerate, calls, constraints, expr, limit, offered, failed, rfl⟩⟩
  · exact ⟨_, rfl, s.solve_limited failed e rfl⟩
  · cases offered
    exact ⟨_, rfl, s.enumerate_limited failed e rfl⟩

/-- As many ascending values as there is room for between two ends are all that lie there. -/
theorem mem_of_ascending {values : List UInt64} (ascending : values.Pairwise (· < ·))
    {least greatest : UInt64} (ends : ∀ x ∈ values, least ≤ x ∧ x ≤ greatest)
    (full : greatest.toNat - least.toNat < values.length) {x : UInt64} (above : least ≤ x)
    (below : x ≤ greatest) : x ∈ values := by
  have distinct : (values.map UInt64.toNat).Nodup := by
    apply List.Nodup.map
    · exact fun a b same => UInt64.toNat_inj.mp same
    · apply ascending.imp
      intro a b less same
      exact UInt64.lt_irrefl b (same ▸ less)
  have sub : (values.map UInt64.toNat).toFinset ⊆ Finset.Icc least.toNat greatest.toNat := by
    intro n member
    obtain ⟨y, inList, rfl⟩ := List.mem_map.mp (List.mem_toFinset.mp member)
    obtain ⟨lo, hi⟩ := ends y inList
    exact Finset.mem_Icc.mpr ⟨UInt64.le_iff_toNat_le.mp lo, UInt64.le_iff_toNat_le.mp hi⟩
  have card : (Finset.Icc least.toNat greatest.toNat).card ≤ (values.map UInt64.toNat).toFinset.card := by
    rw [Nat.card_Icc, List.toFinset_card_of_nodup distinct, List.length_map]
    omega
  have all := Finset.eq_of_subset_of_card_le sub card
  have here : x.toNat ∈ (values.map UInt64.toNat).toFinset := by
    rw [all, Finset.mem_Icc]
    exact ⟨UInt64.le_iff_toNat_le.mp above, UInt64.le_iff_toNat_le.mp below⟩
  obtain ⟨y, member, same⟩ := List.mem_map.mp (List.mem_toFinset.mp here)
  exact UInt64.toNat_inj.mp same ▸ member

namespace Concretizer

theorem effectiveLimit_pos (c : Concretizer) : 0 < c.effectiveLimit := by
  unfold effectiveLimit
  split
  · decide
  · omega

theorem ofInt_toNat {limit : Int} (pos : 0 < limit) : (UInt64.ofInt limit).toNat ≤ limit.toNat := by
  rw [UInt64.ofInt, UInt64.toNat_ofNat']
  omega

/-- Addresses that are told to lie close by machine words do lie closer than the limit. -/
theorem lt_limit {c : Concretizer} {least greatest : UInt64} (ordered : least ≤ greatest)
    (close : ¬ UInt64.ofInt c.effectiveLimit ≤ greatest - least) :
    (greatest.toNat : Int) - least.toNat < c.effectiveLimit := by
  have cut := ofInt_toNat c.effectiveLimit_pos
  have pos := c.effectiveLimit_pos
  have le := UInt64.le_iff_toNat_le.mp ordered
  rw [UInt64.not_le, UInt64.lt_iff_toNat_lt, UInt64.toNat_sub_of_le _ _ ordered] at close
  omega

/-- A limit that is a machine integer tells exactly the addresses that lie closer. -/
theorem not_lt_limit {c : Concretizer} (machine : c.limit < 2 ^ 63) {least greatest : UInt64}
    (ordered : least ≤ greatest) (far : UInt64.ofInt c.effectiveLimit ≤ greatest - least) :
    ¬ (greatest.toNat : Int) - least.toNat < c.effectiveLimit := by
  have pos := c.effectiveLimit_pos
  have small : c.effectiveLimit < 2 ^ 63 := by
    unfold effectiveLimit defaultLimit
    split <;> omega
  have le := UInt64.le_iff_toNat_le.mp ordered
  have limit_eq : (UInt64.ofInt c.effectiveLimit).toNat = c.effectiveLimit.toNat := by
    rw [UInt64.ofInt, UInt64.toNat_ofNat']
    omega
  rw [UInt64.le_iff_toNat_le, UInt64.toNat_sub_of_le _ _ ordered, limit_eq] at far
  omega

/-- A symbolic address under conditions, with an exhaustive search to ask. -/
structure Symbolic (s : Exhaustive) (v : Value) : Prop where
  solver_eq : v.solver = some s.solver
  symbolic : v.isSymbolic = true
  wellFormed : v.expr.WellFormed
  conditions : ∀ c ∈ v.constraints, c.Condition

/-- A symbolic address of which every variable has one width. -/
structure Asks (s : Exhaustive) (v : Value) : Prop extends Symbolic s v where
  one : Vars.OneWidth ((v.expr :: v.constraints).flatMap Expr.occurrences)

/-- The values that an address can have. -/
abbrev possible (s : Exhaustive) (v : Value) : Set UInt64 := s.Feasible v.constraints v.expr

section Choosing

variable {s : Exhaustive} {v : Value} (asks : Asks s v)

include asks

theorem Asks.posed : v.Posed s.solver ((v.expr :: v.constraints).flatMap Expr.occurrences)
    (s.Within ((v.expr :: v.constraints).flatMap Expr.occurrences)) where
  solver_eq := asks.solver_eq
  right := s.right asks.one
  one := asks.one
  wellFormed := asks.wellFormed
  conditions := asks.conditions
  covered := List.Subset.refl _

theorem Asks.mem_possible (x : UInt64) : x ∈ possible s v ↔
    v.Can (s.Within ((v.expr :: v.constraints).flatMap Expr.occurrences)) x :=
  Exhaustive.mem_feasible asks.conditions asks.wellFormed

/-- Where some address is possible, a question fails only if the solver does. -/
theorem Asks.reports (some_ : (possible s v).Nonempty) {f : Failure}
    (fails : v.Fails s.solver (s.Within ((v.expr :: v.constraints).flatMap Expr.occurrences)) f) :
    s.solver.Reports f := by
  obtain ⟨x, member⟩ := some_
  rcases fails with reports | ⟨_, none_⟩
  · exact reports
  · exact absurd ((asks.mem_possible x).mp member) (none_ x)

/-- One possible address that meets a condition, or none if there is none. -/
theorem anyUnder_right {condition : Expr} {q : Nat → Prop}
    (states : condition.States v.expr.occurrences fun ρ => q (v.expr.meaning ρ)) :
    Ensures (anyUnder v condition) (fun found => (found = [] ∧ ∀ x ∈ possible s v, ¬ q x.toNat) ∨
      ∃ x ∈ possible s v, found = [x] ∧ q x.toNat) s.solver.Reports := by
  unfold anyUnder
  split
  · next isFalse =>
    obtain ⟨tag, rfl⟩ := Expr.isFalse_iff.mp isFalse
    refine .pure (.inl ⟨rfl, fun x member holds => ?_⟩)
    obtain ⟨ρ, _, _, value⟩ := (asks.mem_possible x).mp member
    cases (states.holds_iff ρ).mpr (value.symm ▸ holds)
  · have narrowed : ∀ x, (v.under [condition]).Can
        (s.Within ((v.expr :: v.constraints).flatMap Expr.occurrences)) x ↔
        x ∈ possible s v ∧ q x.toNat := by
      intro x
      rw [Value.under_can (q := q) states, asks.mem_possible]
    have single : Ensures (do pure [← (v.under [condition]).any] : Run (List UInt64))
        (fun found => ∃ x ∈ possible s v, found = [x] ∧ q x.toNat)
        ((v.under [condition]).Fails s.solver
          (s.Within ((v.expr :: v.constraints).flatMap Expr.occurrences))) := by
      refine (Value.any_right (asks.posed.states states) asks.symbolic).bind fun x can => .pure ?_
      obtain ⟨member, holds⟩ := (narrowed x).mp can
      exact ⟨x, member, rfl, holds⟩
    refine (single.mono (fun _ => .inr) fun _ h => h).tryCatch fun f fails => ?_
    rcases fails with reports | ⟨rfl, none_⟩
    · obtain ⟨e, rfl, root⟩ := Exhaustive.reports_limit reports
      simp only [root, reduceCtorEq, if_false]
      exact .throw reports
    · refine .pure (.inl ⟨rfl, fun x member holds => ?_⟩)
      exact none_ x ((narrowed x).mpr ⟨member, holds⟩)

theorem Asks.width_le : v.expr.width ≤ 64 := (Expr.width_bounds asks.wellFormed).2

/-- One possible address in the first of some regions that holds any. -/
theorem anyIn_right (regions : List Region) :
    Ensures (anyIn v regions) (fun found =>
      (found = [] ∧ ∀ r ∈ regions, ∀ x ∈ possible s v, (r.cut v.expr.width).contains x = false) ∨
      ∃ x ∈ possible s v, found = [x] ∧ ∃ before r after, regions = before ++ r :: after ∧
        (r.cut v.expr.width).contains x = true ∧
        ∀ earlier ∈ before, ∀ y ∈ possible s v, (earlier.cut v.expr.width).contains y = false)
      s.solver.Reports := by
  induction regions with
  | nil => exact .pure (.inl ⟨rfl, by simp⟩)
  | cons r rest ih =>
      rw [anyIn]
      have built := Session.check_when (r.condition_when asks.wellFormed)
      refine (built.mono (fun _ h => h) fun _ no => no.elim).bind fun condition states => ?_
      have found := anyUnder_right asks (q := fun n =>
        r.first.toNat % 2 ^ v.expr.width.toNat ≤ n ∧ n ≤ r.last.toNat % 2 ^ v.expr.width.toNat) states
      have contains_iff := r.cut_contains_iff asks.width_le
      refine found.bind fun found outcome => ?_
      rcases outcome with ⟨rfl, none_⟩ | ⟨x, member, rfl, holds⟩
      · have empty : ∀ y ∈ possible s v, (r.cut v.expr.width).contains y = false := by
          intro y member
          rw [← Bool.not_eq_true, contains_iff]
          exact none_ y member
        refine ih.mono (fun found outcome => ?_) fun _ h => h
        rcases outcome with ⟨rfl, none_⟩ | ⟨x, member, rfl, before, r', after, split, holds, earlier⟩
        · exact .inl ⟨rfl, List.forall_mem_cons.mpr ⟨empty, none_⟩⟩
        · refine .inr ⟨x, member, rfl, r :: before, r', after, ?_, holds, ?_⟩
          · rw [split, List.cons_append]
          · exact List.forall_mem_cons.mpr ⟨empty, earlier⟩
      · refine .pure (.inr ⟨x, member, rfl, [], r, rest, rfl, (contains_iff x).mpr holds, ?_⟩)
        simp

theorem anyFree_right (c : Concretizer) :
    Ensures (c.anyFree v) (fun found =>
      (found = [] ∧ (c.regions.regions = [] ∨ ∀ x ∈ possible s v, ∃ r ∈ c.regions.regions,
        (r.cut v.expr.width).contains x = true)) ∨
      c.regions.regions ≠ [] ∧ ∃ x ∈ possible s v, found = [x] ∧
        ∀ r ∈ c.regions.regions, (r.cut v.expr.width).contains x = false) s.solver.Reports := by
  unfold anyFree
  split
  · next empty => exact .pure (.inl ⟨rfl, .inl (List.isEmpty_iff.mp empty)⟩)
  · next regions =>
    have all := Region.free_when asks.wellFormed c.regions.regions
    refine ((Session.check_when all).mono (fun _ h => h) fun _ no => no.elim).bind fun condition states => ?_
    refine (anyUnder_right asks (q := fun n => ∀ r ∈ c.regions.regions,
      ¬ (r.first.toNat % 2 ^ v.expr.width.toNat ≤ n ∧ n ≤ r.last.toNat % 2 ^ v.expr.width.toNat))
      states).mono (fun found outcome => ?_) fun _ h => h
    rcases outcome with ⟨rfl, none_⟩ | ⟨x, member, rfl, holds⟩
    · refine .inl ⟨rfl, .inr fun x member => ?_⟩
      have some_ := none_ x member
      simp only [← Region.cut_contains_iff _ asks.width_le, not_forall, not_not] at some_
      obtain ⟨r, inTable, holds⟩ := some_
      exact ⟨r, inTable, holds⟩
    · refine .inr ⟨by simpa using regions, x, member, rfl, fun r inTable => ?_⟩
      rw [← Bool.not_eq_true, r.cut_contains_iff asks.width_le]
      exact holds r inTable

theorem anyN_right {limit : Int} (positive : 0 < limit) :
    Ensures (v.anyN limit) (fun values => values.Pairwise (· < ·) ∧
      (values.length < limit ∧ (∀ x, x ∈ values ↔ x ∈ possible s v) ∨
        values.length = limit ∧ ∀ x ∈ values, x ∈ possible s v)) s.solver.Reports := by
  have offered : v.solver.bind Solver.enumerate = some fun _ => s.enumerate := by rw [asks.solver_eq]; rfl
  rw [Value.anyN_enumerated asks.symbolic positive offered]
  refine (Session.ask_ensures "enumerate" fun _ => s.enumerate v.constraints v.expr limit).mono ?_ ?_
  · rintro values ⟨_, answered⟩
    rcases s.enumerate_cases positive asks.conditions asks.wellFormed asks.one with
      ⟨_, found, right⟩ | ⟨f, failed, _⟩
    · cases answered.symm.trans found
      exact right
    · cases answered.symm.trans failed
  · rintro _ ⟨calls, f, failed, rfl⟩
    rcases s.enumerate_cases positive asks.conditions asks.wellFormed asks.one with
      ⟨_, found, _⟩ | ⟨g, failed', harmless⟩
    · cases failed.symm.trans found
    · cases failed.symm.trans failed'
      cases f with
      | error e => exact ⟨e, .inr ⟨_, calls, _, _, _, rfl, failed, rfl⟩⟩
      | fault fault => exact absurd rfl (harmless fault)

/-- Every possible address in ascending order, unless they lie too far apart. -/
theorem everyNear_right (c : Concretizer) (some_ : (possible s v).Nonempty) :
    Ensures (c.everyNear v) (fun found =>
      ∃ least ∈ possible s v, ∃ greatest ∈ possible s v,
        (∀ x ∈ possible s v, least ≤ x ∧ x ≤ greatest) ∧
        (found = [] ∧ UInt64.ofInt c.effectiveLimit ≤ greatest - least ∨
          (greatest.toNat : Int) - least.toNat < c.effectiveLimit ∧
            found.Pairwise (· < ·) ∧ ∀ x, x ∈ found ↔ x ∈ possible s v)) s.solver.Reports := by
  have smallest := (Value.min_right asks.posed asks.symbolic).mono (fun _ h => h)
    fun _ => asks.reports some_
  have largest := (Value.max_right asks.posed asks.symbolic).mono (fun _ h => h)
    fun _ => asks.reports some_
  simp only [← asks.mem_possible] at smallest largest
  unfold everyNear
  refine smallest.bind fun least ⟨leastMember, lower⟩ => ?_
  refine largest.bind fun greatest ⟨greatestMember, upper⟩ => ?_
  have ends : ∀ x ∈ possible s v, least ≤ x ∧ x ≤ greatest := fun x member =>
    ⟨lower x member, upper x member⟩
  split
  · next far =>
    refine ((Session.record_succeeds _).mono (fun _ h => h) fun _ no => no.elim).bind fun _ _ => ?_
    exact .pure ⟨least, leastMember, greatest, greatestMember, ends, .inl ⟨rfl, far⟩⟩
  · next close =>
    have gap := lt_limit (lower greatest greatestMember) close
    refine (anyN_right asks c.effectiveLimit_pos).mono (fun found right => ?_) fun _ h => h
    obtain ⟨ascending, complete⟩ := right
    refine ⟨least, leastMember, greatest, greatestMember, ends, .inr ⟨gap, ascending, ?_⟩⟩
    rcases complete with ⟨_, all⟩ | ⟨full, sub⟩
    · exact all
    · have pos := c.effectiveLimit_pos
      intro x
      refine ⟨sub x, fun member => ?_⟩
      apply mem_of_ascending ascending (fun y inList => ends y (sub y inList)) _ (ends x member).1
        (ends x member).2
      omega

/-- What the choice of a strategy comes to: nothing where it does not apply. -/
def Chosen (c : Concretizer) (possible : Set UInt64) (strategy : Strategy) : List UInt64 → Prop
  | [] => ¬ strategy.Applies c possible
  | first :: others => strategy.Applies c possible ∧ strategy.Yields c possible ⟨first, others⟩

theorem symbolic_chosen {c : Concretizer} (machine : c.limit < 2 ^ 63)
    (some_ : (possible s v).Nonempty) :
    Ensures (c.choose v .symbolic) (Chosen c (possible s v) .symbolic) s.solver.Reports := by
  refine (everyNear_right asks c some_).mono (fun found outcome => ?_) fun _ h => h
  obtain ⟨least, leastMember, greatest, greatestMember, ends, far | ⟨gap, sorted, all⟩⟩ := outcome
  · obtain ⟨rfl, far⟩ := far
    rintro ⟨least', member', greatest', member'', ends', close⟩
    have sameLeast : least' = least :=
      UInt64.le_antisymm (ends' least leastMember).1 (ends least' member').1
    have sameGreatest : greatest' = greatest :=
      UInt64.le_antisymm (ends greatest' member'').2 (ends' greatest greatestMember).2
    rw [sameLeast, sameGreatest] at close
    exact not_lt_limit machine (ends greatest greatestMember).1 far close
  · cases found with
    | nil => cases (all least).mpr leastMember
    | cons first others =>
        exact ⟨⟨least, leastMember, greatest, greatestMember, ends, gap⟩, sorted, all⟩

theorem any_chosen (c : Concretizer) (some_ : (possible s v).Nonempty) :
    Ensures (c.choose v .any) (Chosen c (possible s v) .any) s.solver.Reports := by
  refine ((Value.any_right asks.posed asks.symbolic).mono (fun _ h => h)
    fun _ => asks.reports some_).bind fun x can => .pure ?_
  exact ⟨trivial, rfl, (asks.mem_possible x).mpr can⟩

section Regions

variable {c : Concretizer} (uncut : ∀ r ∈ c.regions.regions, r.cut v.expr.width = r)

include uncut

theorem free_chosen : Ensures (c.choose v .free) (Chosen c (possible s v) .free) s.solver.Reports := by
  refine (anyFree_right asks c).mono (fun found outcome => ?_) fun _ h => h
  rcases outcome with ⟨rfl, empty | covered⟩ | ⟨regions, x, member, rfl, outside⟩
  · rintro ⟨regions, _⟩
    exact regions empty
  · rintro ⟨_, x, member, outside⟩
    obtain ⟨r, inTable, holds⟩ := covered x member
    rw [uncut r inTable, outside r inTable] at holds
    cases holds
  · have free : ∀ r ∈ c.regions.regions, r.contains x = false := by
      intro r inTable
      have out := outside r inTable
      rwa [uncut r inTable] at out
    exact ⟨⟨regions, x, member, free⟩, rfl, member, free⟩

theorem perm_chosen (ascending : c.regions.regions.Pairwise fun a b => a.first < b.first) (perm : Perm) :
    Ensures (anyIn v (c.regions.withPerm perm)) (fun found => match found with
      | [] => ¬ ∃ r ∈ c.regions.regions, r.perm.includes perm = true ∧
          ∃ x ∈ possible s v, r.contains x = true
      | first :: others => (∃ r ∈ c.regions.regions, r.perm.includes perm = true ∧
          ∃ x ∈ possible s v, r.contains x = true) ∧
          Strategy.PicksIn c (possible s v) perm ⟨first, others⟩) s.solver.Reports := by
  have listed : ∀ r, r ∈ c.regions.withPerm perm ↔
      r ∈ c.regions.regions ∧ r.perm.includes perm = true := fun r => List.mem_filter
  have ordered : (c.regions.withPerm perm).Pairwise fun a b => a.first < b.first := ascending.filter _
  refine (anyIn_right asks (c.regions.withPerm perm)).mono (fun found outcome => ?_) fun _ h => h
  rcases outcome with ⟨rfl, none_⟩ | ⟨x, member, rfl, before, r, after, split, holds, earlier⟩
  · rintro ⟨r, inTable, includes, x, member, holds⟩
    have out := none_ r ((listed r).mpr ⟨inTable, includes⟩) x member
    rw [uncut r inTable, holds] at out
    cases out
  · have here : r ∈ c.regions.withPerm perm := by simp [split]
    obtain ⟨inTable, includes⟩ := (listed r).mp here
    rw [uncut r inTable] at holds
    refine ⟨⟨r, inTable, includes, x, member, holds⟩, rfl, member, r, inTable, includes, holds, ?_⟩
    intro other otherInTable otherIncludes less y isPossible
    have placed := (listed other).mpr ⟨otherInTable, otherIncludes⟩
    rw [split] at placed ordered
    have first : other ∈ before := by
      cases List.mem_append.mp placed with
      | inl first => exact first
      | inr last =>
          have behind := (List.pairwise_cons.mp (List.pairwise_append.mp ordered).2.1).1
          cases last with
          | head => exact absurd less (UInt64.lt_irrefl _)
          | tail _ last => exact absurd less (UInt64.lt_asymm (behind other last))
    have out := earlier other first y isPossible
    rwa [uncut other otherInTable] at out

/-- A strategy finds what it is to find where it applies, and nothing where it does not. -/
theorem choose_right (machine : c.limit < 2 ^ 63)
    (ascending : c.regions.regions.Pairwise fun a b => a.first < b.first)
    (some_ : (possible s v).Nonempty) {strategy : Strategy} (known : ∀ name, strategy ≠ .unknown name) :
    Ensures (c.choose v strategy) (Chosen c (possible s v) strategy) s.solver.Reports := by
  cases strategy with
  | free => exact free_chosen asks uncut
  | writeable =>
      refine (perm_chosen asks uncut ascending .write).mono (fun found outcome => ?_) fun _ h => h
      cases found <;> exact outcome
  | executable =>
      refine (perm_chosen asks uncut ascending .execute).mono (fun found outcome => ?_) fun _ h => h
      cases found <;> exact outcome
  | symbolic => exact symbolic_chosen asks machine some_
  | any => exact any_chosen asks c some_
  | unknown name => exact absurd rfl (known name)

end Regions

end Choosing

section Deciding

variable {s : Exhaustive} {v : Value} (asks : Asks s v) {c : Concretizer}
  {good : Strategy → List UInt64 → Prop} {strategies : List Strategy}

/-- The strategy that decides comes behind some that find nothing. -/
def Decides (good : Strategy → List UInt64 → Prop) (strategies : List Strategy) (found : Addresses) :
    Prop :=
  ∃ before strategy after, strategies = before ++ strategy :: after ∧
    (∀ earlier ∈ before, good earlier []) ∧ good strategy found.toList

theorem observe_ensures (resolution : Resolution) (found : Addresses) :
    Ensures (observe resolution found) (fun a => a = found) (fun _ => False) :=
  (Session.count_succeeds _).bind fun _ _ => (Session.record_succeeds _).bind fun _ _ => .pure rfl

/-- The first strategy that finds something decides. -/
theorem firstOf_right
    (chosen : ∀ strategy ∈ strategies, Ensures (c.choose v strategy) (good strategy) s.solver.Reports) :
    Ensures (c.firstOf v strategies) (Decides good strategies)
      (fun f => s.solver.Reports f ∨
        (∀ strategy ∈ strategies, good strategy []) ∧ f = .error .unresolvableAddress) := by
  induction strategies with
  | nil => exact .throw (.inr ⟨by simp, rfl⟩)
  | cons strategy rest ih =>
      obtain ⟨here, later⟩ := List.forall_mem_cons.mp chosen
      rw [firstOf]
      refine (here.mono (fun _ h => h) fun _ => .inl).bind fun found outcome => ?_
      cases found with
      | nil =>
          refine (ih later).mono ?_ ?_
          · rintro found ⟨before, decider, after, split, earlier, right⟩
            refine ⟨strategy :: before, decider, after, ?_, ?_, right⟩
            · rw [split, List.cons_append]
            · exact List.forall_mem_cons.mpr ⟨outcome, earlier⟩
          · rintro f (reports | ⟨none_, rfl⟩)
            · exact .inl reports
            · exact .inr ⟨List.forall_mem_cons.mpr ⟨outcome, none_⟩, rfl⟩
      | cons first others =>
          refine (observe_ensures _ _).mono (fun found same => ?_) fun _ no => no.elim
          exact ⟨[], strategy, rest, rfl, by simp, same ▸ outcome⟩

include asks

variable (chosen : (possible s v).Nontrivial → ∀ strategy ∈ strategies,
  Ensures (c.choose v strategy) (good strategy) s.solver.Reports)

include chosen

/-- An address that can be one thing only is that thing. Otherwise the strategies decide, which
    are asked only where there is a choice. -/
theorem resolve_right (some_ : (possible s v).Nonempty) :
    Ensures (c.resolve v strategies)
      (fun found => (∃ x, possible s v = {x} ∧ found = ⟨x, []⟩) ∨
        (possible s v).Nontrivial ∧ Decides good strategies found)
      (fun f => s.solver.Reports f ∨ (possible s v).Nontrivial ∧
        (∀ strategy ∈ strategies, good strategy []) ∧ f = .error .unresolvableAddress) := by
  have unique := Value.isUnique_right asks.posed asks.symbolic
  have any_ := Value.any_right asks.posed asks.symbolic
  simp only [← asks.mem_possible] at unique
  unfold resolve
  refine (unique.mono (fun _ h => h) fun _ fails => .inl (asks.reports some_ fails)).bind fun b right => ?_
  cases b with
  | true =>
      obtain ⟨x, only⟩ := right
      refine (any_.mono (fun _ h => h) fun _ fails => .inl (asks.reports some_ fails)).bind fun y can => ?_
      have same : y = x := (only y).mp ((asks.mem_possible y).mpr can)
      refine (observe_ensures _ _).mono (fun found is => .inl ⟨x, ?_, ?_⟩) fun _ no => no.elim
      · exact Set.ext only
      · rw [is, same]
  | false =>
      obtain ⟨x, y, hx, hy, apart⟩ := right
      have nontrivial : (possible s v).Nontrivial := ⟨x, hx, y, hy, Ne.symm apart⟩
      refine (firstOf_right (chosen nontrivial)).mono (fun found decides => .inr ⟨nontrivial, decides⟩) ?_
      rintro f (reports | none_)
      · exact .inl reports
      · exact .inr ⟨nontrivial, none_⟩

/-- What is found for an address, and what is wrong where nothing is. -/
theorem concretize_right :
    Ensures (c.concretize v strategies)
      (fun found => (∃ x, possible s v = {x} ∧ found = ⟨x, []⟩) ∨
        (possible s v).Nontrivial ∧ Decides good strategies found)
      (fun f => s.solver.Reports f ∨ (possible s v = ∅ ∧ f = .error .unsatAddress) ∨
        (possible s v).Nontrivial ∧ (∀ strategy ∈ strategies, good strategy []) ∧
          f = .error .unresolvableAddress) := by
  have satisfiable := Value.isSatisfiable_right asks.posed
  simp only [← asks.mem_possible] at satisfiable
  have attempted : Ensures (do
      if v.isSymbolic then
        if !(← v.isSatisfiable) then throw (.error .unsatAddress)
      c.resolve v strategies)
      (fun found => (∃ x, possible s v = {x} ∧ found = ⟨x, []⟩) ∨
        (possible s v).Nontrivial ∧ Decides good strategies found)
      (fun f => s.solver.Reports f ∨ (possible s v = ∅ ∧ f = .error .unsatAddress) ∨
        (possible s v).Nontrivial ∧ (∀ strategy ∈ strategies, good strategy []) ∧
          f = .error .unresolvableAddress) := by
    rw [asks.symbolic]
    refine (satisfiable.mono (fun _ h => h) fun _ => .inl).bind fun b right => ?_
    cases b with
    | true =>
        refine (resolve_right asks chosen (right.mp rfl)).mono (fun _ h => h) fun f fails => ?_
        rcases fails with reports | none_
        · exact .inl reports
        · exact .inr (.inr none_)
    | false =>
        have empty : possible s v = ∅ := by
          apply Set.eq_empty_of_forall_notMem
          intro x member
          cases right.mpr ⟨x, member⟩
        exact (Ensures.throw (.inr (.inl ⟨empty, rfl⟩))).bind fun _ (no : False) => no.elim
  -- The error for constraints without a solution is renamed; the others come back as they are.
  refine attempted.tryCatch fun f fails => ?_
  rcases fails with reports | ⟨empty, rfl⟩ | ⟨nontrivial, none_, rfl⟩
  · obtain ⟨e, rfl, root⟩ := Exhaustive.reports_limit reports
    simp only [root, reduceCtorEq, if_false]
    exact .throw (.inl reports)
  · exact .throw (.inr (.inl ⟨empty, rfl⟩))
  · exact .throw (.inr (.inr ⟨nontrivial, none_, rfl⟩))

end Deciding

section Possible

variable {s : Exhaustive} {v : Value} (asks : Asks s v) (c : Concretizer)

/-- One possible address, or all of them. -/
def OneOrAll (possible : Set UInt64) (found : List UInt64) : Prop :=
  (∃ x ∈ possible, found = [x]) ∨ ∀ x, x ∈ found ↔ x ∈ possible

include asks

/-- Whatever regions there are, a strategy that finds something finds possible addresses. -/
theorem choose_possible (some_ : (possible s v).Nonempty) {strategy : Strategy}
    (known : ∀ name, strategy ≠ .unknown name) :
    Ensures (c.choose v strategy) (fun found => found = [] ∨ OneOrAll (possible s v) found)
      s.solver.Reports := by
  have inRegions : ∀ regions, Ensures (anyIn v regions)
      (fun found => found = [] ∨ OneOrAll (possible s v) found) s.solver.Reports := by
    intro regions
    refine (anyIn_right asks regions).mono (fun found outcome => ?_) fun _ h => h
    rcases outcome with ⟨empty, _⟩ | ⟨x, member, single, _⟩
    · exact .inl empty
    · exact .inr (.inl ⟨x, member, single⟩)
  cases strategy with
  | free =>
      refine (anyFree_right asks c).mono (fun found outcome => ?_) fun _ h => h
      rcases outcome with ⟨empty, _⟩ | ⟨_, x, member, single, _⟩
      · exact .inl empty
      · exact .inr (.inl ⟨x, member, single⟩)
  | writeable => exact inRegions _
  | executable => exact inRegions _
  | symbolic =>
      refine (everyNear_right asks c some_).mono (fun found outcome => ?_) fun _ h => h
      obtain ⟨_, _, _, _, _, ⟨empty, _⟩ | ⟨_, _, all⟩⟩ := outcome
      · exact .inl empty
      · exact .inr (.inr all)
  | any =>
      refine (any_chosen asks c some_).mono (fun found outcome => ?_) fun _ h => h
      cases found with
      | nil => exact .inl rfl
      | cons first others =>
          obtain ⟨_, rfl, member⟩ := outcome
          exact .inr (.inl ⟨first, member, rfl⟩)
  | unknown name => exact absurd rfl (known name)

theorem concretize_possible {strategies : List Strategy} (known : ∀ name, .unknown name ∉ strategies) :
    Ensures (c.concretize v strategies) (fun found => OneOrAll (possible s v) found.toList)
      (fun _ => True) := by
  have chosen : (possible s v).Nontrivial → ∀ strategy ∈ strategies, Ensures (c.choose v strategy)
      (fun found => found = [] ∨ OneOrAll (possible s v) found) s.solver.Reports := by
    intro nontrivial strategy member
    apply choose_possible asks c nontrivial.nonempty
    rintro name rfl
    exact known name member
  refine (concretize_right asks chosen).mono (fun found right => ?_) fun _ _ => trivial
  rcases right with ⟨x, only, rfl⟩ | ⟨_, _, _, _, _, _, empty | right⟩
  · refine .inl ⟨x, ?_, rfl⟩
    rw [only]
    exact Set.mem_singleton x
  · cases empty
  · exact right

end Possible

/-- A constant address is taken as it is. -/
theorem concretize_const (c : Concretizer) {v : Value} {tag : Tag} {w : Word}
    (constant : v.expr = .const tag w) (strategies : List Strategy) :
    c.concretize v strategies = observe .unique ⟨w.value, []⟩ := by
  have symbolic : v.isSymbolic = false := by
    rw [Value.isSymbolic, constant]
    rfl
  have found : v.any = pure w.value := by
    rw [Value.any, constant]
  simp only [concretize, symbolic, resolve, Value.isUnique, found]
  rfl

section Mixed

variable {s : Exhaustive} {v : Value} (given : Symbolic s v)
  (mixed : ¬ Vars.OneWidth ((v.expr :: v.constraints).flatMap Expr.occurrences))

include given

/-- Constraints are seen to have no solution only where no address is possible. -/
theorem Symbolic.isSatisfiable_right :
    Ensures v.isSatisfiable (fun b => b = true ∨ possible s v = ∅)
      (fun f => s.solver.Reports f ∨ ∃ fault, f = .fault fault) := by
  by_cases one : Vars.OneWidth (v.constraints.flatMap Expr.occurrences)
  · -- The expression plays no part, so it may be replaced by a constant.
    have posed : (v.withExpr (.ofBool true)).Posed s.solver (v.constraints.flatMap Expr.occurrences)
        (s.Within (v.constraints.flatMap Expr.occurrences)) :=
      ⟨given.solver_eq, s.right one, one, show (Expr.ofBool true).WellFormed by decide,
        given.conditions, List.Subset.refl _⟩
    refine (Value.isSatisfiable_right posed).mono (fun b right => ?_) fun _ => .inl
    cases b with
    | true => exact .inl rfl
    | false =>
        right
        apply Set.eq_empty_of_forall_notMem
        intro x member
        obtain ⟨ρ, within, holds, _⟩ :=
          (Exhaustive.mem_feasible given.conditions given.wellFormed).mp member
        have inside : s.Within (v.constraints.flatMap Expr.occurrences) ρ :=
          fun u occurs => within u (List.mem_append_right _ occurs)
        cases right.mpr ⟨_, Value.can_of_holds posed.wellFormed inside holds⟩
  · have broken : ∀ vars, ∃ fault, s.solve v.constraints vars = .error (.fault fault) := by
      intro vars
      cases found : Vars.find v.constraints with
      | ok all => exact absurd (Vars.oneWidth_of_find found) one
      | error fault =>
          refine ⟨fault, ?_⟩
          rw [Exhaustive.solve, found]
          rfl
    unfold Value.isSatisfiable
    split
    · next failing =>
      obtain ⟨c, member, isFalse⟩ := List.any_eq_true.mp failing
      obtain ⟨tag, rfl⟩ := Expr.isFalse_iff.mp isFalse
      refine .pure (.inr (Set.eq_empty_of_forall_notMem fun x isPossible => ?_))
      obtain ⟨ρ, _, holds, _⟩ := (Exhaustive.mem_feasible given.conditions given.wellFormed).mp isPossible
      cases holds _ member
    · rw [given.solver_eq]
      refine ((Session.ask_ensures "solve" fun _ => s.solve v.constraints []).mono ?_ ?_).bind
        fun _ (no : False) => no.elim
      · rintro answer ⟨_, answered⟩
        obtain ⟨fault, failed⟩ := broken []
        cases answered.symm.trans failed
      · rintro _ ⟨_, f, failed, rfl⟩
        obtain ⟨fault, failed'⟩ := broken []
        cases failed.symm.trans failed'
        exact .inr ⟨fault, rfl⟩

include mixed

/-- Looking for values breaks off at a name that has two widths. -/
theorem Symbolic.isUnique_faults :
    Ensures v.isUnique (fun _ => False) (fun f => ∃ fault, f = .fault fault) := by
  have solving : Ensures (v.solve []) (fun _ => False) (fun f => ∃ fault, f = .fault fault) := by
    simp only [Value.solve, given.solver_eq, List.append_nil]
    cases found : Vars.find (v.expr :: v.constraints) with
    | ok vars => exact absurd (Vars.oneWidth_of_find found) mixed
    | error fault =>
        have stops : Ensures (Session.check (.error fault : Except Fault (List Var))) (fun _ => False)
            (fun f => ∃ fault, f = .fault fault) := .throw ⟨fault, rfl⟩
        exact stops.bind fun _ no => no.elim
  unfold Value.isUnique Value.any
  rw [given.symbolic]
  refine Ensures.bind ?_ fun _ (no : False) => no.elim
  split
  · next tag w constant =>
    have symbolic := given.symbolic
    rw [Value.isSymbolic, constant] at symbolic
    cases symbolic
  · exact solving.bind fun _ (no : False) => no.elim

theorem Symbolic.concretize_faults (c : Concretizer) (strategies : List Strategy) :
    Ensures (c.concretize v strategies) (fun _ => False)
      (fun f => s.solver.Reports f ∨ (possible s v = ∅ ∧ f = .error .unsatAddress) ∨
        ∃ fault, f = .fault fault) := by
  have attempted : Ensures (do
      if v.isSymbolic then
        if !(← v.isSatisfiable) then throw (.error .unsatAddress)
      c.resolve v strategies) (fun _ => False)
      (fun f => s.solver.Reports f ∨ (possible s v = ∅ ∧ f = .error .unsatAddress) ∨
        ∃ fault, f = .fault fault) := by
    rw [given.symbolic]
    refine (given.isSatisfiable_right.mono (fun _ h => h) fun f fails => ?_).bind fun b right => ?_
    · rcases fails with reports | fault
      · exact .inl reports
      · exact .inr (.inr fault)
    · cases b with
      | true =>
          refine Ensures.bind ((given.isUnique_faults mixed).mono (fun _ h => h) fun _ h => ?_)
            fun _ (no : False) => no.elim
          exact .inr (.inr h)
      | false =>
          rcases right with no | empty
          · cases no
          · exact (Ensures.throw (.inr (.inl ⟨empty, rfl⟩))).bind fun _ (no : False) => no.elim
  refine attempted.tryCatch fun f fails => ?_
  rcases fails with reports | ⟨empty, rfl⟩ | ⟨fault, rfl⟩
  · obtain ⟨e, rfl, root⟩ := Exhaustive.reports_limit reports
    simp only [root, reduceCtorEq, if_false]
    exact .throw (.inl reports)
  · exact .throw (.inr (.inl ⟨empty, rfl⟩))
  · exact .throw (.inr (.inr ⟨fault, rfl⟩))

end Mixed

/-- An address that was narrowed down is a constant, or one that the search can be asked about. -/
theorem asks_of_ok {s : Exhaustive} {v : Value} {c : Concretizer} {strategies : List Strategy}
    {mid left : Session} {found : Addresses} (solver : v.solver = some s.solver) (wf : v.expr.WellFormed)
    (conditions : ∀ c ∈ v.constraints, c.Condition) (answer : c.concretize v strategies mid = .ok found left) :
    Asks s v ∨ ∃ tag w, v.expr = .const tag w ∧ found = ⟨w.value, []⟩ := by
  cases symbolic : v.isSymbolic with
  | true =>
      have given : Symbolic s v := ⟨solver, symbolic, wf, conditions⟩
      by_cases one : Vars.OneWidth ((v.expr :: v.constraints).flatMap Expr.occurrences)
      · exact .inl ⟨given, one⟩
      · have fails := given.concretize_faults one c strategies mid
        rw [answer] at fails
        exact fails.elim
  | false =>
      cases constant : v.expr with
      | const tag w =>
          rw [concretize_const c constant] at answer
          cases answer
          exact .inr ⟨tag, w, rfl, rfl⟩
      | _ =>
          rw [Value.isSymbolic, constant] at symbolic
          cases symbolic

/-- Concrete addresses are what the strategies ask for, told by the set of values that the address
    can have. Where that set is empty, this is the error; where it has one member, that is the
    address whatever the strategies; otherwise the first strategy that applies decides, and it is
    an error if none does. Nothing else goes wrong unless the solver gives up or one name stands
    for variables of two widths. -/
theorem concretize_meets_strategies {s : Exhaustive} {v : Value} (given : Symbolic s v)
    {c : Concretizer} {regions : List Region} (table : RegionTable.ofList regions = .ok c.regions)
    (inside : ∀ r ∈ c.regions.regions, r.last ≤ mask v.width) (machine : c.limit < 2 ^ 63)
    {strategies : List Strategy} (known : ∀ name, .unknown name ∉ strategies) (session : Session) :
    match c.concretize v strategies session with
    | .ok found _ =>
      (∃ x, possible s v = {x} ∧ found = ⟨x, []⟩) ∨
      (possible s v).Nontrivial ∧ ∃ before strategy after,
        strategies = before ++ strategy :: after ∧
        (∀ earlier ∈ before, ¬ earlier.Applies c (possible s v)) ∧
        strategy.Applies c (possible s v) ∧ strategy.Yields c (possible s v) found
    | .error f _ =>
      s.solver.Reports f ∨ (possible s v = ∅ ∧ f = .error .unsatAddress) ∨
      ((possible s v).Nontrivial ∧ (∀ strategy ∈ strategies, ¬ strategy.Applies c (possible s v)) ∧
        f = .error .unresolvableAddress) ∨
      ¬ Vars.OneWidth ((v.expr :: v.constraints).flatMap Expr.occurrences) ∧ ∃ fault, f = .fault fault := by
  by_cases one : Vars.OneWidth ((v.expr :: v.constraints).flatMap Expr.occurrences)
  · have asks : Asks s v := { given with one := one }
    obtain ⟨forward, ascending⟩ := RegionTable.ofList_ok table
    have uncut : ∀ r ∈ c.regions.regions, r.cut v.expr.width = r := fun r inTable =>
      Region.cut_eq asks.width_le (forward r inTable) (inside r inTable)
    have chosen : (possible s v).Nontrivial → ∀ strategy ∈ strategies,
        Ensures (c.choose v strategy) (Chosen c (possible s v) strategy) s.solver.Reports := by
      intro nontrivial strategy member
      apply choose_right asks uncut machine ascending nontrivial.nonempty
      rintro name rfl
      exact known name member
    have right := concretize_right asks chosen session
    cases result : c.concretize v strategies session with
    | ok found left =>
        rw [result] at right
        exact right
    | error f left =>
        rw [result] at right
        rcases right with reports | empty | none_
        · exact .inl reports
        · exact .inr (.inl empty)
        · exact .inr (.inr (.inl none_))
  · have right := given.concretize_faults one c strategies session
    cases result : c.concretize v strategies session with
    | ok found left =>
        rw [result] at right
        cases right
    | error f left =>
        rw [result] at right
        rcases right with reports | empty | fault
        · exact .inl reports
        · exact .inr (.inl empty)
        · exact .inr (.inr (.inr ⟨one, fault⟩))

/-- No executable region can hold the address, and so all its values are listed. -/
theorem concretize_meets_strategies_near :
    let x : Expr := .var none ⟨"x", 8⟩
    let s := Exhaustive.bound {} "x" 3 7
    let v : Value := ⟨some s.solver, [.binary none .ule (.const none ⟨5, 8⟩) x], x⟩
    let c : Concretizer := { limit := 3, regions := ⟨[⟨0, 4, .execute⟩, ⟨5, 255, .write⟩]⟩ }
    RegionTable.ofList [⟨5, 255, .write⟩, ⟨0, 4, .execute⟩] = .ok c.regions ∧
      (∃ left, c.concretize v [.executable, .symbolic] {} = .ok ⟨5, [6, 7]⟩ left) ∧
      ∀ y, y ∈ [5, 6, 7] ↔ y ∈ possible s v := by
  intro x s v c
  have given : Symbolic s v := ⟨rfl, rfl, by decide, by decide⟩
  have table : RegionTable.ofList [⟨5, 255, .write⟩, ⟨0, 4, .execute⟩] = .ok c.regions := by cbv
  have answer : (match c.concretize v [.executable, .symbolic] {} with
      | .ok found _ => some found
      | .error _ _ => none) = some ⟨5, [6, 7]⟩ := by cbv
  have known : ∀ name, Strategy.unknown name ∉ [.executable, .symbolic] := by simp
  have right := concretize_meets_strategies given table (by decide) (by decide) known {}
  cases result : c.concretize v [.executable, .symbolic] {} with
  | error f left =>
      rw [result] at answer
      cases answer
  | ok found left =>
      rw [result] at answer right
      cases answer
      refine ⟨table, ⟨left, rfl⟩, ?_⟩
      rcases right with ⟨y, _, same⟩ | ⟨_, before, strategy, after, split, _, _, yields⟩
      · cases same
      · rcases before with _ | ⟨first, _ | ⟨second, rest⟩⟩
        · cases split
          cases yields.1
        · cases split
          exact yields.2
        · simp at split

end Concretizer

end SymbolicMemory
