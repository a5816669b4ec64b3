import Mathlib
import SymbolicMemory.Proofs.Accepted
import SymbolicMemory.Proofs.Access
import SymbolicMemory.Proofs.TirelessSolver

/-! # A range is listed whole or by its low end

The addresses between two ends are asked for as the values of one variable under two constraints.
With a search that tries no more than its budget allows, every question about that variable is
answered, and so the call succeeds: it shows the whole range if this is shorter than the limit, and
the low end otherwise.
-/

namespace SymbolicMemory

namespace Action

variable {α : Type} {returns : α → Prop}

theorem run_ensures {x : Run α} (h : Ensures x returns fun _ => False) : Ensures (run x) returns fun _ => False := by
  intro session
  have here := h session
  unfold run
  cases result : x session with
  | ok a left =>
      rw [result] at here
      exact here
  | error f left =>
      rw [result] at here
      exact here

theorem afterwards_ensures {x : Action α} {last : Action Unit} (h : Ensures x returns fun _ => False)
    (ends : Ensures last (fun _ => True) fun _ => False) : Ensures (afterwards x last) returns fun _ => False := by
  intro session
  have here := h session
  unfold afterwards
  cases result : x session with
  | ok a left =>
      rw [result] at here
      have both : Ensures (do last; return a : Action α) returns fun _ => False := ends.bind fun _ _ => .pure here
      exact both left
  | error e left =>
      rw [result] at here
      exact here.elim

end Action

namespace RangeRequest

variable {r : RangeRequest} {bits : UInt64}

/-- The addresses from the low end to the high end. -/
def addresses (r : RangeRequest) : List UInt64 :=
  (List.range (r.hi.toNat - r.lo.toNat + 1)).map fun i => r.lo + UInt64.ofNat i

/-- The whole range if it is shorter than a limit, and its low end otherwise. -/
def shown (r : RangeRequest) (limit : Int) : List UInt64 :=
  if (r.hi.toNat : Int) - r.lo.toNat < limit then r.addresses else [r.lo]

section Addresses

variable (ordered : r.lo ≤ r.hi)

include ordered

theorem add_toNat {i : Nat} (small : i ≤ r.hi.toNat - r.lo.toNat) :
    (r.lo + UInt64.ofNat i).toNat = r.lo.toNat + i := by
  have le := UInt64.le_iff_toNat_le.mp ordered
  have top := r.hi.toNat_lt
  rw [UInt64.toNat_add, UInt64.toNat_ofNat']
  omega

theorem addresses_ascending : r.addresses.Pairwise (· < ·) := by
  rw [addresses, List.pairwise_map]
  refine List.pairwise_lt_range.imp_of_mem fun {i j} hi hj less => ?_
  rw [List.mem_range] at hi hj
  rw [UInt64.lt_iff_toNat_lt, add_toNat ordered (by omega), add_toNat ordered (by omega)]
  omega

theorem mem_addresses (x : UInt64) : x ∈ r.addresses ↔ r.lo ≤ x ∧ x ≤ r.hi := by
  have le := UInt64.le_iff_toNat_le.mp ordered
  rw [addresses, List.mem_map, UInt64.le_iff_toNat_le, UInt64.le_iff_toNat_le]
  constructor
  · rintro ⟨i, inside, rfl⟩
    rw [List.mem_range] at inside
    rw [add_toNat ordered (by omega)]
    omega
  · rintro ⟨above, below⟩
    refine ⟨x.toNat - r.lo.toNat, List.mem_range.mpr (by omega), UInt64.toNat_inj.mp ?_⟩
    rw [add_toNat ordered (by omega)]
    omega

/-- Nothing else is an ascending list of the addresses in the range. -/
theorem eq_addresses {found : List UInt64} (ascending : found.Pairwise (· < ·))
    (members : ∀ x, x ∈ found ↔ r.lo ≤ x ∧ x ≤ r.hi) : found = r.addresses :=
  ascending.eq_of_mem_iff (addresses_ascending ordered) fun x => (members x).trans (mem_addresses ordered x).symm

end Addresses

/-- A variable for the address, with constraints that it lies in the range. -/
structure Poses (r : RangeRequest) (bits : UInt64) (solver : Solver) (v : Value) : Prop where
  solver_eq : v.solver = some solver
  expr_eq : ∃ tag, v.expr = .var tag ⟨"addr", bits⟩
  conditions : ∀ c ∈ v.constraints, c.Condition
  vars_subset : v.constraints.flatMap Expr.occurrences ⊆ [⟨"addr", bits⟩]
  holds_iff : ∀ ρ, Holds ρ v.constraints ↔
    r.lo.toNat ≤ v.expr.meaning ρ ∧ v.expr.meaning ρ ≤ r.hi.toNat

theorem address_poses (bounds : 0 < bits ∧ bits ≤ 64) (ordered : r.lo ≤ r.hi)
    (inside : r.hi.toNat < 2 ^ bits.toNat) (solver : Solver) :
    Ensures (r.address bits solver) (r.Poses bits solver) fun _ => False := by
  have le := UInt64.le_iff_toNat_le.mp ordered
  unfold address
  have named : Expr.named "addr" bits = .ok (.var none ⟨"addr", bits⟩) := if_pos bounds
  rw [named]
  refine (Session.make_erase _).bind fun addr same => ?_
  obtain ⟨tag, rfl⟩ := Store.eq_var_of_erase same
  have wf : (Expr.var tag ⟨"addr", bits⟩).WellFormed := bounds
  refine (Session.make_when (Expr.constant_when .uge rfl wf r.lo)).bind fun above aboveStates => ?_
  refine (Session.make_when (Expr.constant_when .ule rfl wf r.hi)).bind fun below belowStates => ?_
  refine .pure ⟨rfl, ⟨tag, rfl⟩, ?_, ?_, fun ρ => ?_⟩
  · simp [aboveStates.condition, belowStates.condition]
  · simpa using ⟨aboveStates.vars_subset, belowStates.vars_subset⟩
  · have small := Expr.meaning_lt ρ wf
    have loSmall : r.lo.toNat % 2 ^ bits.toNat = r.lo.toNat := Nat.mod_eq_of_lt (by omega)
    have hiSmall : r.hi.toNat % 2 ^ bits.toNat = r.hi.toNat := Nat.mod_eq_of_lt inside
    have aboveIff := aboveStates.holds_iff ρ
    have belowIff := belowStates.holds_iff ρ
    simp only [Expr.width, loSmall, hiSmall] at aboveIff belowIff small
    rw [Op.meaning_uge, Op.meaning_ule (by omega) small] at aboveIff
    rw [Op.meaning_ule small inside] at belowIff
    simp [Holds, aboveIff, belowIff]

theorem Poses.known_subset {solver : Solver} {v : Value} (poses : r.Poses bits solver v) :
    (v.expr :: v.constraints).flatMap Expr.occurrences ⊆ [⟨"addr", bits⟩] := by
  obtain ⟨tag, is⟩ := poses.expr_eq
  refine List.append_subset.mpr ⟨?_, poses.vars_subset⟩
  rw [is]
  exact List.Subset.refl _

/-- The search of the backend that is always there. -/
def search (r : RangeRequest) : Exhaustive := ({} : Exhaustive).bound "addr" r.lo r.hi

section Search

variable (ordered : r.lo ≤ r.hi)

include ordered

theorem search_bound : r.search.bounds "addr" = some ⟨r.lo, r.hi, ordered⟩ := by
  simp [search, Exhaustive.bound, Range.between, UInt64.not_lt.mpr ordered]

theorem search_domain (bits : UInt64) : r.search.domain ⟨"addr", bits⟩ = ⟨r.lo, r.hi, ordered⟩ := by
  rw [Exhaustive.domain, search_bound ordered]
  rfl

/-- A range that the budget covers is searched to the end. -/
theorem search_tireless (near : r.hi.toNat - r.lo.toNat < 2 ^ 22) (bits : UInt64) :
    r.search.solver.Tireless [⟨"addr", bits⟩] := by
  apply Exhaustive.tireless_of_size_le
  · rw [Exhaustive.isSearchable, Exhaustive.isBounded, search_bound ordered]
    rfl
  · rw [search_domain ordered]
    exact near

variable {v : Value} (poses : r.Poses bits r.search.solver v) (bounds : 0 < bits ∧ bits ≤ 64)

include poses bounds

omit ordered in
theorem Poses.asks : Concretizer.Asks r.search v := by
  obtain ⟨tag, is⟩ := poses.expr_eq
  refine ⟨⟨poses.solver_eq, ?_, ?_, poses.conditions⟩, fun u hu w hw _ => ?_⟩
  · rw [Value.isSymbolic, is]
    rfl
  · rw [is]
    exact bounds
  · rw [List.mem_singleton.mp (poses.known_subset hu), List.mem_singleton.mp (poses.known_subset hw)]

theorem Poses.possible_eq (inside : r.hi.toNat < 2 ^ bits.toNat) :
    Concretizer.possible r.search v = {x | r.lo ≤ x ∧ x ≤ r.hi} := by
  obtain ⟨tag, is⟩ := poses.expr_eq
  ext x
  rw [(poses.asks bounds).mem_possible]
  constructor
  · rintro ⟨ρ, _, holds, value⟩
    rw [poses.holds_iff, value] at holds
    exact ⟨UInt64.le_iff_toNat_le.mpr holds.1, UInt64.le_iff_toNat_le.mpr holds.2⟩
  · rintro ⟨above, below⟩
    have small := UInt64.le_iff_toNat_le.mp below
    have value : v.expr.meaning (fun _ => x) = x.toNat := by
      rw [is]
      exact Nat.mod_eq_of_lt (Nat.lt_of_le_of_lt small inside)
    refine ⟨fun _ => x, fun u occurs => ?_, ?_, value⟩
    · rw [List.mem_singleton.mp (poses.known_subset occurs), Exhaustive.Admits, search_bound ordered]
      exact ⟨above, below⟩
    · rw [poses.holds_iff, value]
      exact ⟨UInt64.le_iff_toNat_le.mp above, small⟩

/-- The value at the low end. -/
theorem Poses.value_lowEnds (inside : r.hi.toNat < 2 ^ bits.toNat) :
    (v.expr.value r.search.lowEnds).value = r.lo := by
  have asks := poses.asks bounds
  have le := UInt64.le_iff_toNat_le.mp ordered
  obtain ⟨tag, is⟩ := poses.expr_eq
  apply UInt64.toNat_inj.mp
  rw [Expr.value_toNat _ asks.wellFormed, is, Expr.meaning, ← Exhaustive.domain_lowEnds, search_domain ordered]
  exact Nat.mod_eq_of_lt (Nat.lt_of_le_of_lt le inside)

omit poses bounds in
/-- The values of a range lie close enough if its ends do. -/
theorem applies_iff {c : Concretizer} (positive : 0 < c.limit) :
    Strategy.symbolic.Applies c {x | r.lo ≤ x ∧ x ≤ r.hi} ↔ (r.hi.toNat : Int) - r.lo.toNat < c.limit := by
  have lo : r.lo ∈ {x | r.lo ≤ x ∧ x ≤ r.hi} := ⟨UInt64.le_refl _, ordered⟩
  have hi : r.hi ∈ {x | r.lo ≤ x ∧ x ≤ r.hi} := ⟨ordered, UInt64.le_refl _⟩
  rw [Strategy.Applies, if_neg (Int.not_le.mpr positive)]
  constructor
  · rintro ⟨least, leastMember, greatest, greatestMember, ends, close⟩
    rwa [UInt64.le_antisymm (ends _ lo).1 leastMember.1, UInt64.le_antisymm greatestMember.2 (ends _ hi).2] at close
  · exact fun close => ⟨r.lo, lo, r.hi, hi, fun _ member => member, close⟩

/-- What is found for a range: all of it if it is shorter than the limit, and its low end otherwise. -/
theorem Poses.concretize_shown (inside : r.hi.toNat < 2 ^ bits.toNat) (near : r.hi.toNat - r.lo.toNat < 2 ^ 22)
    {c : Concretizer} (positive : 0 < c.limit) (machine : c.limit < 2 ^ 63) :
    Ensures (c.concretize v [.symbolic, .any]) (fun found => found.toList = r.shown c.limit) fun _ => False := by
  have asks := poses.asks bounds
  have low := poses.value_lowEnds ordered bounds inside
  have holds : Holds r.search.lowEnds v.constraints := by
    have le := UInt64.le_iff_toNat_le.mp ordered
    rw [poses.holds_iff, ← Expr.value_toNat _ asks.wellFormed, low]
    exact ⟨Nat.le_refl _, le⟩
  have alone : v.constraints.flatMap Expr.occurrences ⊆ v.expr.occurrences := by
    obtain ⟨tag, is⟩ := poses.expr_eq
    rw [is]
    exact poses.vars_subset
  have tireless := (search_tireless ordered near bits).mono poses.known_subset
  have applies_iff := applies_iff ordered positive
  rw [← poses.possible_eq ordered bounds inside] at applies_iff
  refine (Concretizer.concretize_allOrLow asks tireless machine alone holds).mono (fun found right => ?_) fun _ h => h
  rw [shown]
  rcases right with ⟨applies, ascending, members⟩ | ⟨far, single⟩
  · rw [if_pos (applies_iff.mp applies)]
    rw [poses.possible_eq ordered bounds inside] at members
    exact eq_addresses ordered ascending members
  · rw [if_neg (fun close => far (applies_iff.mpr close)), single, low]

end Search

theorem check_ok (ordered : r.lo ≤ r.hi) (inside : r.hi.toNat < 2 ^ bits.toNat) : r.check bits = .ok () := by
  unfold check
  rw [if_neg (UInt64.not_lt.mpr ordered), if_neg]
  -- The size of the address space fits a word unless it has 64 bits, which the check leaves out.
  rintro ⟨narrow, beyond⟩
  have small : bits.toNat < 64 := UInt64.lt_iff_toNat_lt.mp narrow
  have fits : 2 ^ bits.toNat < 2 ^ 64 := Nat.pow_lt_pow_right (by decide) small
  have power : ((1 : UInt64) <<< bits).toNat = 2 ^ bits.toNat := by
    rw [UInt64.toNat_shiftLeft, Nat.mod_eq_of_lt small, UInt64.toNat_one, Nat.one_shiftLeft, Nat.mod_eq_of_lt fits]
  rw [UInt64.le_iff_toNat_le, power] at beyond
  omega

section Listing

variable {config : Config} (accepted : config.Accepted) (machine : IsMachine r.limit) (ordered : r.lo ≤ r.hi)
  (inside : r.hi.toNat < 2 ^ config.bits.toNat) (near : r.hi.toNat - r.lo.toNat < 2 ^ 22)

include accepted machine ordered inside near

theorem resolve_shown :
    Ensures (r.resolve config [.symbolic, .any] (Backend.exhaustive {}))
      (fun found => found.toList = r.shown (r.effectiveLimit config)) fun _ => False := by
  obtain ⟨bounds, _, positive, regions, table⟩ := Config.validate_ok accepted.valid
  have limit : 0 < r.effectiveLimit config ∧ r.effectiveLimit config < 2 ^ 63 := by
    unfold effectiveLimit
    split
    · next given => exact ⟨given, machine.2⟩
    · exact ⟨positive, accepted.limit_machine.2⟩
  unfold resolve
  rw [table]
  refine (address_poses bounds ordered inside _).bind fun v poses => ?_
  refine (Session.record_succeeds _).bind fun _ _ => ?_
  exact (poses.concretize_shown ordered bounds inside near limit.1 limit.2).tryCatch fun _ no => no.elim

theorem list_shown {backends : List (String × Backend)} (naive : backends.lookup r.solver = some (.exhaustive {}))
    (strategies : r.strategies = "symbolic,any") :
    Ensures (r.list backends config) (fun out =>
      out = String.join ((r.shown (r.effectiveLimit config)).map fun a => Text.hex a ++ "\n")) fun _ => False := by
  have parsed : Strategy.parseList "symbolic,any" = .ok [.symbolic, .any] := by cbv
  have found : Backend.find backends r.solver = .ok (.exhaustive {}) := by rw [Backend.find, naive]
  unfold list
  rw [check_ok ordered inside, strategies, parsed, found]
  have resolved := Action.run_ensures (resolve_shown accepted machine ordered inside near)
  refine (Action.afterwards_ensures resolved ?_).bind fun found same => .pure ?_
  · exact Action.run_ensures (.pure trivial)
  · rw [same]

end Listing

/-- A range of no more than 2^22 addresses that lies in the address space of an accepted
    configuration is listed without fail: every address in ascending order if the ends lie closer
    than the limit, which is that of the request if positive and else as configured, and the low end
    alone otherwise. -/
theorem report_lists_range {config : Config} (accepted : config.Accepted) {r : RangeRequest}
    (machine : IsMachine r.limit) (backends : List (String × Backend))
    (naive : backends.lookup r.solver = some (.exhaustive {})) (strategies : r.strategies = "symbolic,any")
    (ordered : r.lo ≤ r.hi) (inside : r.hi.toNat < 2 ^ config.bits.toNat) (near : r.hi.toNat - r.lo.toNat < 2 ^ 22)
    (verbose canceled : Bool) (image : Except Error Image) (session : Session) :
    let report := (Request.range r).report verbose backends canceled config image session
    let limit := if 0 < r.limit then r.limit else config.limit
    report.stop = none ∧ report.out = String.join ((r.shown limit).map fun a => Text.hex a ++ "\n") := by
  have listed := list_shown accepted machine ordered inside near naive strategies session
  intro report limit
  have reported : report = Report.ofResult verbose (r.list backends config session) := rfl
  rw [reported]
  cases result : r.list backends config session with
  | ok out left =>
      rw [result] at listed
      exact ⟨rfl, listed⟩
  | error e left =>
      rw [result] at listed
      exact listed.elim

/-- A range is listed whole below the limit of the default configuration, and by its low end where
    it is as long as the limit of the request, here in a space of two addresses. -/
theorem report_lists_range_at_limit :
    ((Request.range { lo := 16, hi := 18 }).report false Backend.standard false {} (.ok .empty) {}).out =
      "0x10\n0x11\n0x12\n" ∧
    ((Request.range { hi := 1, limit := 1 }).report false Backend.standard false { bits := 1 } (.ok .empty) {}).out =
      "0x0\n" := by
  have narrow : Config.Accepted { bits := 1 } :=
    ⟨Config.validate_of_no_regions (by decide) (by decide) (by decide) rfl, by decide⟩
  have first := report_lists_range Config.default_accepted (r := { lo := 16, hi := 18 }) (by decide)
    Backend.standard rfl rfl (by decide) (by decide) (by decide) false false (.ok .empty) {}
  have second := report_lists_range narrow (r := { hi := 1, limit := 1 }) (by decide)
    Backend.standard rfl rfl (by decide) (by decide) (by decide) false false (.ok .empty) {}
  refine ⟨first.2.trans ?_, second.2.trans ?_⟩
  · rfl
  · rfl

end RangeRequest

end SymbolicMemory
