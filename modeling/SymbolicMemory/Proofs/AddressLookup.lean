import Mathlib
import SymbolicMemory.Image
import SymbolicMemory.RegionTable

/-! # Looking addresses up

Regions and segments are put in address order, each is compared with its neighbour only, and an
address is looked up by halving. That is enough. Neighbours that are apart are so from all others,
because what lies between them has no length below zero; and in a list of that kind the ends and the
starts ascend together, so the one candidate that halving leaves is the only one. Which of two
segments that start at one address comes first makes no difference to this.
-/

namespace SymbolicMemory

/-! ## Regions -/

namespace Region

theorem contains_iff (r : Region) (x : UInt64) :
    r.contains x = true ↔ r.first.toNat ≤ x.toNat ∧ x.toNat ≤ r.last.toNat := by
  simp [contains, UInt64.le_iff_toNat_le]

/-- No address lies in both regions. -/
def Apart (r s : Region) : Prop := ∀ address, ¬(r.contains address = true ∧ s.contains address = true)

theorem Apart.symm {r s : Region} (apart : r.Apart s) : s.Apart r := fun address both =>
  apart address both.symm

/-- The first region runs forward and ends below the second. -/
def Before (r s : Region) : Prop := r.first ≤ r.last ∧ r.last < s.first

instance : Trans Before Before Before where
  trans := by
    intro r s t earlier later
    simp only [Before, UInt64.le_iff_toNat_le, UInt64.lt_iff_toNat_lt] at *
    omega

theorem Before.apart {r s : Region} (before : r.Before s) : r.Apart s := by
  intro address
  simp only [Before, UInt64.lt_iff_toNat_lt, contains_iff] at *
  omega

end Region

namespace RegionTable

/-- Neighbours are checked, so all regions are in place. -/
theorem checkFrom_ok_iff {previous : Option Region} {regions : List Region}
    (forward : ∀ p ∈ previous, p.first ≤ p.last) :
    checkFrom previous regions = .ok () ↔
      (∀ r ∈ regions, r.first ≤ r.last) ∧ (previous.toList ++ regions).Pairwise Region.Before := by
  rw [← List.isChain_iff_pairwise]
  fun_induction checkFrom previous regions with
  | case1 previous => cases previous <;> simp
  | case2 previous r rest reversed => simp [UInt64.not_le.mpr reversed]
  | case3 r rest ordered p overlaps =>
      simp [List.isChain_cons_cons, Region.Before, UInt64.not_lt.mpr overlaps]
  | case4 r rest ordered p apart ih =>
      simp only [Option.toList_some, List.singleton_append, List.mem_cons, forall_eq_or_imp,
        List.isChain_cons_cons] at ih ⊢
      have before : p.Before r := ⟨forward p rfl, UInt64.not_le.mp apart⟩
      simp [ih (by simpa using ordered), UInt64.not_lt.mp ordered, before]
  | case5 r rest ordered ih => simp [ih (by simpa using ordered), UInt64.not_lt.mp ordered]

theorem sorted_before_iff {regions : List Region} (forward : ∀ r ∈ regions, r.first ≤ r.last) :
    (regions.mergeSort fun r s => r.first ≤ s.first).Pairwise Region.Before ↔ regions.Pairwise Region.Apart := by
  have perm := List.mergeSort_perm regions fun r s => r.first ≤ s.first
  rw [← perm.pairwise_iff Region.Apart.symm]
  refine ⟨fun before => before.imp Region.Before.apart, fun apart => ?_⟩
  refine (apart.and (pairwise_sorted Region.first regions)).imp_of_mem ?_
  intro r s inTable alsoInTable both
  have above := UInt64.le_iff_toNat_le.mp both.2
  have ordered := UInt64.le_iff_toNat_le.mp (forward s (perm.mem_iff.mp alsoInTable))
  refine ⟨forward r (perm.mem_iff.mp inTable), UInt64.lt_iff_toNat_lt.mpr (Nat.not_le.mp fun overlap => ?_)⟩
  -- otherwise the later one starts within the earlier one
  exact both.1 s.first (by simp only [Region.contains_iff]; omega)

theorem ofList_ok_iff {regions : List Region} {table : RegionTable} :
    ofList regions = .ok table ↔
      ((∀ r ∈ regions, r.first ≤ r.last) ∧ regions.Pairwise Region.Apart) ∧
        table.regions = regions.mergeSort fun r s => r.first ≤ s.first := by
  have check : checkFrom none (regions.mergeSort fun r s => r.first ≤ s.first) = .ok () ↔
      (∀ r ∈ regions, r.first ≤ r.last) ∧ regions.Pairwise Region.Apart := by
    rw [checkFrom_ok_iff (by simp), Option.toList_none, List.nil_append]
    simp only [List.mem_mergeSort]
    exact and_congr_right sorted_before_iff
  rw [← check, ofList]
  cases checkFrom none (regions.mergeSort fun r s => r.first ≤ s.first) with
  | error e => simp [bind, Except.bind]
  | ok done =>
      cases table
      simp [bind, Except.bind, pure, Except.pure, eq_comm]

/-- The regions of a table run forward, and each lies before the next. -/
theorem ofList_before {regions : List Region} {table : RegionTable} (made : ofList regions = .ok table) :
    table.regions.Perm regions ∧ (∀ r ∈ table.regions, r.first ≤ r.last) ∧
      table.regions.Pairwise Region.Before := by
  obtain ⟨⟨forward, apart⟩, same⟩ := ofList_ok_iff.mp made
  have perm := List.mergeSort_perm regions fun r s => r.first ≤ s.first
  rw [same]
  exact ⟨perm, fun r inTable => forward r (perm.mem_iff.mp inTable), (sorted_before_iff forward).mpr apart⟩

theorem ofList_ok {regions : List Region} {table : RegionTable} (made : ofList regions = .ok table) :
    (∀ r ∈ table.regions, r.first ≤ r.last) ∧
      table.regions.Pairwise (fun a b => a.first < b.first) := by
  obtain ⟨_, forward, before⟩ := ofList_before made
  exact ⟨forward, before.imp fun h => UInt64.lt_of_le_of_lt h.1 h.2⟩

/-- Where regions lie before each other, an address is found in the one that holds it. -/
theorem lookup_eq_some_iff {table : RegionTable} (forward : ∀ r ∈ table.regions, r.first ≤ r.last)
    (before : table.regions.Pairwise Region.Before) {address : UInt64} {r : Region} :
    table.lookup address = some r ↔ r ∈ table.regions ∧ r.contains address = true := by
  rw [lookup, Option.filter_eq_some_iff]
  refine and_congr_left fun holds => ⟨List.mem_of_getElem?, fun inTable => ?_⟩
  obtain ⟨earlier, later, split⟩ := List.append_of_mem inTable
  rw [split] at before forward ⊢
  obtain ⟨_, fromHere, ahead⟩ := List.pairwise_append.mp before
  have inside := (r.contains_iff address).mp holds
  have place : firstPlace (fun r => decide (address ≤ r.last)) (earlier ++ r :: later) = earlier.length := by
    apply firstPlace_append
    · intro p isEarlier
      have below := UInt64.lt_iff_toNat_lt.mp (ahead p isEarlier r List.mem_cons_self).2
      simp only [decide_eq_false_iff_not, UInt64.le_iff_toNat_le]
      omega
    · intro s isHere
      simp only [decide_eq_true_iff, UInt64.le_iff_toNat_le]
      rcases List.mem_cons.mp isHere with rfl | isLater
      · exact inside.2
      · have above := UInt64.lt_iff_toNat_lt.mp ((List.pairwise_cons.mp fromHere).1 s isLater).2
        have ordered := UInt64.le_iff_toNat_le.mp (forward s (by simp [isLater]))
        omega
  simp [place]

/-- A table can be made of exactly those regions that run forward and share no address, and then
    it lists them in ascending order. An address is looked up in it without fail. -/
theorem ofList_lookup_exact (regions : List Region) :
    ((∃ table, ofList regions = .ok table) ↔
        (∀ r ∈ regions, r.first ≤ r.last) ∧ regions.Pairwise Region.Apart) ∧
      ∀ table, ofList regions = .ok table →
        table.regions.Perm regions ∧ table.regions.Pairwise (fun r s => r.first < s.first) ∧
          ∀ (address : UInt64) (r : Region),
            table.lookup address = some r ↔ r ∈ table.regions ∧ r.contains address = true := by
  refine ⟨⟨?_, ?_⟩, ?_⟩
  · rintro ⟨table, made⟩
    exact (ofList_ok_iff.mp made).1
  · intro fit
    exact ⟨_, ofList_ok_iff.mpr ⟨fit, rfl⟩⟩
  · intro table made
    obtain ⟨perm, forward, before⟩ := ofList_before made
    exact ⟨perm, (ofList_ok made).2, fun address r => lookup_eq_some_iff forward before⟩

/-- The lowest and the highest address, each a region of its own. -/
theorem ofList_lookup_exact_at_ends :
    let low : Region := ⟨0, 0, .none⟩
    let high : Region := ⟨0xffffffffffffffff, 0xffffffffffffffff, .none⟩
    ofList [high, low] = .ok ⟨[low, high]⟩ ∧
      lookup ⟨[low, high]⟩ 0xffffffffffffffff = some high ∧ lookup ⟨[low, high]⟩ 1 ≠ some low := by
  intro low high
  have made : ofList [high, low] = .ok ⟨[low, high]⟩ := by cbv
  have exactly := ((ofList_lookup_exact [high, low]).2 _ made).2.2
  exact ⟨made, (exactly _ _).mpr (by decide), mt (exactly _ _).mp (by decide)⟩

end RegionTable

/-! ## Segments -/

namespace Segment

/-- The segment has a byte for an address. -/
def Covers (s : Segment) (address : UInt64) : Prop :=
  ∃ i, i < s.data.size ∧ address.toNat = s.base.toNat + i

/-- No address has a byte in both segments. -/
def Apart (s t : Segment) : Prop := ∀ address, ¬(s.Covers address ∧ t.Covers address)

theorem Apart.symm {s t : Segment} (apart : s.Apart t) : t.Apart s := fun address both =>
  apart address both.symm

/-- The first segment ends below the second. -/
def Before (s t : Segment) : Prop := s.base.toNat + s.data.size ≤ t.base.toNat

instance : Trans Before Before Before where
  trans := by
    intro s t u earlier later
    simp only [Before] at *
    omega

theorem Before.apart {s t : Segment} (before : s.Before t) : s.Apart t := by
  rintro address ⟨⟨i, small, at_⟩, j, _, alsoAt⟩
  simp only [Before] at before
  omega

theorem byteAt_eq_some_iff {s : Segment} {address : UInt64} {b : UInt8} :
    s.byteAt address = some b ↔ ∃ i, s.data[i]? = some b ∧ address.toNat = s.base.toNat + i := by
  unfold byteAt
  split
  · next below =>
    have := UInt64.lt_iff_toNat_lt.mp below
    simp only [reduceCtorEq, false_iff, not_exists, not_and]
    omega
  · next from_ =>
    have le := UInt64.not_lt.mp from_
    have := UInt64.le_iff_toNat_le.mp le
    rw [UInt64.toNat_sub_of_le _ _ le]
    constructor
    · intro found
      exact ⟨_, found, by omega⟩
    · rintro ⟨i, found, at_⟩
      rwa [show address.toNat - s.base.toNat = i by omega]

theorem Covers.exists_byteAt {s : Segment} {address : UInt64} (covers : s.Covers address) :
    ∃ b, s.byteAt address = some b := by
  obtain ⟨i, inside, at_⟩ := covers
  exact ⟨_, byteAt_eq_some_iff.mpr ⟨i, Array.getElem?_eq_getElem inside, at_⟩⟩

theorem covers_of_byteAt {s : Segment} {address : UInt64} {b : UInt8} (found : s.byteAt address = some b) :
    s.Covers address := by
  obtain ⟨i, here, at_⟩ := byteAt_eq_some_iff.mp found
  exact ⟨i, (Array.getElem?_eq_some_iff.mp here).1, at_⟩

/-- The distance of two bases, as words, tells whether the lower segment reaches the other. -/
theorem distance_lt_length_iff {s t : Segment} (le : s.base ≤ t.base) (small : s.data.size < 2 ^ 63) :
    t.base - s.base < s.length ↔ ¬ s.Before t := by
  have above := UInt64.le_iff_toNat_le.mp le
  rw [UInt64.lt_iff_toNat_lt, UInt64.toNat_sub_of_le _ _ le, length, UInt64.toNat_ofNat',
    Nat.mod_eq_of_lt (by omega), Before]
  omega

end Segment

namespace Segments

theorem check_ok_iff {segments : List Segment} (small : ∀ s ∈ segments, s.data.size < 2 ^ 63)
    (ascending : segments.Pairwise fun s t => s.base ≤ t.base) :
    check segments = .ok () ↔ segments.Pairwise Segment.Before := by
  rw [← List.isChain_iff_pairwise]
  fun_induction check segments with
  | case1 => simp
  | case2 s => simp
  | case3 s t rest overlap =>
      have le := (List.pairwise_cons.mp ascending).1 t List.mem_cons_self
      have reaches := (Segment.distance_lt_length_iff le (small s List.mem_cons_self)).mp overlap
      simp [List.isChain_cons_cons, reaches]
  | case4 s t rest apart ih =>
      obtain ⟨above, ascending⟩ := List.pairwise_cons.mp ascending
      have reaches := Segment.distance_lt_length_iff (above t List.mem_cons_self) (small s List.mem_cons_self)
      rw [ih (fun u inRest => small u (List.mem_cons_of_mem s inRest)) ascending, List.isChain_cons_cons]
      simp [not_not.mp (mt reaches.mpr apart)]

/-- Where segments lie before each other, the last that starts at or below an address decides. -/
theorem byteAt_eq_some_iff {segments : List Segment} (before : segments.Pairwise Segment.Before)
    {address : UInt64} {b : UInt8} :
    byteAt segments address = some b ↔ ∃ s ∈ segments, s.byteAt address = some b := by
  unfold byteAt
  constructor
  · intro found
    split at found
    · cases found
    · next place at_ =>
      obtain ⟨s, here, byte⟩ := Option.bind_eq_some_iff.mp found
      exact ⟨s, List.mem_of_getElem? here, byte⟩
  · rintro ⟨s, listed, byte⟩
    obtain ⟨i, inside, at_⟩ := Segment.covers_of_byteAt byte
    obtain ⟨earlier, later, split⟩ := List.append_of_mem listed
    rw [split] at before ⊢
    obtain ⟨_, fromHere, ahead⟩ := List.pairwise_append.mp before
    have place : firstPlace (fun s => decide (address < s.base)) ((earlier ++ [s]) ++ later) =
        (earlier ++ [s]).length := by
      apply firstPlace_append
      · intro t isEarlier
        simp only [decide_eq_false_iff_not, UInt64.lt_iff_toNat_lt]
        rcases List.mem_append.mp isEarlier with isEarlier | isHere
        · have := ahead t isEarlier s List.mem_cons_self
          simp only [Segment.Before] at this
          omega
        · rw [List.mem_singleton.mp isHere]
          omega
      · intro t isLater
        have := (List.pairwise_cons.mp fromHere).1 t isLater
        simp only [Segment.Before, decide_eq_true_iff, UInt64.lt_iff_toNat_lt] at *
        omega
    rw [List.append_assoc, List.singleton_append] at place
    simp [place, byte]

section Making

variable {order : Arrangement} {segments : List Segment}

theorem ofList_ok_iff (small : ∀ s ∈ segments, s.data.size < 2 ^ 63) {sorted : List Segment} :
    ofList segments order = .ok sorted ↔
      (order.sort segments).Pairwise Segment.Before ∧ sorted = order.sort segments := by
  have small' : ∀ s ∈ order.sort segments, s.data.size < 2 ^ 63 := fun s listed =>
    small s ((order.perm segments).mem_iff.mp listed)
  rw [← check_ok_iff small' (order.ascending segments), ofList]
  cases check (order.sort segments) with
  | error e => simp [bind, Except.bind]
  | ok done => simp [bind, Except.bind, pure, Except.pure, eq_comm]

/-- Segments without an empty one are in place if they are apart. -/
theorem sorted_before_of_apart (filled : ∀ s ∈ segments, s.data ≠ #[]) (apart : segments.Pairwise Segment.Apart) :
    (order.sort segments).Pairwise Segment.Before := by
  have perm := order.perm segments
  rw [← perm.pairwise_iff Segment.Apart.symm] at apart
  refine (apart.and (order.ascending segments)).imp_of_mem ?_
  intro s t _ listed both
  have above := UInt64.le_iff_toNat_le.mp both.2
  have full := Array.size_pos_iff.mpr (filled t (perm.mem_iff.mp listed))
  refine Nat.not_lt.mp fun reaches => ?_
  exact both.1 t.base ⟨⟨t.base.toNat - s.base.toNat, by omega, by omega⟩, 0, full, by omega⟩

end Making

/-- However segments are put in address order, those that are let through share no address, and an
    address is looked up among them as if all were scanned. Segments with bytes are refused only if
    two of them share an address. -/
theorem ofList_byteAt_exact (order : Arrangement) (segments : List Segment)
    (small : ∀ s ∈ segments, s.data.size < 2 ^ 63) :
    (∀ sorted, ofList segments order = .ok sorted →
        segments.Pairwise Segment.Apart ∧
          (∀ (address : UInt64) (b : UInt8), byteAt sorted address = some b ↔
            ∃ s ∈ segments, ∃ i, s.data[i]? = some b ∧ address.toNat = s.base.toNat + i) ∧
          ∀ address, byteAt sorted address = none ↔ ∀ s ∈ segments, ¬ s.Covers address) ∧
      ((∀ s ∈ segments, s.data ≠ #[]) →
        ∀ e, ofList segments order = .error e → ¬ segments.Pairwise Segment.Apart) := by
  have perm := order.perm segments
  constructor
  · intro sorted made
    obtain ⟨before, rfl⟩ := (ofList_ok_iff small).mp made
    refine ⟨?_, ?_, ?_⟩
    · rw [← perm.pairwise_iff Segment.Apart.symm]
      exact before.imp Segment.Before.apart
    · intro address b
      simp only [byteAt_eq_some_iff before, perm.mem_iff, Segment.byteAt_eq_some_iff]
    · intro address
      rw [Option.eq_none_iff_forall_ne_some]
      simp only [ne_eq, byteAt_eq_some_iff before, perm.mem_iff, not_exists, not_and]
      constructor
      · intro missing s listed covers
        obtain ⟨b, found⟩ := covers.exists_byteAt
        exact missing b s listed found
      · intro missing b s listed found
        exact missing s listed (Segment.covers_of_byteAt found)
  · intro filled e refused apart
    rw [(ofList_ok_iff small).mpr ⟨sorted_before_of_apart filled apart, rfl⟩] at refused
    cases refused

/-- Segments that start at one address come in the opposite of the given order. -/
def Arrangement.reversing : Arrangement where
  sort segments := Arrangement.stable.sort segments.reverse
  perm segments := (Arrangement.stable.perm segments.reverse).trans segments.reverse_perm
  ascending segments := Arrangement.stable.ascending segments.reverse

/-- An empty segment where another starts is let through by an order that puts it first, and refused
    by one that does not. The last segment runs past the top. -/
theorem ofList_byteAt_exact_past_top :
    let empty : Segment := ⟨5, #[]⟩
    let one : Segment := ⟨5, #[7]⟩
    let last : Segment := ⟨0xffffffffffffffff, #[1, 2]⟩
    let under : Segment := ⟨4, #[8, 9]⟩
    (∀ s ∈ [last, one, empty], s.data.size < 2 ^ 63) ∧
      ofList [last, one, empty] = .error (.overlappingSegments 5 5) ∧
      ofList [last, one, empty] .reversing = .ok [empty, one, last] ∧
      byteAt [empty, one, last] 5 = some 7 ∧ byteAt [empty, one, last] 0xffffffffffffffff = some 1 ∧
      byteAt [empty, one, last] 0 = none ∧
      ofList [one, under] = .error (.overlappingSegments 4 5) ∧ ¬ [one, under].Pairwise Segment.Apart := by
  intro empty one last under
  have small : ∀ s ∈ [last, one, empty], s.data.size < 2 ^ 63 := by decide
  have made : ofList [last, one, empty] .reversing = .ok [empty, one, last] := by cbv
  have refused : ofList [one, under] = .error (.overlappingSegments 4 5) := by cbv
  obtain ⟨_, found, missing⟩ := (ofList_byteAt_exact .reversing [last, one, empty] small).1 _ made
  refine ⟨small, by cbv, made, (found 5 7).mpr ⟨one, by simp, 0, rfl, rfl⟩,
    (found _ 1).mpr ⟨last, by simp, 0, rfl, rfl⟩, (missing 0).mpr ?_, refused,
    (ofList_byteAt_exact .stable [one, under] (by decide)).2 (by decide) _ refused⟩
  simp [Segment.Covers, empty, one, last]
  omega

end Segments

end SymbolicMemory
