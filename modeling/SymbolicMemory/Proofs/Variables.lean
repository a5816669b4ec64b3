import SymbolicMemory.Proofs.Search

/-! # The list of variables

The variables of expressions are listed in ascending order of names. So no name stands twice in
the list, and a list that was found shows that every name has one width.
-/

namespace SymbolicMemory

namespace Vars

/-- Names ascend, so that none of them stands twice. -/
def Sorted (vars : List Var) : Prop := vars.Pairwise fun u v => compare u.name v.name = .lt

theorem OneWidth.eq {vars : List Var} (one : OneWidth vars) {u v : Var} (hu : u ∈ vars)
    (hv : v ∈ vars) (same : u.name = v.name) : u = v := by
  have width := one u hu v hv same
  cases u; cases v
  simp_all

theorem mem_insert {v : Var} {vars all : List Var} (inserted : insert v vars = .ok all) (u : Var) :
    u ∈ all ↔ u = v ∨ u ∈ vars := by
  induction vars generalizing all with
  | nil =>
      cases inserted
      simp
  | cons w rest ih =>
      unfold insert at inserted
      split at inserted
      · cases inserted
        simp
      · next equal =>
        split at inserted
        · next width =>
          cases inserted
          have same : w = v := by
            cases w; cases v
            simp_all
          simp [same]
        · cases inserted
      · cases deeper : insert v rest with
        | error fault =>
            rw [deeper] at inserted
            cases inserted
        | ok more =>
            rw [deeper] at inserted
            cases inserted
            simp only [List.mem_cons, ih deeper]
            exact or_left_comm

theorem insert_sorted {v : Var} {vars all : List Var} (sorted : Sorted vars)
    (inserted : insert v vars = .ok all) : Sorted all := by
  induction vars generalizing all with
  | nil =>
      cases inserted
      exact List.pairwise_singleton _ _
  | cons w rest ih =>
      obtain ⟨first, later⟩ := List.pairwise_cons.mp sorted
      unfold insert at inserted
      split at inserted
      · next before =>
        cases inserted
        refine List.pairwise_cons.mpr ⟨?_, sorted⟩
        intro u member
        cases member with
        | head => exact before
        | tail _ member => exact Std.TransCmp.lt_trans before (first u member)
      · split at inserted
        · cases inserted
          exact sorted
        · cases inserted
      · next after =>
        cases deeper : insert v rest with
        | error fault =>
            rw [deeper] at inserted
            cases inserted
        | ok more =>
            rw [deeper] at inserted
            cases inserted
            refine List.pairwise_cons.mpr ⟨?_, ih later deeper⟩
            intro u member
            cases (mem_insert deeper u).mp member with
            | inl same => exact same ▸ Std.OrientedCmp.lt_of_gt after
            | inr member => exact first u member

/-- What was found is sorted, and has the variables that occur and no others. -/
theorem find_spec {es : List Expr} {vars : List Var} (found : find es = .ok vars) :
    Sorted vars ∧ ∀ u, u ∈ vars ↔ u ∈ es.flatMap Expr.occurrences := by
  have collected : ∀ (new before all : List Var), Sorted before →
      new.foldlM (fun found v => insert v found) before = .ok all →
      Sorted all ∧ ∀ u, u ∈ all ↔ u ∈ before ∨ u ∈ new := by
    intro new
    induction new with
    | nil =>
        intro before all sorted done
        cases done
        simp [sorted]
    | cons v rest ih =>
        intro before all sorted done
        rw [List.foldlM_cons] at done
        cases inserted : insert v before with
        | error fault =>
            rw [inserted] at done
            cases done
        | ok more =>
            rw [inserted] at done
            obtain ⟨allSorted, members⟩ := ih more all (insert_sorted sorted inserted) done
            refine ⟨allSorted, fun u => ?_⟩
            rw [members, mem_insert inserted, List.mem_cons, or_assoc, or_left_comm]
  obtain ⟨sorted, members⟩ := collected _ [] vars List.Pairwise.nil found
  exact ⟨sorted, fun u => by simpa using members u⟩

theorem Sorted.name_inj {vars : List Var} (sorted : Sorted vars) {u v : Var} (hu : u ∈ vars)
    (hv : v ∈ vars) (same : u.name = v.name) : u = v := by
  induction vars with
  | nil => cases hu
  | cons w rest ih =>
      obtain ⟨first, later⟩ := List.pairwise_cons.mp sorted
      have apart : ∀ x ∈ rest, w.name ≠ x.name := by
        intro x member equal
        have less := first x member
        rw [equal, Std.compare_self] at less
        cases less
      cases hu with
      | head =>
          cases hv with
          | head => rfl
          | tail _ hv => exact absurd same (apart v hv)
      | tail _ hu =>
          cases hv with
          | head => exact absurd same.symm (apart u hu)
          | tail _ hv => exact ih later hu hv

/-- A list of variables is found only where every name has one width. -/
theorem oneWidth_of_find {es : List Expr} {vars : List Var} (found : find es = .ok vars) :
    OneWidth (es.flatMap Expr.occurrences) := by
  obtain ⟨sorted, members⟩ := find_spec found
  intro u hu v hv same
  rw [sorted.name_inj ((members u).mpr hu) ((members v).mpr hv) same]

end Vars

end SymbolicMemory
