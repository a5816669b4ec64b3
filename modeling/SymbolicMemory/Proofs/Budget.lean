import SymbolicMemory.Proofs.Enumeration

/-! # The budget of a search

Every value that a search tries takes one off its budget, and nothing else depends on the budget.
So a search that ends leaves a larger budget larger by as much, with the same result. How much it
takes at most follows the list of variables: the values of the first one, and for each of them
what the rest of the list takes. A variable that is passed over only makes this less.
-/

namespace SymbolicMemory

/-- The number of values in a range. -/
def Range.size (r : Range) : Nat := r.hi.toNat - r.lo.toNat + 1

theorem Range.span_toNat (r : Range) : r.span.toNat + 1 = r.size := by
  rw [span, size, UInt64.toNat_sub_of_le _ _ r.ordered]

namespace Exhaustive

section Larger

variable {α β : Type}

/-- Wherever the first search ends, the second ends alike with any more budget, which is left over. -/
def Outlasts (x y : Search α) : Prop :=
  ∀ left a rest, x left = .ok a rest → ∀ more, y (left + more) = .ok a (rest + more)

namespace Outlasts

theorem pure (a : α) : Outlasts (Pure.pure a) (Pure.pure a) := by
  rintro left _ _ ⟨⟩ more
  rfl

theorem throw (f g : Failure) : Outlasts (MonadExcept.throw f : Search α) (MonadExcept.throw g) := by
  rintro left a rest ⟨⟩

theorem bind {x y : Search α} {f g : α → Search β} (first : Outlasts x y)
    (later : ∀ a, Outlasts (f a) (g a)) : Outlasts (x >>= f) (y >>= g) := by
  intro left b rest done more
  obtain ⟨a, mid, began, ended⟩ := ok_of_bind done
  simp only [Bind.bind, EStateM.bind, first left a mid began more, later a mid b rest ended more]

end Outlasts

variable {s t : Exhaustive}

theorem spend_outlasts (s t : Exhaustive) : Outlasts s.spend t.spend := by
  intro left a rest done more
  cases left with
  | zero => cases done
  | succ left =>
      cases done
      rw [Nat.succ_add]
      rfl

theorem sweep_outlasts {visit visit' : UInt64 → β → Search (Sweep β)}
    (visits : ∀ x gathered, Outlasts (visit x gathered) (visit' x gathered)) (count : Nat) (x : UInt64)
    (gathered : β) : Outlasts (s.sweep visit count x gathered) (t.sweep visit' count x gathered) := by
  induction count generalizing x gathered with
  | zero => exact (spend_outlasts s t).bind fun _ => visits x gathered
  | succ count ih =>
      refine (spend_outlasts s t).bind fun _ => (visits x gathered).bind fun outcome => ?_
      cases outcome with
      | done gathered => exact .pure _
      | more gathered => exact ih (x + 1) gathered

variable (same : s.bounds = t.bounds)

include same

theorem isBounded_congr : s.isBounded = t.isBounded := by
  funext v
  rw [isBounded, isBounded, same]

theorem domain_congr : s.domain = t.domain := by
  funext v
  rw [domain, domain, same]

theorem inOrder_congr : s.inOrder = t.inOrder := by
  have first : s.comesFirst = t.comesFirst := by
    funext u v
    rw [comesFirst, comesFirst, isBounded_congr same, domain_congr same]
  funext vars
  rw [inOrder, inOrder, first]

theorem sweepVar_outlasts {visit visit' : UInt64 → β → Search (Sweep β)}
    (visits : ∀ x gathered, Outlasts (visit x gathered) (visit' x gathered)) (v : Var) (gathered : β) :
    Outlasts (s.sweepVar v visit gathered) (t.sweepVar v visit' gathered) := by
  rw [sweepVar, sweepVar, isSearchable, isSearchable, isBounded_congr same, domain_congr same]
  split
  · exact sweep_outlasts visits _ _ _
  · exact .throw _ _

theorem branch_outlasts (vars : List Var) (pending : List Expr) (a : Assignment) :
    Outlasts (s.branch vars pending a) (t.branch vars pending a) := by
  induction vars generalizing pending a with
  | nil => exact .throw _ _
  | cons v rest ih =>
      rw [branch, branch]
      split
      · refine (sweepVar_outlasts same (fun x _ => ?_) v none).bind fun outcome => ?_
        · dsimp only
          split
          · exact .throw _ _
          · exact .pure _
          · exact .pure _
          · refine (ih _ _).bind fun outcome => ?_
            cases outcome <;> exact .pure _
        · cases outcome <;> exact .pure _
      · exact ih pending a

theorem search_outlasts (vars : List Var) (constraints : List Expr) (a : Assignment) :
    Outlasts (s.search vars constraints a) (t.search vars constraints a) := by
  unfold search
  split
  · exact .throw _ _
  · exact .pure _
  · exact .pure _
  · exact branch_outlasts same _ _ _

theorem project_outlasts (vars : List Var) (constraints : List Expr) (e : Expr) (limit : Nat)
    (projected : List Var) (pending : List Expr) (a : Assignment) (found : Std.TreeSet UInt64) :
    Outlasts (s.project vars constraints e limit projected pending a found)
      (t.project vars constraints e limit projected pending a found) := by
  induction projected generalizing pending a found with
  | nil =>
      rw [project, project]
      split
      · exact .throw _ _
      · exact .pure _
      · dsimp only
        split
        · exact .throw _ _
        · exact .throw _ _
        · split
          · exact .pure _
          · refine (search_outlasts same _ _ _).bind fun outcome => ?_
            cases outcome <;> exact .pure _
  | cons v rest ih =>
      rw [project, project]
      split
      · exact .throw _ _
      · exact .pure _
      · exact sweepVar_outlasts same (fun x found => ih _ _ found) v found

omit same

theorem run_outlasts {x y : Search α} (outlasts : Outlasts x y) (more : s.budget ≤ t.budget) {a : α}
    (done : x.run s = .ok a) : y.run t = .ok a := by
  unfold Search.run EStateM.run at done ⊢
  cases ended : x s.budget with
  | error f rest =>
      rw [ended] at done
      cases done
  | ok b rest =>
      rw [ended] at done
      cases done
      rw [← Nat.add_sub_cancel' more, outlasts _ _ _ ended]

include same

theorem solve_of_budget_le (more : s.budget ≤ t.budget) {constraints : List Expr} {vars : List Var}
    {r : Option (List UInt64)} (done : s.solve constraints vars = .ok r) :
    t.solve constraints vars = .ok r := by
  unfold solve at done ⊢
  cases collected : Vars.find constraints with
  | error fault =>
      rw [collected] at done
      cases done
  | ok all =>
      simp only [collected, Failure.ofFault, bind, Except.bind, ← inOrder_congr same, ← domain_congr same] at done ⊢
      cases ran : (s.search (s.inOrder all) constraints .empty).run s with
      | error f =>
          rw [ran] at done
          cases done
      | ok found =>
          rw [ran] at done
          rw [run_outlasts (search_outlasts same _ _ _) more ran]
          exact done

theorem enumerate_of_budget_le (more : s.budget ≤ t.budget) {constraints : List Expr} {e : Expr}
    {limit : Int} {r : List UInt64} (done : s.enumerate constraints e limit = .ok r) :
    t.enumerate constraints e limit = .ok r := by
  unfold enumerate at done ⊢
  split at done
  · next none_ => rwa [if_pos none_]
  · next some_ =>
    rw [if_neg some_]
    cases collected : Vars.find (e :: constraints) with
    | error fault =>
        rw [collected] at done
        cases done
    | ok all =>
        cases mine : Vars.find [e] with
        | error fault =>
            rw [collected, mine] at done
            cases done
        | ok projected =>
            simp only [collected, mine, Failure.ofFault, bind, Except.bind, ← inOrder_congr same] at done ⊢
            split at done
            · cases done
            · next outcome ran =>
              rw [run_outlasts (project_outlasts same _ _ _ _ _ _ _ _) more ran]
              exact done

end Larger

section Enough

variable {α β : Type} {s : Exhaustive}

/-- With a budget of at least `cost`, a search takes no more than that, and it fails at faults only. -/
def Affords (cost : Nat) (x : Search α) : Prop :=
  ∀ left, cost ≤ left → Ends x left (fun _ rest => left ≤ rest + cost) fun f _ => ∃ fault, f = .fault fault

namespace Affords

variable {cost more : Nat}

theorem pure (a : α) : Affords 0 (Pure.pure a : Search α) := fun _ _ => .pure (Nat.le_refl _)

theorem fault (fault : Fault) : Affords 0 (MonadExcept.throw (.fault fault) : Search α) :=
  fun _ _ => .throw ⟨fault, rfl⟩

theorem mono {x : Search α} (h : Affords cost x) (le : cost ≤ more) : Affords more x := by
  intro left enough
  have ends := h left (Nat.le_trans le enough)
  refine .intro (fun a rest done => ?_) fun f rest failed => ends.of_error failed
  exact Nat.le_trans (ends.of_ok done) (Nat.add_le_add_left le rest)

theorem bind {x : Search α} {f : α → Search β} (first : Affords cost x) (later : ∀ a, Affords more (f a)) :
    Affords (cost + more) (x >>= f) := by
  intro left enough
  refine (first left (by omega)).bind (fun _ _ faulty => faulty) fun a mid kept => ?_
  have ends := later a mid (by omega)
  refine .intro (fun b rest done => ?_) fun f rest failed => ends.of_error failed
  have left_ := ends.of_ok done
  omega

theorem andThen {x : Search α} {f : α → Search β} (first : Affords cost x) (later : ∀ a, Affords 0 (f a)) :
    Affords cost (x >>= f) := first.bind later

end Affords

theorem spend_affords (s : Exhaustive) : Affords 1 s.spend := by
  intro left enough
  cases left with
  | zero => cases enough
  | succ left => exact Nat.le_refl _

theorem sweep_affords {cost : Nat} {visit : UInt64 → β → Search (Sweep β)}
    (visits : ∀ x gathered, Affords cost (visit x gathered)) (count : Nat) (x : UInt64) (gathered : β) :
    Affords ((count + 1) * (1 + cost)) (s.sweep visit count x gathered) := by
  induction count generalizing x gathered with
  | zero =>
      rw [Nat.zero_add, Nat.one_mul]
      exact s.spend_affords.bind fun _ => visits x gathered
  | succ count ih =>
      rw [Nat.succ_mul, Nat.add_comm, Nat.add_assoc]
      refine s.spend_affords.bind fun _ => (visits x gathered).bind fun outcome => ?_
      cases outcome with
      | done gathered => exact (Affords.pure _).mono (Nat.zero_le _)
      | more gathered => exact ih (x + 1) gathered

theorem sweepVar_affords {cost : Nat} {visit : UInt64 → β → Search (Sweep β)}
    (visits : ∀ x gathered, Affords cost (visit x gathered)) {v : Var} (searchable : s.isSearchable v = true)
    (gathered : β) : Affords ((s.domain v).size * (1 + cost)) (s.sweepVar v visit gathered) := by
  rw [sweepVar, if_pos searchable, ← Range.span_toNat]
  exact sweep_affords visits _ _ _

/-- How many values there are to try for variables with domains of given sizes: those of the first,
    and for each of these the values for the others. -/
def tries : List Nat → Nat
  | [] => 0
  | size :: rest => size * (1 + tries rest)

theorem tries_eq_sum (sizes : List Nat) :
    tries sizes = ∑ i ∈ Finset.range sizes.length, (sizes.take (i + 1)).prod := by
  induction sizes with
  | nil => rfl
  | cons size rest ih =>
      calc
        tries (size :: rest) = size * (∑ i ∈ Finset.range (rest.length + 1), (rest.take i).prod) := by
          rw [tries, ih, Finset.sum_range_succ', List.take_zero, List.prod_nil, Nat.add_comm]
        _ = ∑ i ∈ Finset.range (size :: rest).length, ((size :: rest).take (i + 1)).prod := by
          simp only [List.length_cons, List.take_succ_cons, List.prod_cons, Finset.mul_sum]

theorem branch_affords {vars : List Var} (searchable : ∀ v ∈ vars, s.isSearchable v = true)
    (pending : List Expr) (a : Assignment) :
    Affords (tries (vars.map fun v => (s.domain v).size)) (s.branch vars pending a) := by
  induction vars generalizing pending a with
  | nil => exact .fault _
  | cons v rest ih =>
      obtain ⟨here, later⟩ := List.forall_mem_cons.mp searchable
      simp only [List.map_cons, tries]
      rw [branch]
      split
      · refine (sweepVar_affords (fun x _ => ?_) here none).andThen fun outcome => ?_
        · dsimp only
          split
          · exact (Affords.fault _).mono (Nat.zero_le _)
          · exact (Affords.pure _).mono (Nat.zero_le _)
          · exact (Affords.pure _).mono (Nat.zero_le _)
          · refine (ih later _ _).andThen fun outcome => ?_
            cases outcome <;> exact .pure _
        · cases outcome <;> exact .pure _
      · -- a variable that is passed over costs nothing, and its domain is not empty
        refine (ih later pending a).mono ?_
        rw [Range.size, Nat.succ_mul]
        omega

theorem search_affords {vars : List Var} (searchable : ∀ v ∈ vars, s.isSearchable v = true)
    (constraints : List Expr) (a : Assignment) :
    Affords (tries (vars.map fun v => (s.domain v).size)) (s.search vars constraints a) := by
  unfold search
  split
  · exact (Affords.fault _).mono (Nat.zero_le _)
  · exact (Affords.pure _).mono (Nat.zero_le _)
  · exact (Affords.pure _).mono (Nat.zero_le _)
  · exact branch_affords searchable _ _

/-- With enough budget for every value of every variable, constraints are solved or refuted. -/
theorem solve_of_tries_le {constraints : List Expr} (conditions : ∀ c ∈ constraints, c.Condition)
    {all : List Var} (listed : Vars.find constraints = .ok all)
    (searchable : ∀ v ∈ all, s.isSearchable v = true)
    (enough : tries ((s.inOrder all).map fun v => (s.domain v).size) ≤ s.budget) (vars : List Var) :
    ∃ r, s.solve constraints vars = .ok r := by
  rcases s.solve_cases vars conditions (Vars.oneWidth_of_find listed) with ⟨b, solved, _⟩ | ⟨solved, _⟩ |
    ⟨f, failed, harmless⟩
  · exact ⟨_, solved⟩
  · exact ⟨_, solved⟩
  · -- conditions never lead to a fault, and on this budget nothing else stops the search
    have ends := search_affords (s := s) (fun v member => searchable v (mem_inOrder.mp member))
      constraints .empty s.budget enough
    simp only [solve, listed, Failure.ofFault, bind, Except.bind, Search.run, EStateM.run] at failed
    cases ran : s.search (s.inOrder all) constraints .empty s.budget with
    | ok found rest =>
        rw [ran] at failed
        cases failed
    | error g rest =>
        rw [ran] at failed
        cases failed
        obtain ⟨fault, rfl⟩ := ends.of_error ran
        exact absurd rfl (harmless fault)

end Enough

/-- An answer stays the same under every larger budget. A budget suffices for constraints if all
    their variables can be searched and the products of the sizes of the first domains, in the order
    in which the variables are tried, add up to no more than the budget. -/
theorem budget_is_honest (s : Exhaustive) (constraints : List Expr) :
    (∀ t : Exhaustive, s.bounds = t.bounds → s.budget ≤ t.budget →
      (∀ vars r, s.solve constraints vars = .ok r → t.solve constraints vars = .ok r) ∧
      ∀ e limit r, s.enumerate constraints e limit = .ok r → t.enumerate constraints e limit = .ok r) ∧
    ∀ all, (∀ c ∈ constraints, c.Condition) → Vars.find constraints = .ok all →
      (∀ v ∈ all, (s.bounds v.name).isSome ∨ v.width ≤ 16) →
      (∑ i ∈ Finset.range all.length,
        (((s.inOrder all).map fun v => (s.domain v).size).take (i + 1)).prod) ≤ s.budget →
      ∀ vars, ∃ r, s.solve constraints vars = .ok r := by
  refine ⟨fun t same more => ⟨fun vars r => ?_, fun e limit r => ?_⟩, ?_⟩
  · exact solve_of_budget_le same more
  · exact enumerate_of_budget_le same more
  · intro all conditions listed searchable enough vars
    apply solve_of_tries_le conditions listed
    · intro v member
      rw [isSearchable, Bool.or_eq_true, decide_eq_true_eq]
      exact searchable v member
    · rw [tries_eq_sum, List.length_map, inOrder, List.length_mergeSort]
      exact enough

/-- Two values of one variable and three of another take eight tries where nothing can be cut off: a
    budget of eight refutes the constraint, and so does the default, but seven are not enough. -/
theorem budget_is_honest_exhausted :
    let constraint : Expr := .binary none .eq (.const none ⟨0, 8⟩)
      (.binary none .add (.var none ⟨"x", 8⟩) (.var none ⟨"y", 8⟩))
    let allowing (n : Int) : Exhaustive := { (bound {} "y" 0 2).bound "x" 4 3 with maxAssignments := n }
    (∃ r, (allowing 8).solve [constraint] [] = .ok r) ∧
      (allowing 0).solve [constraint] [] = .ok none ∧
      (allowing 7).solve [constraint] [] =
        .error (.error (.within "exceeded 7 assignments" .solverResourceLimit)) := by
  intro constraint allowing
  obtain ⟨larger, enough⟩ := budget_is_honest (allowing 8) [constraint]
  have listed : Vars.find [constraint] = .ok [⟨"x", 8⟩, ⟨"y", 8⟩] := by cbv
  have refuted : (allowing 8).solve [constraint] [] = .ok none := by cbv
  refine ⟨enough _ (by decide) listed (by decide) (by cbv) [], ?_, by cbv⟩
  exact (larger (allowing 0) rfl (by decide)).1 [] none refuted

end Exhaustive

end SymbolicMemory
