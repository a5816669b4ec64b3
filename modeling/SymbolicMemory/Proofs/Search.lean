import Mathlib
import SymbolicMemory.Proofs.Condition
import SymbolicMemory.Proofs.Outcome
import SymbolicMemory.Proofs.PartialEvaluation
import SymbolicMemory.Solver.Exhaustive

/-! # The exhaustive search is sound and complete

What partial evaluation decides holds for every completion of an assignment. So leaving decided
constraints out of a branch keeps its solutions, cutting a branch off loses none, and a pending
constraint always has a variable left to try. A search that ends within its budget has therefore
found a solution within the domains, or there is none.
-/

namespace SymbolicMemory

namespace Vars

/-- No name stands for variables of two widths. -/
def OneWidth (vars : List Var) : Prop :=
  ∀ u ∈ vars, ∀ v ∈ vars, u.name = v.name → u.width = v.width

instance (vars : List Var) : Decidable (OneWidth vars) :=
  inferInstanceAs (Decidable (∀ u ∈ vars, ∀ v ∈ vars, u.name = v.name → u.width = v.width))

theorem insert_ok {v : Var} {vars : List Var} (same : ∀ u ∈ vars, u.name = v.name → u.width = v.width) :
    ∃ all, insert v vars = .ok all ∧ ∀ u, u ∈ all ↔ u = v ∨ u ∈ vars := by
  induction vars with
  | nil => exact ⟨[v], rfl, fun u => by simp⟩
  | cons w rest ih =>
      unfold insert
      split
      · exact ⟨_, rfl, fun u => by simp⟩
      · next equal =>
        have name := Std.compare_eq_iff_eq.mp equal
        have width := same w List.mem_cons_self name.symm
        have here : w = v := by
          cases w; cases v
          simp_all
        rw [if_pos width]
        exact ⟨_, rfl, fun u => by simp [here]⟩
      · obtain ⟨all, inserted, members⟩ := ih fun u member => same u (List.mem_cons_of_mem w member)
        refine ⟨w :: all, by rw [inserted]; rfl, fun u => ?_⟩
        simp only [List.mem_cons, members]
        exact or_left_comm

theorem insert_all_ok {new found : List Var} (one : OneWidth (found ++ new)) :
    ∃ all, new.foldlM (fun found v => insert v found) found = .ok all ∧
      ∀ u, u ∈ all ↔ u ∈ found ++ new := by
  induction new generalizing found with
  | nil => exact ⟨found, rfl, fun u => by simp⟩
  | cons v rest ih =>
      obtain ⟨more, inserted, members⟩ := insert_ok fun u (member : u ∈ found) =>
        one u (List.mem_append_left _ member) v (by simp)
      have moved : ∀ u, u ∈ more ++ rest ↔ u ∈ found ++ v :: rest := fun u => by
        simp only [List.mem_append, members, List.mem_cons]
        exact or_assoc.trans or_left_comm
      obtain ⟨all, done, allMembers⟩ := ih fun u hu w hw => one u ((moved u).mp hu) w ((moved w).mp hw)
      refine ⟨all, ?_, fun u => (allMembers u).trans (moved u)⟩
      rw [List.foldlM_cons, inserted]
      exact done

/-- Variables of one width each are collected, and none else. -/
theorem find_ok {es : List Expr} (one : OneWidth (es.flatMap Expr.occurrences)) :
    ∃ vars, find es = .ok vars ∧ ∀ u, u ∈ vars ↔ u ∈ es.flatMap Expr.occurrences :=
  insert_all_ok one

end Vars

namespace Exhaustive

/-- What is left undecided holds exactly where all of the constraints do, and each of it has an
    open variable. Where a constraint is known to fail, they hold nowhere. -/
def Reduces (a : Assignment) (constraints : List Expr) : Option (List Expr) → Prop
  | none => ∀ ρ, a.Agrees ρ → ¬ Holds ρ constraints
  | some pending => pending ⊆ constraints ∧
      (∀ c ∈ pending, ∃ v ∈ c.occurrences, a v.name = none) ∧
      ∀ ρ, a.Agrees ρ → (Holds ρ pending ↔ Holds ρ constraints)

theorem undecided_reduces (a : Assignment) {constraints : List Expr}
    (conditions : ∀ c ∈ constraints, c.Condition) :
    ∃ r, undecided a constraints = .ok r ∧ Reduces a constraints r := by
  induction constraints with
  | nil => exact ⟨some [], rfl, List.Subset.refl _, nofun, fun _ _ => Iff.rfl⟩
  | cons c rest ih =>
      obtain ⟨condition, restConditions⟩ := List.forall_mem_cons.mp conditions
      obtain ⟨r, restEval, restReduces⟩ := ih restConditions
      obtain ⟨answer, answered, settles⟩ := Expr.evalPartial_settles a condition.wellFormed
      simp only [undecided, answered, restEval]
      cases answer with
      | none =>
          cases r with
          | none =>
              refine ⟨none, rfl, fun ρ agrees holds => ?_⟩
              exact restReduces ρ agrees (List.forall_mem_cons.mp holds).2
          | some pending =>
              obtain ⟨sub, isOpen, same⟩ := restReduces
              refine ⟨some (c :: pending), rfl, List.cons_subset_cons c sub, ?_, fun ρ agrees => ?_⟩
              · exact List.forall_mem_cons.mpr ⟨settles, isOpen⟩
              · simp only [Holds, List.forall_mem_cons]
                exact and_congr_right fun _ => same ρ agrees
      | some w =>
          have decided : ∀ ρ, a.Agrees ρ → (w.isFalse = true ↔ c.meaning ρ = 0) := fun ρ agrees =>
            settles ρ agrees ▸ condition.value_isFalse ρ
          dsimp only
          split
          · next fails =>
            refine ⟨none, rfl, fun ρ agrees holds => ?_⟩
            have one := (List.forall_mem_cons.mp holds).1
            rw [(decided ρ agrees).mp fails] at one
            cases one
          · next passes =>
            have holds : ∀ ρ, a.Agrees ρ → c.meaning ρ = 1 := fun ρ agrees =>
              (condition.meaning_cases ρ).resolve_left fun zero => passes ((decided ρ agrees).mpr zero)
            refine ⟨r, rfl, ?_⟩
            cases r with
            | none =>
                intro ρ agrees all
                exact restReduces ρ agrees (List.forall_mem_cons.mp all).2
            | some pending =>
                obtain ⟨sub, isOpen, same⟩ := restReduces
                refine ⟨List.subset_cons_of_subset c sub, isOpen, fun ρ agrees => ?_⟩
                rw [same ρ agrees]
                simp only [Holds, List.forall_mem_cons, holds ρ agrees, true_and]

/-- A search that never meets a fault and whose results, when it ends within its budget, are as
    stated. -/
abbrev Search.Ensures {α : Type} (x : Search α) (post : α → Prop) : Prop :=
  SymbolicMemory.Ensures x post fun f => ∀ fault, f ≠ .fault fault

theorem spend_ensures (s : Exhaustive) : s.spend.Ensures fun _ => True := by
  intro left
  cases left with
  | zero => exact fun _ => nofun
  | succ left => trivial

/-- A sweep that ends early ends with what a visit found, and one that does not has made every
    visit. -/
theorem sweep_ensures (s : Exhaustive) {β : Type} {visit : UInt64 → β → Search (Sweep β)}
    (found : β → Prop) (passed : UInt64 → Prop) (count : Nat) (x : UInt64)
    (visits : ∀ i ≤ count, ∀ gathered, (visit (x + UInt64.ofNat i) gathered).Ensures fun
      | .done r => found r
      | .more _ => passed (x + UInt64.ofNat i)) (gathered : β) :
    (s.sweep visit count x gathered).Ensures fun
      | .done r => found r
      | .more _ => ∀ i ≤ count, passed (x + UInt64.ofNat i) := by
  induction count generalizing x gathered with
  | zero =>
      have here := visits 0 (Nat.le_refl 0) gathered
      rw [add_ofNat_zero] at here
      rw [sweep]
      refine s.spend_ensures.bind fun _ _ => here.mono (fun outcome h => ?_) fun _ harmless => harmless
      cases outcome with
      | done r => exact h
      | more r =>
          intro i le
          rw [Nat.le_zero.mp le, add_ofNat_zero]
          exact h
  | succ count ih =>
      have here := visits 0 (Nat.zero_le _) gathered
      rw [add_ofNat_zero] at here
      rw [sweep]
      refine s.spend_ensures.bind fun _ _ => here.bind fun outcome h => ?_
      cases outcome with
      | done r => exact .pure h
      | more r =>
          have later := ih (x + 1)
            (fun i le => add_one_add_ofNat x i ▸ visits (i + 1) (Nat.succ_le_succ le)) r
          refine later.mono (fun outcome' h' => ?_) fun _ harmless => harmless
          cases outcome' with
          | done r => exact h'
          | more r =>
              intro i le
              cases i with
              | zero => rwa [add_ofNat_zero]
              | succ i => exact add_one_add_ofNat x i ▸ h' i (Nat.le_of_succ_le_succ le)

end Exhaustive

/-- The values of a range. -/
def Range.Contains (r : Range) (x : UInt64) : Prop := r.lo ≤ x ∧ x ≤ r.hi

theorem Range.contains_iff {r : Range} {x : UInt64} :
    r.Contains x ↔ ∃ i ≤ r.span.toNat, x = r.lo + UInt64.ofNat i := by
  have ordered := UInt64.le_iff_toNat_le.mp r.ordered
  have span : r.span.toNat = r.hi.toNat - r.lo.toNat := UInt64.toNat_sub_of_le _ _ r.ordered
  have last := r.hi.toNat_lt
  have offset : ∀ i ≤ r.span.toNat, (r.lo + UInt64.ofNat i).toNat = r.lo.toNat + i := fun i le => by
    rw [UInt64.toNat_add, UInt64.toNat_ofNat_of_lt' (show i < 2 ^ 64 by omega),
      Nat.mod_eq_of_lt (by omega)]
  simp only [Contains, UInt64.le_iff_toNat_le]
  constructor
  · intro inside
    have le : x.toNat - r.lo.toNat ≤ r.span.toNat := by omega
    refine ⟨x.toNat - r.lo.toNat, le, UInt64.toNat_inj.mp ?_⟩
    rw [offset _ le]
    omega
  · rintro ⟨i, le, rfl⟩
    rw [offset i le]
    omega

namespace Exhaustive

theorem sweepVar_ensures (s : Exhaustive) {β : Type} {visit : UInt64 → β → Search (Sweep β)}
    (found : β → Prop) (passed : UInt64 → Prop) (v : Var)
    (visits : ∀ x, (s.domain v).Contains x → ∀ gathered, (visit x gathered).Ensures fun
      | .done r => found r
      | .more _ => passed x) (gathered : β) :
    (s.sweepVar v visit gathered).Ensures fun
      | .done r => found r
      | .more _ => ∀ x, (s.domain v).Contains x → passed x := by
  unfold sweepVar
  split
  · refine (s.sweep_ensures found passed _ _ (fun i le => ?_) gathered).mono (fun outcome h => ?_)
      fun _ harmless => harmless
    · exact visits _ (Range.contains_iff.mpr ⟨i, le, rfl⟩)
    · cases outcome with
      | done r => exact h
      | more r =>
          intro x inside
          obtain ⟨i, le, rfl⟩ := Range.contains_iff.mp inside
          exact h i le
  · exact .throw fun _ => nofun

/-- A search for an extension of `a` by values for some variables, in their domains, under which
    the pending constraints hold. -/
def Extends (s : Exhaustive) (vars : List Var) (pending : List Expr) (a : Assignment) :
    Option Assignment → Prop
  | some b => (∀ name x, a name = some x → b name = some x) ∧
      (∀ ρ, b.Agrees ρ → Holds ρ pending) ∧
      ∀ name x, b name = some x → a name = some x ∨ ∃ v ∈ vars, v.name = name ∧ (s.domain v).Contains x
  | none => ∀ ρ, a.Agrees ρ → (∀ v ∈ vars, (s.domain v).Contains (ρ v.name)) → ¬ Holds ρ pending

theorem Extends.of_value {s : Exhaustive} {v : Var} {rest : List Var} {pending pending' : List Expr}
    {a b : Assignment} {x : UInt64} (isOpen : a v.name = none) (inside : (s.domain v).Contains x)
    (reduces : Reduces (a.set v.name x) pending (some pending'))
    (h : s.Extends rest pending' (a.set v.name x) (some b)) :
    s.Extends (v :: rest) pending a (some b) := by
  obtain ⟨extends_, holds, origin⟩ := h
  refine ⟨fun name y known => ?_, fun ρ agrees => ?_, fun name y known => ?_⟩
  · have apart : name ≠ v.name := fun same => by
      rw [same, isOpen] at known
      cases known
    exact extends_ name y ((a.set_other apart x).trans known)
  · have within : (a.set v.name x).Agrees ρ := fun name y known => agrees name y (extends_ name y known)
    exact (reduces.2.2 ρ within).mp (holds ρ agrees)
  · rcases origin name y known with before | ⟨u, member, named, inside'⟩
    · by_cases same : name = v.name
      · rw [same, Assignment.set_same] at before
        exact .inr ⟨v, List.mem_cons_self, same.symm, Option.some.inj before ▸ inside⟩
      · exact .inl ((a.set_other same x).symm.trans before)
    · exact .inr ⟨u, List.mem_cons_of_mem v member, named, inside'⟩

theorem uses_of_occurs {constraints : List Expr} {c : Expr} {v : Var} (member : c ∈ constraints)
    (occurs : v ∈ c.occurrences) : uses constraints v = true :=
  List.any_eq_true.mpr ⟨c, member, List.any_eq_true.mpr ⟨v, occurs, BEq.rfl⟩⟩

/-- A branch for the open variables of undecided constraints, all of which are still listed,
    finds an extension or shows that there is none. -/
theorem branch_ensures (s : Exhaustive) (vars : List Var) {pending : List Expr} {a : Assignment}
    (conditions : ∀ c ∈ pending, c.Condition)
    (some_open : ∃ c ∈ pending, ∃ v ∈ c.occurrences, a v.name = none)
    (listed : ∀ c ∈ pending, ∀ v ∈ c.occurrences, a v.name = none → v ∈ vars) :
    (s.branch vars pending a).Ensures (s.Extends vars pending a) := by
  induction vars generalizing pending a with
  | nil =>
      obtain ⟨c, member, v, occurs, isOpen⟩ := some_open
      cases listed c member v occurs isOpen
  | cons v rest ih =>
      rw [branch]
      split
      · next chosen =>
        have isOpen : a v.name = none :=
          Option.isNone_iff_eq_none.mp (Bool.and_eq_true_iff.mp chosen).1
        -- A value is passed over when no values of the other variables go with it.
        let passed : UInt64 → Prop := fun x => ∀ ρ, a.Agrees ρ → ρ v.name = x →
          (∀ u ∈ rest, (s.domain u).Contains (ρ u.name)) → ¬ Holds ρ pending
        refine (s.sweepVar_ensures (s.Extends (v :: rest) pending a) passed v ?_ none).bind ?_
        · intro x inside _
          obtain ⟨r, reduced, reduces⟩ := undecided_reduces (a.set v.name x) conditions
          simp only [reduced]
          match r, reduces with
          | none, fails => exact .pure fun ρ agrees value _ => fails ρ (agrees.set value)
          | some [], reduces =>
              have solved : s.Extends rest [] (a.set v.name x) (some (a.set v.name x)) :=
                ⟨fun _ _ h => h, fun _ _ => nofun, fun _ _ h => .inl h⟩
              exact .pure (Extends.of_value isOpen inside reduces solved)
          | some (c :: pending'), reduces =>
              obtain ⟨sub, undecided, same⟩ := reduces
              have others : ∀ d ∈ c :: pending', ∀ u ∈ d.occurrences,
                  (a.set v.name x) u.name = none → u ∈ rest := by
                intro d member u occurs stillOpen
                have apart : u.name ≠ v.name := fun same => by
                  rw [same, Assignment.set_same] at stillOpen
                  cases stillOpen
                rw [Assignment.set_other a apart] at stillOpen
                refine (List.mem_cons.mp (listed d (sub member) u occurs stillOpen)).resolve_left ?_
                exact fun same => apart (congrArg Var.name same)
              have deeper := ih (fun d member => conditions d (sub member))
                ⟨c, List.mem_cons_self, undecided c List.mem_cons_self⟩ others
              refine deeper.bind fun outcome h => ?_
              cases outcome with
              | none =>
                  refine .pure fun ρ agrees value insideRest holds => ?_
                  exact h ρ (agrees.set value) insideRest ((same ρ (agrees.set value)).mpr holds)
              | some b => exact .pure (Extends.of_value isOpen inside ⟨sub, undecided, same⟩ h)
        · intro outcome h
          cases outcome with
          | done found => exact .pure h
          | more _ =>
              refine .pure fun ρ agrees inside => ?_
              exact h (ρ v.name) (inside v List.mem_cons_self) ρ agrees rfl
                fun u member => inside u (List.mem_cons_of_mem v member)
      · next skipped =>
        have others : ∀ c ∈ pending, ∀ u ∈ c.occurrences, a u.name = none → u ∈ rest := by
          intro c member u occurs isOpen
          refine (List.mem_cons.mp (listed c member u occurs isOpen)).resolve_left ?_
          rintro rfl
          exact skipped (Bool.and_eq_true_iff.mpr
            ⟨Option.isNone_iff_eq_none.mpr isOpen, uses_of_occurs member occurs⟩)
        refine (ih conditions some_open others).mono (fun outcome h => ?_) fun _ harmless => harmless
        cases outcome with
        | none =>
            exact fun ρ agrees inside =>
              h ρ agrees fun u member => inside u (List.mem_cons_of_mem v member)
        | some b =>
            refine ⟨h.1, h.2.1, fun name x known => ?_⟩
            exact (h.2.2 name x known).imp_right
              fun ⟨u, member, inside⟩ => ⟨u, List.mem_cons_of_mem v member, inside⟩

theorem search_ensures (s : Exhaustive) (vars : List Var) {constraints : List Expr}
    (conditions : ∀ c ∈ constraints, c.Condition) {a : Assignment}
    (listed : ∀ c ∈ constraints, ∀ v ∈ c.occurrences, a v.name = none → v ∈ vars) :
    (s.search vars constraints a).Ensures (s.Extends vars constraints a) := by
  obtain ⟨r, reduced, reduces⟩ := undecided_reduces a conditions
  simp only [search, reduced]
  match r, reduces with
  | none, fails => exact .pure fun ρ agrees _ => fails ρ agrees
  | some [], ⟨_, _, same⟩ =>
      exact .pure ⟨fun _ _ h => h, fun ρ agrees => (same ρ agrees).mp nofun, fun _ _ h => .inl h⟩
  | some (c :: pending), ⟨sub, undecided, same⟩ =>
      have found := s.branch_ensures vars (fun d member => conditions d (sub member))
        ⟨c, List.mem_cons_self, undecided c List.mem_cons_self⟩
        fun d member => listed d (sub member)
      refine found.mono (fun outcome h => ?_) fun _ harmless => harmless
      cases outcome with
      | none => exact fun ρ agrees inside holds => h ρ agrees inside ((same ρ agrees).mpr holds)
      | some b =>
          refine ⟨h.1, fun ρ agrees => ?_, h.2.2⟩
          exact (same ρ fun name x known => agrees name x (h.1 name x known)).mp (h.2.1 ρ agrees)

theorem run_cases (s : Exhaustive) {α : Type} {x : Search α} {post : α → Prop}
    (h : x.Ensures post) :
    (∃ r, x.run s = .ok r ∧ post r) ∨ ∃ f, x.run s = .error f ∧ ∀ fault, f ≠ .fault fault := by
  have here := h s.budget
  unfold Search.run EStateM.run
  cases result : x s.budget with
  | ok r left =>
      rw [result] at here
      exact .inl ⟨r, rfl, here⟩
  | error f left =>
      rw [result] at here
      exact .inr ⟨f, rfl, here⟩

/-- The values that a variable may take: those of its bound, else those that fit its width. -/
def Admits (s : Exhaustive) (v : Var) (x : UInt64) : Prop :=
  match s.bounds v.name with
  | some r => r.lo ≤ x ∧ x ≤ r.hi
  | none => x.toNat < 2 ^ v.width.toNat

theorem domain_contains_iff (s : Exhaustive) {v : Var} (le : v.width ≤ 64) (x : UInt64) :
    (s.domain v).Contains x ↔ s.Admits v x := by
  unfold domain Admits
  cases s.bounds v.name with
  | some r => exact Iff.rfl
  | none =>
      have pos := Nat.two_pow_pos v.width.toNat
      have all : (Range.full v.width).hi.toNat = 2 ^ v.width.toNat - 1 := mask_toNat le
      simp only [Option.getD_none, Range.Contains, UInt64.le_iff_toNat_le, all]
      simp only [Range.full, UInt64.toNat_zero, Nat.zero_le, true_and]
      omega

theorem admits_lo (s : Exhaustive) (v : Var) : s.Admits v (s.domain v).lo := by
  unfold domain Admits
  cases s.bounds v.name with
  | some r => exact ⟨UInt64.le_refl _, r.ordered⟩
  | none => exact Nat.two_pow_pos _

theorem narrow_of_occurs {es : List Expr} (wf : ∀ e ∈ es, e.WellFormed) {v : Var}
    (occurs : v ∈ es.flatMap Expr.occurrences) : v.width ≤ 64 := by
  obtain ⟨e, member, occurs⟩ := List.mem_flatMap.mp occurs
  exact (Expr.occurrence_bounds (wf e member) occurs).2

/-- A search ends with a solution within the domains, with none because there is none, or for want
    of budget or bounds. -/
theorem solve_cases (s : Exhaustive) {constraints : List Expr} (vars : List Var)
    (conditions : ∀ c ∈ constraints, c.Condition)
    (one : Vars.OneWidth (constraints.flatMap Expr.occurrences)) :
    (∃ b : Assignment, s.solve constraints vars =
        .ok (some (vars.map fun v => (b v.name).getD (s.domain v).lo)) ∧
      (∀ ρ, b.Agrees ρ → Holds ρ constraints) ∧
      ∀ name x, b name = some x →
        ∃ v ∈ constraints.flatMap Expr.occurrences, v.name = name ∧ s.Admits v x) ∨
    (s.solve constraints vars = .ok none ∧
      ∀ ρ, (∀ v ∈ constraints.flatMap Expr.occurrences, s.Admits v (ρ v.name)) →
        ¬ Holds ρ constraints) ∨
    ∃ f, s.solve constraints vars = .error f ∧ ∀ fault, f ≠ .fault fault := by
  obtain ⟨all, collected, members⟩ := Vars.find_ok one
  have listed : ∀ v, v ∈ s.inOrder all ↔ v ∈ constraints.flatMap Expr.occurrences := fun v =>
    List.mem_mergeSort.trans (members v)
  have searched := s.search_ensures (s.inOrder all) (a := .empty) conditions
    fun c member v occurs _ => (listed v).mpr (List.mem_flatMap.mpr ⟨c, member, occurs⟩)
  have domains : ∀ v ∈ constraints.flatMap Expr.occurrences, ∀ x,
      (s.domain v).Contains x ↔ s.Admits v x := fun v occurs =>
    s.domain_contains_iff (narrow_of_occurs (fun c member => (conditions c member).wellFormed) occurs)
  simp only [solve, collected, Failure.ofFault, bind, Except.bind]
  rcases s.run_cases searched with ⟨found, ran, extends_⟩ | ⟨f, ran, harmless⟩
  · rw [ran]
    cases found with
    | some b =>
        refine .inl ⟨b, rfl, extends_.2.1, fun name x known => ?_⟩
        obtain ⟨v, member, named, inside⟩ := (extends_.2.2 name x known).resolve_left (by rintro ⟨⟩)
        exact ⟨v, (listed v).mp member, named, (domains v ((listed v).mp member) x).mp inside⟩
    | none =>
        refine .inr (.inl ⟨rfl, fun ρ inside => extends_ ρ (by rintro name x ⟨⟩) fun v member => ?_⟩)
        have occurs := (listed v).mp member
        exact (domains v occurs _).mpr (inside v occurs)
  · rw [ran]
    exact .inr (.inr ⟨f, rfl, harmless⟩)

/-- Listed variables have listed values. -/
def Gives (a : Assignment) (vars : List Var) (values : List UInt64) : Prop :=
  ∀ v x, (v, x) ∈ vars.zip values → a v.name = some x

theorem mem_zip_map {vars : List Var} {f : Var → UInt64} {v : Var} {x : UInt64} :
    (v, x) ∈ vars.zip (vars.map f) ↔ v ∈ vars ∧ f v = x := by
  rw [← List.map_prod_left_eq_zip, List.mem_map]
  constructor
  · rintro ⟨u, member, pair⟩
    cases pair
    exact ⟨member, rfl⟩
  · rintro ⟨member, rfl⟩
    exact ⟨v, member, rfl⟩

/-- The low end of a domain depends on the name alone. -/
theorem domain_lo (s : Exhaustive) (v : Var) : (s.domain v).lo = (s.domain ⟨v.name, 0⟩).lo := by
  have full_lo : ∀ width, (Range.full width).lo = 0 := fun _ => rfl
  unfold domain
  cases s.bounds v.name with
  | some r => rw [Option.getD_some, Option.getD_some]
  | none => rw [Option.getD_none, Option.getD_none, full_lo, full_lo]

theorem eval_of_gives {b a : Assignment} {constraints : List Expr} {vars : List Var} {low : Var → UInt64}
    (conditions : ∀ c ∈ constraints, c.Condition)
    (holds : ∀ ρ, b.Agrees ρ → Holds ρ constraints)
    (origin : ∀ name x, b name = some x → ∃ v ∈ constraints.flatMap Expr.occurrences, v.name = name)
    (covers : ∀ u ∈ constraints.flatMap Expr.occurrences, ∃ v ∈ vars, v.name = u.name)
    (gives : Gives a vars (vars.map fun v => (b v.name).getD (low v))) :
    ∀ c ∈ constraints, c.eval a = .ok (Word.ofBool true) := by
  have given : ∀ v ∈ vars, a v.name = some ((b v.name).getD (low v)) := fun v member =>
    gives v _ (mem_zip_map.mpr ⟨member, rfl⟩)
  have agrees : b.Agrees a.valuation := by
    intro name x known
    obtain ⟨u, occurs, rfl⟩ := origin name x known
    obtain ⟨v, member, named⟩ := covers u occurs
    have value := given v member
    rw [named, known] at value
    rw [Assignment.valuation, value]
    rfl
  intro c member
  have binds : a.Binds c := by
    intro u occurs
    obtain ⟨v, listed, named⟩ := covers u (List.mem_flatMap.mpr ⟨c, member, occurs⟩)
    rw [← named, given v listed]
    rfl
  exact ((conditions c member).eval_true_iff binds).mpr (holds _ agrees c member)

/-- A search that ends is right. The values it returns lie in the domains of the variables asked
    for, and they solve the constraints if those variables are all there are. Where it returns
    none, no values from the domains solve the constraints. It never runs out of variables or
    meets another fault. -/
theorem solve_sound_and_complete (s : Exhaustive) {constraints : List Expr} {vars : List Var}
    (conditions : ∀ c ∈ constraints, c.Condition)
    (one : Vars.OneWidth (constraints.flatMap Expr.occurrences))
    (same : ∀ v ∈ vars, ∀ u ∈ constraints.flatMap Expr.occurrences,
      v.name = u.name → v.width = u.width) :
    (∀ values, s.solve constraints vars = .ok (some values) →
      values.length = vars.length ∧
      (∀ v x, (v, x) ∈ vars.zip values → s.Admits v x) ∧
      (∃ a, Gives a vars values) ∧
      ((∀ u ∈ constraints.flatMap Expr.occurrences, ∃ v ∈ vars, v.name = u.name) →
        ∀ a, Gives a vars values → ∀ c ∈ constraints, c.eval a = .ok (Word.ofBool true))) ∧
    (s.solve constraints vars = .ok none →
      ∀ a : Assignment,
        (∀ v ∈ constraints.flatMap Expr.occurrences, ∃ x, a v.name = some x ∧ s.Admits v x) →
        ¬ ∀ c ∈ constraints, c.eval a = .ok (Word.ofBool true)) ∧
    ∀ fault, s.solve constraints vars ≠ .error (.fault fault) := by
  rcases s.solve_cases vars conditions one with ⟨b, solved, holds, origin⟩ |
    ⟨unsolved, fails⟩ | ⟨f, failed, harmless⟩
  · rw [solved]
    refine ⟨fun values found => ?_, by rintro ⟨⟩, by rintro fault ⟨⟩⟩
    obtain rfl := Option.some.inj (Except.ok.inj found)
    refine ⟨List.length_map _, fun v x pair => ?_, ?_, fun covers a gives => ?_⟩
    · obtain ⟨member, rfl⟩ := mem_zip_map.mp pair
      cases known : b v.name with
      | none => exact s.admits_lo v
      | some x =>
          obtain ⟨u, occurs, named, admits⟩ := origin v.name x known
          have width := same v member u occurs named.symm
          unfold Admits at admits ⊢
          rwa [named, ← width] at admits
    · refine ⟨fun name => some ((b name).getD (s.domain ⟨name, 0⟩).lo), fun v x pair => ?_⟩
      obtain ⟨-, rfl⟩ := mem_zip_map.mp pair
      rw [s.domain_lo v]
    · refine eval_of_gives conditions holds (fun name x known => ?_) covers gives
      obtain ⟨v, occurs, named, -⟩ := origin name x known
      exact ⟨v, occurs, named⟩
  · rw [unsolved]
    refine ⟨by rintro values ⟨⟩, fun _ a inside solution => ?_, by rintro fault ⟨⟩⟩
    refine fails a.valuation (fun v occurs => ?_) fun c member => ?_
    · obtain ⟨x, value, admits⟩ := inside v occurs
      rwa [Assignment.valuation, value, Option.getD_some]
    · have binds : a.Binds c := fun v occurs => by
        obtain ⟨x, value, -⟩ := inside v (List.mem_flatMap.mpr ⟨c, member, occurs⟩)
        rw [value]
        rfl
      exact ((conditions c member).eval_true_iff binds).mp (solution c member)
  · rw [failed]
    refine ⟨by rintro values ⟨⟩, by rintro ⟨⟩, fun fault same => ?_⟩
    exact harmless fault (Except.error.inj same)

/-- The bounds are tried in ascending order, and a variable that no constraint uses takes the
    low end of its domain. -/
theorem solve_sound_and_complete_sum :
    let x : Expr := .var none ⟨"x", 8⟩
    let y : Expr := .var none ⟨"y", 8⟩
    let constraints : List Expr := [.binary none .eq (.binary none .add x y) (.const none ⟨5, 8⟩),
      .binary none .ule y (.const none ⟨1, 8⟩)]
    let vars : List Var := [⟨"x", 8⟩, ⟨"y", 8⟩, ⟨"z", 64⟩]
    let s := (bound {} "x" 4 3).bound "y" 0 2
    s.solve constraints vars = .ok (some [4, 1, 0]) ∧
      (∀ v x, (v, x) ∈ vars.zip [4, 1, 0] → s.Admits v x) ∧
      ∀ a, Gives a vars [4, 1, 0] → ∀ c ∈ constraints, c.eval a = .ok (Word.ofBool true) := by
  intro x y constraints vars s
  have solved : s.solve constraints vars = .ok (some [4, 1, 0]) := by cbv
  have conditions : ∀ c ∈ constraints, c.Condition := by decide
  have same : ∀ v ∈ vars, ∀ u ∈ constraints.flatMap Expr.occurrences,
      v.name = u.name → v.width = u.width := by decide
  have right := (s.solve_sound_and_complete conditions (by decide) same).1 _ solved
  exact ⟨solved, right.2.1, right.2.2.2 (by decide)⟩

end Exhaustive

end SymbolicMemory
