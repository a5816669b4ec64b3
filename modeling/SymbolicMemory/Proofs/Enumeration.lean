import SymbolicMemory.Proofs.Variables

/-! # Enumeration is exact

Enumeration tries values for the variables of an expression and keeps the value of the expression
wherever the other variables can be chosen to meet the constraints. What it gathers is stated
relative to what was gathered before: all the values there are, or as many as there is room for.
So one variable after the other, and one value after the other, nothing is lost.
-/

namespace SymbolicMemory

namespace Exhaustive

/-- The values that an expression takes where the constraints hold, with values of all variables
    from their domains. -/
def Feasible (s : Exhaustive) (constraints : List Expr) (e : Expr) : Set UInt64 :=
  {x | ∃ ρ : Valuation, (∀ v ∈ (e :: constraints).flatMap Expr.occurrences, s.Admits v (ρ v.name)) ∧
    (∀ c ∈ constraints, c.eval (.total ρ) = .ok (.ofBool true)) ∧
    e.eval (.total ρ) = .ok ⟨x, e.width⟩}

theorem eval_total {e : Expr} (wf : e.WellFormed) (ρ : Valuation) :
    e.eval (.total ρ) = .ok (e.value ρ) := by
  rw [Expr.eval_eq wf (Assignment.total_binds ρ e), Assignment.valuation_total]

theorem eval_total_iff {e : Expr} (wf : e.WellFormed) (ρ : Valuation) (x : UInt64) :
    e.eval (.total ρ) = .ok ⟨x, e.width⟩ ↔ e.meaning ρ = x.toNat := by
  have number : (e.value ρ).value = x ↔ e.meaning ρ = x.toNat := by
    rw [← UInt64.toNat_inj, Expr.value_toNat ρ wf]
  rw [eval_total wf, Except.ok.injEq, ← number]
  constructor
  · intro same
    rw [same]
  · intro same
    rw [← same]
    rfl

theorem holds_iff {constraints : List Expr} (conditions : ∀ c ∈ constraints, c.Condition)
    (ρ : Valuation) :
    (∀ c ∈ constraints, c.eval (.total ρ) = .ok (.ofBool true)) ↔ Holds ρ constraints := by
  apply forall₂_congr
  intro c member
  rw [(conditions c member).eval_true_iff (Assignment.total_binds ρ c), Assignment.valuation_total]

theorem mem_feasible {s : Exhaustive} {constraints : List Expr} {e : Expr}
    (conditions : ∀ c ∈ constraints, c.Condition) (wf : e.WellFormed) {x : UInt64} :
    x ∈ s.Feasible constraints e ↔
      ∃ ρ, (∀ v ∈ (e :: constraints).flatMap Expr.occurrences, s.Admits v (ρ v.name)) ∧
        Holds ρ constraints ∧ e.meaning ρ = x.toNat := by
  simp only [Feasible, Set.mem_ofPred_eq, holds_iff conditions, eval_total_iff wf]

section Gathering

variable {limit : Nat} {p q : UInt64 → Prop} {found : Std.TreeSet UInt64}

/-- What is gathered with room for `limit` values: all of them, or as many as there is room for. -/
def Gathers (limit : Nat) (values : UInt64 → Prop) (found : Std.TreeSet UInt64) :
    Sweep (Std.TreeSet UInt64) → Prop
  | .more new => new.size < limit ∧ ∀ x, x ∈ new ↔ x ∈ found ∨ values x
  | .done new => new.size = limit ∧ (∀ x ∈ found, x ∈ new) ∧ ∀ x ∈ new, x ∈ found ∨ values x

theorem Gathers.congr {outcome : Sweep (Std.TreeSet UInt64)} (h : Gathers limit p found outcome)
    (same : ∀ x, p x ↔ q x) : Gathers limit q found outcome := by
  have equal : p = q := funext fun x => propext (same x)
  exact equal ▸ h

theorem Gathers.trans {mid : Std.TreeSet UInt64} {outcome : Sweep (Std.TreeSet UInt64)}
    (first : Gathers limit p found (.more mid)) (second : Gathers limit q mid outcome) :
    Gathers limit (fun x => p x ∨ q x) found outcome := by
  obtain ⟨_, members⟩ := first
  cases outcome with
  | more new =>
      obtain ⟨room, newMembers⟩ := second
      refine ⟨room, fun x => ?_⟩
      rw [newMembers, members, or_assoc]
  | done new =>
      obtain ⟨full, kept, origin⟩ := second
      refine ⟨full, fun x member => kept x ((members x).mpr (.inl member)), fun x member => ?_⟩
      have known := origin x member
      rwa [members, or_assoc] at known

theorem Gathers.none (room : found.size < limit) (no : ∀ x, ¬ p x) : Gathers limit p found (.more found) := by
  refine ⟨room, fun x => ?_⟩
  simp [no x]

/-- A sweep that is cut short has values of the part that it made. -/
theorem Gathers.widen {new : Std.TreeSet UInt64} (h : Gathers limit p found (.done new))
    (wider : ∀ x, p x → q x) : Gathers limit q found (.done new) := by
  obtain ⟨full, kept, origin⟩ := h
  exact ⟨full, kept, fun x member => (origin x member).imp_right (wider x)⟩

variable {s : Exhaustive} {visit : UInt64 → Std.TreeSet UInt64 → Search (Sweep (Std.TreeSet UInt64))}
  {values : UInt64 → UInt64 → Prop}

theorem sweep_gathers (count : Nat) (x : UInt64)
    (visits : ∀ i ≤ count, ∀ found, found.size < limit → (visit (x + UInt64.ofNat i) found).Ensures
      (Gathers limit (values (x + UInt64.ofNat i)) found))
    (found : Std.TreeSet UInt64) (room : found.size < limit) :
    (s.sweep visit count x found).Ensures
      (Gathers limit (fun y => ∃ i ≤ count, values (x + UInt64.ofNat i) y) found) := by
  induction count generalizing x found with
  | zero =>
      have here := visits 0 (Nat.le_refl 0) found room
      rw [add_ofNat_zero] at here
      rw [sweep]
      refine s.spend_ensures.bind fun _ _ => here.mono (fun outcome gathers => ?_) fun _ harmless => harmless
      apply gathers.congr
      intro y
      simp
  | succ count ih =>
      have here := visits 0 (Nat.zero_le _) found room
      rw [add_ofNat_zero] at here
      rw [sweep]
      refine s.spend_ensures.bind fun _ _ => here.bind fun outcome gathers => ?_
      cases outcome with
      | done new =>
          apply Ensures.pure
          apply gathers.widen
          intro y value
          exact ⟨0, Nat.zero_le _, (add_ofNat_zero x).symm ▸ value⟩
      | more mid =>
          have later := ih (x + 1)
            (fun i le => add_one_add_ofNat x i ▸ visits (i + 1) (Nat.succ_le_succ le)) mid gathers.1
          refine later.mono (fun outcome' gathers' => ?_) fun _ harmless => harmless
          apply (gathers.trans gathers').congr
          intro y
          constructor
          · rintro (value | ⟨i, le, value⟩)
            · exact ⟨0, Nat.zero_le _, (add_ofNat_zero x).symm ▸ value⟩
            · exact ⟨i + 1, Nat.succ_le_succ le, add_one_add_ofNat x i ▸ value⟩
          · rintro ⟨i, le, value⟩
            cases i with
            | zero => exact .inl (add_ofNat_zero x ▸ value)
            | succ i => exact .inr ⟨i, Nat.le_of_succ_le_succ le, (add_one_add_ofNat x i).symm ▸ value⟩

theorem sweepVar_gathers (v : Var)
    (visits : ∀ x, (s.domain v).Contains x → ∀ found, found.size < limit →
      (visit x found).Ensures (Gathers limit (values x) found))
    (found : Std.TreeSet UInt64) (room : found.size < limit) :
    (s.sweepVar v visit found).Ensures
      (Gathers limit (fun y => ∃ x, (s.domain v).Contains x ∧ values x y) found) := by
  unfold sweepVar
  split
  · have swept := sweep_gathers (s := s) (s.domain v).span.toNat (s.domain v).lo
      (fun i le => visits _ (Range.contains_iff.mpr ⟨i, le, rfl⟩)) found room
    refine swept.mono (fun outcome gathers => gathers.congr fun y => ?_) fun _ harmless => harmless
    constructor
    · rintro ⟨i, le, value⟩
      exact ⟨_, Range.contains_iff.mpr ⟨i, le, rfl⟩, value⟩
    · rintro ⟨x, inside, value⟩
      obtain ⟨i, le, rfl⟩ := Range.contains_iff.mp inside
      exact ⟨i, le, value⟩
  · exact .throw fun _ => nofun

end Gathering

section Projection

variable {s : Exhaustive} {vars : List Var} {constraints : List Expr} {e : Expr}

/-- The values of an expression in the solutions within the domains that complete an assignment. -/
def Completed (s : Exhaustive) (vars : List Var) (constraints : List Expr) (e : Expr) (a : Assignment)
    (y : UInt64) : Prop :=
  ∃ ρ, a.Agrees ρ ∧ (∀ v ∈ vars, (s.domain v).Contains (ρ v.name)) ∧ Holds ρ constraints ∧
    e.meaning ρ = y.toNat

/-- Where a projection stands: the constraints that are pending stand for all of them, assigned
    values lie in their domains, and the open variables of the expression are still to come. -/
structure Projecting (s : Exhaustive) (vars : List Var) (constraints : List Expr) (e : Expr)
    (projected : List Var) (pending : List Expr) (a : Assignment) : Prop where
  sub : pending ⊆ constraints
  same : ∀ ρ, a.Agrees ρ → (Holds ρ pending ↔ Holds ρ constraints)
  inside : ∀ v ∈ vars, ∀ x, a v.name = some x → (s.domain v).Contains x
  isOpen : ∀ v ∈ projected, a v.name = none
  listed : ∀ v ∈ e.occurrences, a v.name = none → v ∈ projected
  distinct : projected.Pairwise fun u v => u.name ≠ v.name
  known : projected ⊆ vars

theorem Projecting.set {v : Var} {rest : List Var} {pending pending' : List Expr} {a : Assignment}
    (one : Vars.OneWidth vars) (here : Projecting s vars constraints e (v :: rest) pending a)
    (reduces : Reduces a pending (some pending')) {x : UInt64} (inside : (s.domain v).Contains x) :
    Projecting s vars constraints e rest pending' (a.set v.name x) := by
  have isOpen := here.isOpen v List.mem_cons_self
  obtain ⟨apart, distinct⟩ := List.pairwise_cons.mp here.distinct
  obtain ⟨sub, _, same⟩ := reduces
  have known := here.known List.mem_cons_self
  refine ⟨List.Subset.trans sub here.sub, ?_, ?_, ?_, ?_, distinct, ?_⟩
  · intro ρ agrees
    have before : a.Agrees ρ := by
      intro name y value
      apply agrees name y
      rw [Assignment.set_other]
      · exact value
      · rintro rfl
        rw [isOpen] at value
        cases value
    exact (same ρ before).trans (here.same ρ before)
  · intro u member y value
    by_cases named : u.name = v.name
    · rw [named, Assignment.set_same] at value
      cases value
      exact one.eq member known named ▸ inside
    · rw [Assignment.set_other a named] at value
      exact here.inside u member y value
  · intro u member
    rw [Assignment.set_other a (apart u member).symm]
    exact here.isOpen u (List.mem_cons_of_mem v member)
  · intro u occurs stillOpen
    have named : u.name ≠ v.name := by
      intro same
      rw [same, Assignment.set_same] at stillOpen
      cases stillOpen
    rw [Assignment.set_other a named] at stillOpen
    cases here.listed u occurs stillOpen with
    | head => exact absurd rfl named
    | tail _ member => exact member
  · exact List.Subset.trans (List.subset_cons_self v rest) here.known

/-- A solution has some value for the next variable. -/
theorem completed_iff_value {v : Var} {a : Assignment} (known : v ∈ vars) (isOpen : a v.name = none)
    (y : UInt64) :
    s.Completed vars constraints e a y ↔
      ∃ x, (s.domain v).Contains x ∧ s.Completed vars constraints e (a.set v.name x) y := by
  constructor
  · rintro ⟨ρ, agrees, inside, holds, value⟩
    exact ⟨ρ v.name, inside v known, ρ, agrees.set rfl, inside, holds, value⟩
  · rintro ⟨x, _, ρ, agrees, inside, holds, value⟩
    refine ⟨ρ, ?_, inside, holds, value⟩
    intro name z assigned
    apply agrees name z
    rw [Assignment.set_other]
    · exact assigned
    · rintro rfl
      rw [isOpen] at assigned
      cases assigned

/-- A solution that was found can be completed by the low ends of the domains. -/
theorem completed_of_found {a b : Assignment} (one : Vars.OneWidth vars)
    (inside : ∀ v ∈ vars, ∀ x, a v.name = some x → (s.domain v).Contains x)
    (found : s.Extends vars constraints a (some b)) :
    ∃ ρ, a.Agrees ρ ∧ (∀ v ∈ vars, (s.domain v).Contains (ρ v.name)) ∧ Holds ρ constraints := by
  obtain ⟨extends_, holds, origin⟩ := found
  let ρ : Valuation := fun name => (b name).getD (s.domain ⟨name, 0⟩).lo
  have agrees : b.Agrees ρ := by
    intro name x known
    simp only [ρ, known, Option.getD_some]
  refine ⟨ρ, fun name x known => agrees name x (extends_ name x known), ?_, holds ρ agrees⟩
  intro v member
  cases known : b v.name with
  | none =>
      have low : ρ v.name = (s.domain v).lo := by
        simp only [ρ, known, Option.getD_none]
        exact (s.domain_lo v).symm
      exact low ▸ ⟨UInt64.le_refl _, (s.domain v).ordered⟩
  | some x =>
      rw [agrees v.name x known]
      cases origin v.name x known with
      | inl before => exact inside v member x before
      | inr chosen =>
          obtain ⟨u, listed, named, within⟩ := chosen
          exact one.eq listed member named ▸ within

theorem insert_gathers {limit : Nat} {values : UInt64 → Prop} {found : Std.TreeSet UInt64} {x : UInt64}
    (room : found.size < limit) (new : ¬ found.contains x) (only : ∀ y, values y ↔ y = x) :
    Gathers limit values found (if (found.insert x).size < limit then .more (found.insert x)
      else .done (found.insert x)) := by
  have members : ∀ y, y ∈ found.insert x ↔ y ∈ found ∨ values y := by
    intro y
    rw [Std.TreeSet.mem_insert, Std.compare_eq_iff_eq, only, or_comm, eq_comm]
  have size : (found.insert x).size = found.size + 1 := by
    rw [Std.TreeSet.size_insert, if_neg new]
  split
  · next more => exact ⟨more, members⟩
  · next full =>
    refine ⟨by omega, fun y member => ?_, fun y member => ?_⟩
    · exact (members y).mpr (.inl member)
    · exact (members y).mp member

/-- Once every variable of the expression has a value, its value is kept if the constraints have
    a solution that completes the assignment. -/
theorem project_leaf (one : Vars.OneWidth vars) (wf : e.WellFormed)
    (conditions : ∀ c ∈ constraints, c.Condition)
    (occurring : ∀ c ∈ constraints, ∀ v ∈ c.occurrences, v ∈ vars) {limit : Nat} {pending : List Expr}
    {a : Assignment} (here : Projecting s vars constraints e [] pending a)
    {found : Std.TreeSet UInt64} (room : found.size < limit) :
    Search.Ensures (match e.evalPartial a with
      | .error fault => throw (.fault fault)
      | .ok none => throw (.fault (.openProjection e.text))
      | .ok (some w) =>
        if found.contains w.value then return .more found
        else do
          match ← s.search vars constraints a with
          | none => return .more found
          | some _ =>
            let found := found.insert w.value
            return if found.size < limit then .more found else .done found)
      (Gathers limit (s.Completed vars constraints e a) found) := by
  obtain ⟨answer, answered, settles⟩ := Expr.evalPartial_settles a wf
  rw [answered]
  cases answer with
  | none =>
      obtain ⟨v, occurs, isOpen⟩ := settles
      cases here.listed v occurs isOpen
  | some w =>
      have only : ∀ ρ, a.Agrees ρ → ∀ y : UInt64, e.meaning ρ = y.toNat → y = w.value := by
        intro ρ agrees y value
        apply UInt64.toNat_inj.mp
        rw [settles ρ agrees, Expr.value_toNat ρ wf, value]
      dsimp only
      split
      · next seen =>
        refine .pure ⟨room, fun y => ⟨.inl, ?_⟩⟩
        rintro (member | ⟨ρ, agrees, _, _, value⟩)
        · exact member
        · exact only ρ agrees y value ▸ Std.TreeSet.contains_iff_mem.mp seen
      · next unseen =>
        have searched := s.search_ensures vars conditions (a := a)
          fun c member v occurs _ => occurring c member v occurs
        refine searched.bind fun outcome extends_ => ?_
        cases outcome with
        | none =>
            apply Ensures.pure
            apply Gathers.none room
            rintro y ⟨ρ, agrees, inside, holds, _⟩
            exact extends_ ρ agrees inside holds
        | some b =>
            obtain ⟨ρ, agrees, inside, holds⟩ := completed_of_found one here.inside extends_
            apply Ensures.pure
            apply insert_gathers room unseen
            intro y
            constructor
            · rintro ⟨ρ', agrees', _, _, value⟩
              exact only ρ' agrees' y value
            · rintro rfl
              refine ⟨ρ, agrees, inside, holds, ?_⟩
              rw [settles ρ agrees, Expr.value_toNat ρ wf]

theorem project_ensures (one : Vars.OneWidth vars) (wf : e.WellFormed)
    (conditions : ∀ c ∈ constraints, c.Condition)
    (occurring : ∀ c ∈ constraints, ∀ v ∈ c.occurrences, v ∈ vars) {limit : Nat} (projected : List Var)
    {pending : List Expr} {a : Assignment} (here : Projecting s vars constraints e projected pending a)
    (found : Std.TreeSet UInt64) (room : found.size < limit) :
    (s.project vars constraints e limit projected pending a found).Ensures
      (Gathers limit (s.Completed vars constraints e a) found) := by
  induction projected generalizing pending a found with
  | nil =>
      obtain ⟨r, reduced, reduces⟩ :=
        undecided_reduces a fun c member => conditions c (here.sub member)
      rw [project, reduced]
      cases r with
      | none =>
          apply Ensures.pure
          apply Gathers.none room
          rintro y ⟨ρ, agrees, _, holds, _⟩
          exact reduces ρ agrees ((here.same ρ agrees).mpr holds)
      | some pending' => exact project_leaf one wf conditions occurring here room
  | cons v rest ih =>
      obtain ⟨r, reduced, reduces⟩ :=
        undecided_reduces a fun c member => conditions c (here.sub member)
      rw [project, reduced]
      cases r with
      | none =>
          apply Ensures.pure
          apply Gathers.none room
          rintro y ⟨ρ, agrees, _, holds, _⟩
          exact reduces ρ agrees ((here.same ρ agrees).mpr holds)
      | some pending' =>
          have swept := sweepVar_gathers (s := s) v
            (fun x inside found (room : found.size < limit) =>
              ih (here.set one reduces inside) found room) found room
          refine swept.mono (fun outcome gathers => gathers.congr fun y => ?_) fun _ harmless => harmless
          exact (completed_iff_value (here.known List.mem_cons_self)
            (here.isOpen v List.mem_cons_self) y).symm

end Projection

section Start

variable {s : Exhaustive}

theorem mem_inOrder {vars : List Var} {v : Var} : v ∈ s.inOrder vars ↔ v ∈ vars := List.mem_mergeSort

theorem inOrder_distinct {vars : List Var} (sorted : Vars.Sorted vars) :
    (s.inOrder vars).Pairwise fun u v => u.name ≠ v.name := by
  have apart : vars.Pairwise fun u v => u.name ≠ v.name := by
    apply sorted.imp
    intro u v less same
    rw [same, Std.compare_self] at less
    cases less
  exact (List.mergeSort_perm vars s.comesFirst).symm.pairwise apart fun same => Ne.symm same

variable {constraints : List Expr} {e : Expr} {all : List Var}

/-- Without any assigned values, the solutions within the domains are the feasible ones. -/
theorem completed_empty_iff (conditions : ∀ c ∈ constraints, c.Condition) (wf : e.WellFormed)
    (members : ∀ v, v ∈ all ↔ v ∈ (e :: constraints).flatMap Expr.occurrences) (x : UInt64) :
    s.Completed (s.inOrder all) constraints e .empty x ↔ x ∈ s.Feasible constraints e := by
  have wellFormed : ∀ d ∈ e :: constraints, d.WellFormed := by
    intro d member
    cases member with
    | head => exact wf
    | tail _ member => exact (conditions d member).wellFormed
  have domains : ∀ v ∈ (e :: constraints).flatMap Expr.occurrences, ∀ x,
      (s.domain v).Contains x ↔ s.Admits v x := fun v occurs =>
    s.domain_contains_iff (narrow_of_occurs wellFormed occurs)
  rw [mem_feasible conditions wf]
  constructor
  · rintro ⟨ρ, _, inside, holds, value⟩
    refine ⟨ρ, fun v occurs => ?_, holds, value⟩
    exact (domains v occurs _).mp (inside v (mem_inOrder.mpr ((members v).mpr occurs)))
  · rintro ⟨ρ, admits, holds, value⟩
    refine ⟨ρ, by rintro name y ⟨⟩, fun v member => ?_, holds, value⟩
    have occurs := (members v).mp (mem_inOrder.mp member)
    exact (domains v occurs _).mpr (admits v occurs)

theorem projecting_start {projected : List Var} (sorted : Vars.Sorted projected)
    (members : ∀ v, v ∈ all ↔ v ∈ (e :: constraints).flatMap Expr.occurrences)
    (projectedMembers : ∀ v, v ∈ projected ↔ v ∈ e.occurrences) :
    Projecting s (s.inOrder all) constraints e (s.inOrder projected) constraints .empty where
  sub := List.Subset.refl _
  same _ _ := Iff.rfl
  inside := by rintro v member x ⟨⟩
  isOpen _ _ := rfl
  listed v occurs _ := mem_inOrder.mpr ((projectedMembers v).mpr occurs)
  distinct := inOrder_distinct sorted
  known v member := by
    have occurs := (projectedMembers v).mp (mem_inOrder.mp member)
    apply mem_inOrder.mpr
    apply (members v).mpr
    simp [occurs]

end Start

theorem toList_ascending (found : Std.TreeSet UInt64) : found.toList.Pairwise (· < ·) :=
  found.ordered_toList.imp fun {_ _} less => Std.compare_eq_lt.mp less

/-- Enumeration ends with values in ascending order, which are all there are or as many as were
    asked for, or it gives up. -/
theorem enumerate_cases (s : Exhaustive) {constraints : List Expr} {e : Expr} {limit : Int}
    (positive : 0 < limit) (conditions : ∀ c ∈ constraints, c.Condition) (wf : e.WellFormed)
    (one : Vars.OneWidth ((e :: constraints).flatMap Expr.occurrences)) :
    (∃ values, s.enumerate constraints e limit = .ok values ∧ values.Pairwise (· < ·) ∧
      (values.length < limit ∧ (∀ x, x ∈ values ↔ x ∈ s.Feasible constraints e) ∨
        values.length = limit ∧ ∀ x ∈ values, x ∈ s.Feasible constraints e)) ∨
    ∃ f, s.enumerate constraints e limit = .error f ∧ ∀ fault, f ≠ .fault fault := by
  have mine : [e].flatMap Expr.occurrences ⊆ (e :: constraints).flatMap Expr.occurrences := by simp
  obtain ⟨all, collected, members⟩ := Vars.find_ok one
  obtain ⟨projected, projectedFound, projectedMembers⟩ :=
    Vars.find_ok fun u hu v hv => one u (mine hu) v (mine hv)
  have start := projecting_start (s := s) (Vars.find_spec projectedFound).1 members
    fun v => by simpa using projectedMembers v
  have ordered : Vars.OneWidth (s.inOrder all) := by
    intro u hu v hv
    exact one u ((members u).mp (mem_inOrder.mp hu)) v ((members v).mp (mem_inOrder.mp hv))
  have occurring : ∀ c ∈ constraints, ∀ v ∈ c.occurrences, v ∈ s.inOrder all := by
    intro c member v occurs
    apply mem_inOrder.mpr
    apply (members v).mpr
    simp only [List.flatMap_cons, List.mem_append]
    exact .inr (List.mem_flatMap.mpr ⟨c, member, occurs⟩)
  have room : (∅ : Std.TreeSet UInt64).size < limit.toNat := by
    rw [Std.TreeSet.size_emptyc]
    omega
  have projects := project_ensures ordered wf conditions occurring (s.inOrder projected) start ∅ room
  have values := completed_empty_iff (s := s) conditions wf members
  have absent : ∀ x : UInt64, x ∉ (∅ : Std.TreeSet UInt64) := fun x => Std.TreeSet.not_mem_emptyc
  rw [enumerate, if_neg (by omega)]
  simp only [collected, projectedFound, Failure.ofFault, bind, Except.bind]
  rcases s.run_cases projects with ⟨outcome, ran, gathers⟩ | ⟨f, ran, harmless⟩
  · rw [ran]
    cases outcome with
    | more found =>
        obtain ⟨less, members⟩ := gathers
        refine .inl ⟨_, rfl, toList_ascending found, .inl ⟨?_, fun x => ?_⟩⟩
        · rw [Std.TreeSet.length_toList]
          omega
        · rw [Std.TreeSet.mem_toList, members, ← values]
          simp [absent]
    | done found =>
        obtain ⟨full, _, origin⟩ := gathers
        refine .inl ⟨_, rfl, toList_ascending found, .inr ⟨?_, fun x member => ?_⟩⟩
        · rw [Std.TreeSet.length_toList]
          omega
        · rw [Std.TreeSet.mem_toList] at member
          exact (values x).mp ((origin x member).resolve_left (absent x))
  · rw [ran]
    exact .inr ⟨f, rfl, harmless⟩

section GivingUp

variable {s : Exhaustive}

/-- An error that says that the solver gave up. -/
def Limited (f : Failure) : Prop := ∀ e, f = .error e → e.root = .solverResourceLimit

theorem limited_fault (fault : Fault) : Limited (.fault fault) := by
  rintro e ⟨⟩

theorem spend_limited (s : Exhaustive) : SymbolicMemory.Ensures s.spend (fun _ => True) Limited := by
  intro left
  cases left with
  | zero =>
      rintro e ⟨⟩
      rfl
  | succ left => trivial

theorem sweep_limited {β : Type} {visit : UInt64 → β → Search (Sweep β)}
    (visits : ∀ x gathered, SymbolicMemory.Ensures (visit x gathered) (fun _ => True) Limited)
    (count : Nat) (x : UInt64) (gathered : β) :
    SymbolicMemory.Ensures (s.sweep visit count x gathered) (fun _ => True) Limited := by
  induction count generalizing x gathered with
  | zero => exact s.spend_limited.bind fun _ _ => visits x gathered
  | succ count ih =>
      refine s.spend_limited.bind fun _ _ => (visits x gathered).bind fun outcome _ => ?_
      cases outcome with
      | done r => exact .pure trivial
      | more r => exact ih (x + 1) r

theorem sweepVar_limited {β : Type} {visit : UInt64 → β → Search (Sweep β)}
    (visits : ∀ x gathered, SymbolicMemory.Ensures (visit x gathered) (fun _ => True) Limited)
    (v : Var) (gathered : β) :
    SymbolicMemory.Ensures (s.sweepVar v visit gathered) (fun _ => True) Limited := by
  unfold sweepVar
  split
  · exact sweep_limited visits _ _ _
  · apply Ensures.throw
    rintro e ⟨⟩
    rfl

theorem branch_limited (vars : List Var) (pending : List Expr) (a : Assignment) :
    SymbolicMemory.Ensures (s.branch vars pending a) (fun _ => True) Limited := by
  induction vars generalizing pending a with
  | nil => exact .throw (limited_fault _)
  | cons v rest ih =>
      rw [branch]
      split
      · refine (sweepVar_limited (fun x _ => ?_) v none).bind fun outcome _ => ?_
        · dsimp only
          split
          · exact .throw (limited_fault _)
          · exact .pure trivial
          · exact .pure trivial
          · refine (ih _ _).bind fun outcome _ => ?_
            cases outcome <;> exact .pure trivial
        · cases outcome <;> exact .pure trivial
      · exact ih pending a

theorem search_limited (vars : List Var) (constraints : List Expr) (a : Assignment) :
    SymbolicMemory.Ensures (s.search vars constraints a) (fun _ => True) Limited := by
  unfold search
  split
  · exact .throw (limited_fault _)
  · exact .pure trivial
  · exact .pure trivial
  · exact branch_limited _ _ _

theorem project_limited {vars : List Var} {constraints : List Expr} {e : Expr} {limit : Nat}
    (projected : List Var) (pending : List Expr) (a : Assignment) (found : Std.TreeSet UInt64) :
    SymbolicMemory.Ensures (s.project vars constraints e limit projected pending a found)
      (fun _ => True) Limited := by
  induction projected generalizing pending a found with
  | nil =>
      rw [project]
      split
      · exact .throw (limited_fault _)
      · exact .pure trivial
      · dsimp only
        split
        · exact .throw (limited_fault _)
        · exact .throw (limited_fault _)
        · split
          · exact .pure trivial
          · refine (search_limited _ _ _).bind fun outcome _ => ?_
            cases outcome <;> exact .pure trivial
  | cons v rest ih =>
      rw [project]
      split
      · exact .throw (limited_fault _)
      · exact .pure trivial
      · exact sweepVar_limited (fun x found => ih _ _ found) v found

theorem run_limited {α : Type} {x : Search α} (h : SymbolicMemory.Ensures x (fun _ => True) Limited)
    {f : Failure} (failed : x.run s = .error f) : Limited f := by
  have here := h s.budget
  unfold Search.run EStateM.run at failed
  cases result : x s.budget with
  | ok r left =>
      rw [result] at failed
      cases failed
  | error g left =>
      rw [result] at failed here
      cases failed
      exact here

/-- A solver that gives up says so, whatever it was asked. -/
theorem solve_limited {constraints : List Expr} {vars : List Var} {f : Failure}
    (failed : s.solve constraints vars = .error f) : Limited f := by
  unfold solve at failed
  cases collected : Vars.find constraints with
  | error fault =>
      rw [collected] at failed
      cases failed
      exact limited_fault fault
  | ok all =>
      simp only [collected, Failure.ofFault, bind, Except.bind] at failed
      cases ran : (s.search (s.inOrder all) constraints .empty).run s with
      | ok found =>
          rw [ran] at failed
          cases failed
      | error g =>
          rw [ran] at failed
          cases failed
          exact run_limited (search_limited _ _ _) ran

theorem enumerate_limited {constraints : List Expr} {e : Expr} {limit : Int} {f : Failure}
    (failed : s.enumerate constraints e limit = .error f) : Limited f := by
  unfold enumerate at failed
  split at failed
  · cases failed
  · cases collected : Vars.find (e :: constraints) with
    | error fault =>
        rw [collected] at failed
        cases failed
        exact limited_fault fault
    | ok all =>
        cases projectedFound : Vars.find [e] with
        | error fault =>
            rw [collected, projectedFound] at failed
            cases failed
            exact limited_fault fault
        | ok projected =>
            simp only [collected, projectedFound, Failure.ofFault, bind, Except.bind] at failed
            split at failed
            · next ran =>
              cases failed
              exact run_limited (project_limited _ _ _ _) ran
            · next outcome ran => cases outcome <;> cases failed

end GivingUp

end Exhaustive

end SymbolicMemory
