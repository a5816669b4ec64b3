import SymbolicMemory.Proofs.Relisting
import SymbolicMemory.Proofs.TotalOrder

/-! # The parts of expressions and the variables among them

A part of an expression is reached from it by going to operands, any number of times. Variables are
collected while all parts are walked through. So the list of variables is the set of those that are
parts, in the byte order of their names, and collecting fails exactly where two parts use one name at
two widths.
-/

namespace SymbolicMemory

namespace Expr

/-- The expressions that a node is directly made of. -/
def operands : Expr → List Expr
  | const .. | var .. => []
  | concat _ msb lsb => [msb, lsb]
  | extract _ source _ _ => [source]
  | not _ source => [source]
  | zext _ source _ => [source]
  | binary _ _ lhs rhs => [lhs, rhs]

/-- A part of an expression that is not all of it. -/
def Below (part whole : Expr) : Prop := Relation.TransGen (fun e e' => e ∈ e'.operands) part whole

/-- A part of an expression, which may be all of it. -/
def Within (part whole : Expr) : Prop := Relation.ReflTransGen (fun e e' => e ∈ e'.operands) part whole

theorem Within.below {part e whole : Expr} (within : part.Within e) (operand : e ∈ whole.operands) :
    part.Below whole := Relation.TransGen.tail' within operand

theorem Below.trans {part e whole : Expr} (below : part.Below e) (above : e.Below whole) : part.Below whole :=
  Relation.TransGen.trans below above

theorem nodes_lt_of_operand {e whole : Expr} (operand : e ∈ whole.operands) : e.nodes < whole.nodes := by
  cases whole with
  | const | var => cases operand
  | extract | not | zext => simp_all [operands, nodes]
  | concat | binary =>
      simp only [operands, List.mem_cons, List.not_mem_nil, or_false] at operand
      rcases operand with rfl | rfl <;> simp only [nodes] <;> omega

/-- A proper part has fewer nodes. -/
theorem Below.nodes_lt {part whole : Expr} (below : part.Below whole) : part.nodes < whole.nodes := by
  induction below with
  | single operand => exact nodes_lt_of_operand operand
  | tail _ operand ih => exact ih.trans (nodes_lt_of_operand operand)

theorem mem_occurrences_cases {v : Var} {e : Expr} :
    v ∈ e.occurrences ↔ (∃ tag, var tag v = e) ∨ ∃ e' ∈ e.operands, v ∈ e'.occurrences := by
  cases e <;> simp [occurrences, operands]

/-- The occurrences are the variables among the parts. -/
theorem mem_occurrences_iff {v : Var} {e : Expr} : v ∈ e.occurrences ↔ ∃ tag, (var tag v).Within e := by
  constructor
  · intro occurs
    induction size : e.nodes using Nat.strongRecOn generalizing e with
    | _ n ih =>
        subst size
        rcases mem_occurrences_cases.mp occurs with ⟨tag, rfl⟩ | ⟨e', operand, deeper⟩
        · exact ⟨tag, .refl⟩
        · obtain ⟨tag, within⟩ := ih e'.nodes (nodes_lt_of_operand operand) deeper rfl
          exact ⟨tag, within.tail operand⟩
  · rintro ⟨tag, within⟩
    induction within with
    | refl => exact mem_occurrences_cases.mpr (.inl ⟨tag, rfl⟩)
    | tail _ operand ih => exact mem_occurrences_cases.mpr (.inr ⟨_, operand, ih⟩)

end Expr

namespace Vars

/-- A variable is a part of one of some expressions. -/
def Occurs (es : List Expr) (v : Var) : Prop := ∃ e ∈ es, ∃ tag, (Expr.var tag v).Within e

theorem occurs_iff {es : List Expr} {v : Var} : Occurs es v ↔ v ∈ es.flatMap Expr.occurrences := by
  simp only [Occurs, List.mem_flatMap, Expr.mem_occurrences_iff]

theorem insert_error {v : Var} {vars : List Var} {fault : Fault} (failed : insert v vars = .error fault) :
    ∃ u ∈ vars, u.name = v.name ∧ u.width ≠ v.width ∧ fault = .variableWidths v.name u.width v.width := by
  induction vars with
  | nil => cases failed
  | cons w rest ih =>
      unfold insert at failed
      split at failed
      · cases failed
      · next equal =>
        split at failed
        · cases failed
        · next differ =>
          cases failed
          exact ⟨w, List.mem_cons_self, (Std.compare_eq_iff_eq.mp equal).symm, differ, rfl⟩
      · cases deeper : insert v rest with
        | ok more =>
            rw [deeper] at failed
            cases failed
        | error fault' =>
            rw [deeper] at failed
            cases failed
            obtain ⟨u, member, clash⟩ := ih deeper
            exact ⟨u, List.mem_cons_of_mem w member, clash⟩

theorem insert_all_error {new found : List Var} {fault : Fault}
    (failed : new.foldlM (fun found v => insert v found) found = .error fault) :
    ∃ u ∈ found ++ new, ∃ v ∈ found ++ new,
      u.name = v.name ∧ u.width ≠ v.width ∧ fault = .variableWidths v.name u.width v.width := by
  induction new generalizing found with
  | nil => cases failed
  | cons v rest ih =>
      rw [List.foldlM_cons] at failed
      cases inserted : insert v found with
      | error fault' =>
          rw [inserted] at failed
          cases failed
          obtain ⟨u, member, clash⟩ := insert_error inserted
          exact ⟨u, List.mem_append_left _ member, v, by simp, clash⟩
      | ok more =>
          rw [inserted] at failed
          have moved : ∀ u ∈ more ++ rest, u ∈ found ++ v :: rest := by
            simp only [List.mem_append, mem_insert inserted, List.mem_cons]
            tauto
          obtain ⟨u, hu, w, hw, clash⟩ := ih failed
          exact ⟨u, moved u hu, w, moved w hw, clash⟩

/-- Collecting fails only on two variables of one name, and reports that name with both widths. -/
theorem find_error {es : List Expr} {fault : Fault} (failed : find es = .error fault) :
    ∃ name first second, Occurs es ⟨name, first⟩ ∧ Occurs es ⟨name, second⟩ ∧ first ≠ second ∧
      fault = .variableWidths name first second := by
  obtain ⟨⟨name, first⟩, hu, ⟨_, second⟩, hv, rfl, differ, reported⟩ := insert_all_error failed
  exact ⟨name, first, second, occurs_iff.mpr hu, occurs_iff.mpr hv, differ, reported⟩

/-- The variables of expressions of any shape can be listed exactly if no name occurs at two widths;
    otherwise the fault names one that does. The list has each variable that occurs and no other,
    strictly ascending by the bytes of the names, and it is the same for the same expressions in
    another order or number. -/
theorem find_exact (es : List Expr) :
    ((∃ fault, find es = .error fault) ↔
      ∃ u v, Occurs es u ∧ Occurs es v ∧ u.name = v.name ∧ u.width ≠ v.width) ∧
    (∀ fault, find es = .error fault → ∃ name first second, Occurs es ⟨name, first⟩ ∧
      Occurs es ⟨name, second⟩ ∧ first ≠ second ∧ fault = .variableWidths name first second) ∧
    ((∀ u v, Occurs es u → Occurs es v → u.name = v.name → u.width = v.width) →
      ∃ vars, find es = .ok vars ∧
        vars.Pairwise (fun u v => List.compareLex compare (Text.bytes u.name) (Text.bytes v.name) = .lt) ∧
        (∀ v, v ∈ vars ↔ Occurs es v) ∧
        ∀ es' : List Expr, es ⊆ es' → es' ⊆ es → find es' = .ok vars) := by
  refine ⟨⟨?_, ?_⟩, fun fault => find_error, ?_⟩
  · rintro ⟨fault, failed⟩
    obtain ⟨name, first, second, hu, hv, differ, _⟩ := find_error failed
    exact ⟨_, _, hu, hv, rfl, differ⟩
  · rintro ⟨u, v, hu, hv, name, differ⟩
    cases found : find es with
    | error fault => exact ⟨fault, rfl⟩
    | ok vars => exact absurd (oneWidth_of_find found u (occurs_iff.mp hu) v (occurs_iff.mp hv) name) differ
  · intro one
    have oneWidth : OneWidth (es.flatMap Expr.occurrences) := fun u hu v hv =>
      one u v (occurs_iff.mpr hu) (occurs_iff.mpr hv)
    obtain ⟨vars, found, members⟩ := find_ok oneWidth
    refine ⟨vars, found, ?_, fun v => (members v).trans occurs_iff.symm, fun es' all only => ?_⟩
    · simpa only [Sorted, Text.compare_eq_bytes] using (find_spec found).1
    · rw [← found]
      refine (find_congr oneWidth fun v => ?_).symm
      simp only [List.mem_flatMap]
      constructor
      · rintro ⟨e, member, occurs⟩
        exact ⟨e, all member, occurs⟩
      · rintro ⟨e, member, occurs⟩
        exact ⟨e, only member, occurs⟩

/-- Three variables in expressions that were put together by hand, listed twice over and backwards. -/
theorem find_exact_ill_formed :
    let wide := Expr.extract none (.concat none (.var none ⟨"é", 8⟩) (.var none ⟨"Z", 200⟩)) 500 0
    let mixed := Expr.binary none (.unassigned 99 (by decide)) (.zext none (.var none ⟨"a", 16⟩) 4) wide
    find [wide, mixed] = .ok [⟨"Z", 200⟩, ⟨"a", 16⟩, ⟨"é", 8⟩] ∧
      find [mixed, wide, mixed] = .ok [⟨"Z", 200⟩, ⟨"a", 16⟩, ⟨"é", 8⟩] := by
  intro wide mixed
  have one : OneWidth ([wide, mixed].flatMap Expr.occurrences) := by decide
  obtain ⟨vars, found, _, _, relisted⟩ := (find_exact [wide, mixed]).2.2 fun u v hu hv =>
    one u (occurs_iff.mp hu) v (occurs_iff.mp hv)
  have listed : find [wide, mixed] = .ok [⟨"Z", 200⟩, ⟨"a", 16⟩, ⟨"é", 8⟩] := by decide
  have again := relisted [mixed, wide, mixed] (by simp) (by simp)
  rw [found] at listed
  exact ⟨found.trans listed, again.trans listed⟩

end Vars

end SymbolicMemory
