import SymbolicMemory.Concretizer
import SymbolicMemory.Proofs.Meaning
import SymbolicMemory.Proofs.Outcome

/-! # Concrete addresses are attained

A solver may answer anything, but a single address is never taken from it on trust: the address
is what the expression evaluates to under the solver's answer. So whatever the solver says, an
address that a strategy for stores settles on is one that the expression can be.
-/

namespace SymbolicMemory

namespace Expr

/-- Some valuation gives the expression this value. -/
def Attains (e : Expr) (x : UInt64) : Prop := ∃ ρ, e.meaning ρ = x.toNat

/-- Evaluation asks for every variable. -/
theorem binds_of_eval {a : Assignment} {e : Expr} {w : Word} (h : e.eval a = .ok w) : a.Binds e := by
  induction e generalizing w with
  | const tag w' => exact nofun
  | var tag v =>
      intro u occurs
      rw [List.mem_singleton.mp occurs]
      cases known : a v.name with
      | some x => rfl
      | none =>
          rw [eval, known] at h
          cases h
  | concat tag msb lsb ihm ihl =>
      obtain ⟨high, highEval, h⟩ := bind_ok h
      obtain ⟨low, lowEval, h⟩ := bind_ok h
      exact fun v occurs => (List.mem_append.mp occurs).elim (ihm highEval v) (ihl lowEval v)
  | extract tag source offset width ih =>
      obtain ⟨inner, innerEval, h⟩ := bind_ok h
      exact ih innerEval
  | not tag source ih =>
      obtain ⟨inner, innerEval, h⟩ := bind_ok h
      exact ih innerEval
  | zext tag source width ih =>
      obtain ⟨inner, innerEval, h⟩ := bind_ok h
      exact ih innerEval
  | binary tag op lhs rhs ihl ihr =>
      obtain ⟨left, leftEval, h⟩ := bind_ok h
      obtain ⟨right, rightEval, h⟩ := bind_ok h
      exact fun v occurs => (List.mem_append.mp occurs).elim (ihl leftEval v) (ihr rightEval v)

theorem attains_of_eval {a : Assignment} {e : Expr} {w : Word} (wf : e.WellFormed)
    (h : e.eval a = .ok w) : e.Attains w.value := by
  have same := h.symm.trans (eval_eq wf (binds_of_eval h))
  exact ⟨a.valuation, by rw [Except.ok.inj same, value_toNat _ wf]⟩

end Expr

namespace Value

variable {v : Value} (wf : v.expr.WellFormed)

include wf

theorem solve_attains (extra : List Expr) :
    Ensures (v.solve extra) (fun answer => ∀ x ∈ answer, v.expr.Attains x) (fun _ => True) := by
  unfold solve
  cases v.solver with
  | none => exact .throw True.intro
  | some solver =>
      refine (Ensures.trivial _).bind fun vars _ => (Ensures.trivial _).bind fun answer _ => ?_
      cases answer with
      | none => exact .pure nofun
      | some values =>
          refine (Ensures.trivial _).bind fun a _ => ?_
          cases result : v.expr.eval a with
          | error failure => exact .throw True.intro
          | ok w =>
              refine .pure fun x member => ?_
              cases member
              exact Expr.attains_of_eval wf result

theorem any_attains : Ensures v.any v.expr.Attains (fun _ => True) := by
  unfold any
  split
  · next tag w constant =>
    rw [constant]
    exact .pure ⟨fun _ => 0, rfl⟩
  · refine (solve_attains wf []).bind fun answer attains => ?_
    cases answer with
    | none => exact .throw True.intro
    | some x => exact .pure (attains x rfl)

end Value

namespace Concretizer

variable {v : Value} (wf : v.expr.WellFormed)

include wf

theorem anyUnder_attains (condition : Expr) :
    Ensures (anyUnder v condition) (fun found => ∀ x ∈ found, v.expr.Attains x) (fun _ => True) := by
  unfold anyUnder
  split
  · exact .pure nofun
  · have single : Ensures (do pure [← (v.under [condition]).any] : Run (List UInt64))
        (fun found => ∀ x ∈ found, v.expr.Attains x) (fun _ => True) :=
      (Value.any_attains (v := v.under [condition]) wf).bind fun x attains =>
        .pure fun y member => List.mem_singleton.mp member ▸ attains
    refine single.tryCatch fun failure _ => ?_
    cases failure with
    | fault fault => exact .throw True.intro
    | error e =>
        dsimp only
        split
        · exact .pure nofun
        · exact .throw True.intro

theorem anyIn_attains (regions : List Region) :
    Ensures (anyIn v regions) (fun found => ∀ x ∈ found, v.expr.Attains x) (fun _ => True) := by
  induction regions with
  | nil => exact .pure nofun
  | cons r rest ih =>
      refine (Ensures.trivial _).bind fun condition _ => ?_
      refine (anyUnder_attains wf condition).bind fun found attains => ?_
      split
      · exact ih
      · exact .pure attains

theorem anyFree_attains (c : Concretizer) :
    Ensures (c.anyFree v) (fun found => ∀ x ∈ found, v.expr.Attains x) (fun _ => True) := by
  unfold anyFree
  split
  · exact .pure nofun
  · exact (Ensures.trivial _).bind fun condition _ => anyUnder_attains wf condition

theorem choose_attains (c : Concretizer) {s : Strategy} (single : s ≠ .symbolic) :
    Ensures (c.choose v s) (fun found => ∀ x ∈ found, v.expr.Attains x) (fun _ => True) := by
  cases s with
  | free => exact anyFree_attains wf c
  | writeable => exact anyIn_attains wf _
  | executable => exact anyIn_attains wf _
  | symbolic => exact absurd rfl single
  | any =>
      exact (Value.any_attains wf).bind fun x attains =>
        .pure fun y member => List.mem_singleton.mp member ▸ attains
  | unknown name => exact .throw True.intro

theorem firstOf_attains (c : Concretizer) {strategies : List Strategy}
    (single : .symbolic ∉ strategies) :
    Ensures (c.firstOf v strategies) (fun found => v.expr.Attains found.first) (fun _ => True) := by
  induction strategies with
  | nil => exact .throw True.intro
  | cons s rest ih =>
      obtain ⟨here, later⟩ := not_or.mp (mt List.mem_cons.mpr single)
      refine (choose_attains wf c (Ne.symm here)).bind fun found attains => ?_
      cases found with
      | nil => exact ih later
      | cons first others =>
          refine (Ensures.trivial _).bind fun _ _ => (Ensures.trivial _).bind fun _ _ => ?_
          exact .pure (attains first List.mem_cons_self)

/-- An address found without listing all of them is one that the expression can be, whatever the
    solver answers. -/
theorem concretize_attains (c : Concretizer) {strategies : List Strategy}
    (single : .symbolic ∉ strategies) :
    Ensures (c.concretize v strategies) (fun found => v.expr.Attains found.first)
      (fun _ => True) := by
  have resolved : Ensures (c.resolve v strategies) (fun found => v.expr.Attains found.first)
      (fun _ => True) := by
    refine (Ensures.trivial _).bind fun unique _ => ?_
    split
    · refine (Value.any_attains wf).bind fun x attains => ?_
      refine (Ensures.trivial _).bind fun _ _ => (Ensures.trivial _).bind fun _ _ => ?_
      exact .pure attains
    · exact firstOf_attains wf c single
  have attempted : Ensures (do
      if v.isSymbolic then
        if !(← v.isSatisfiable) then throw (.error .unsatAddress)
      c.resolve v strategies) (fun found => v.expr.Attains found.first) (fun _ => True) := by
    split
    · refine (Ensures.trivial _).bind fun satisfiable _ => ?_
      split
      · exact (Ensures.trivial _).bind fun _ _ => resolved
      · exact resolved
    · exact resolved
  refine attempted.tryCatch fun failure _ => ?_
  cases failure with
  | error e => exact .throw True.intro
  | fault fault => exact .throw True.intro

end Concretizer

end SymbolicMemory
