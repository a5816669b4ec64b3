import SymbolicMemory.Expr.Build
import SymbolicMemory.Proofs.Variables

/-! # Evaluation

A well-formed expression denotes a bit vector of its own width. Evaluation returns that bit vector
if all variables have values; otherwise it reports the first variable from the left that has none.
It looks at no other variables. Partial evaluation gives the same answer as soon as it gives one, and
does not take an answer back when more variables get values.
-/

namespace SymbolicMemory

namespace Expr

/-- The bit vector that an expression denotes. Operands are fitted to the width of a node, which for a
    well-formed expression they have already. -/
def bits (ρ : Valuation) : (e : Expr) → BitVec e.width.toNat
  | const _ w => BitVec.ofNat _ w.value.toNat
  | var _ v => BitVec.ofNat _ (ρ v.name).toNat
  | concat _ msb lsb => (msb.bits ρ ++ lsb.bits ρ).setWidth _
  | extract _ source offset width => (source.bits ρ).extractLsb' offset.toNat width.toNat
  | not _ source => ~~~source.bits ρ
  | zext _ source width => (source.bits ρ).setWidth width.toNat
  | binary _ op lhs rhs =>
    let x := lhs.bits ρ
    let y := (rhs.bits ρ).setWidth lhs.width.toNat
    if op.isCompare then (BitVec.ofBool (op.comparison x y)).setWidth _ else (op.arithmetic x y).setWidth _

/-- The bit vector has the number that the expression stands for. -/
theorem toNat_bits (ρ : Valuation) {e : Expr} (wf : e.WellFormed) : (e.bits ρ).toNat = e.meaning ρ := by
  induction e with
  | const tag w => exact Nat.mod_eq_of_lt wf.2.2
  | var tag v => rfl
  | concat tag msb lsb ihm ihl =>
      have fits := meaning_lt ρ wf
      have low := meaning_lt ρ wf.2.1
      simp only [bits, meaning] at fits ⊢
      rw [BitVec.toNat_setWidth, BitVec.toNat_append, ihm wf.1, ihl wf.2.1, ← Nat.shiftLeft_add_eq_or_of_lt low,
        Nat.shiftLeft_eq, Nat.mod_eq_of_lt fits]
  | extract tag source offset width ih =>
      calc ((source.bits ρ).extractLsb' offset.toNat width.toNat).toNat
        _ = (source.bits ρ).toNat >>> offset.toNat % 2 ^ width.toNat := BitVec.extractLsb'_toNat ..
        _ = source.meaning ρ / 2 ^ offset.toNat % 2 ^ width.toNat := by rw [ih wf.1, Nat.shiftRight_eq_div_pow]
  | not tag source ih =>
      calc (~~~source.bits ρ).toNat
        _ = 2 ^ source.width.toNat - 1 - (source.bits ρ).toNat := BitVec.toNat_not
        _ = 2 ^ source.width.toNat - 1 - source.meaning ρ := by rw [ih wf]
  | zext tag source width ih =>
      calc ((source.bits ρ).setWidth width.toNat).toNat
        _ = (source.bits ρ).toNat % 2 ^ width.toNat := BitVec.toNat_setWidth ..
        _ = source.meaning ρ % 2 ^ width.toNat := by rw [ih wf.1]
        _ = source.meaning ρ := Nat.mod_eq_of_lt (meaning_lt ρ wf)
  | binary tag op lhs rhs ihl ihr =>
      have left : lhs.bits ρ = BitVec.ofNat _ (lhs.meaning ρ) := by
        rw [← ihl wf.2.1, BitVec.ofNat_toNat, BitVec.setWidth_eq]
      have right : (rhs.bits ρ).setWidth lhs.width.toNat = BitVec.ofNat _ (rhs.meaning ρ) := by
        rw [← ihr wf.2.2.1, BitVec.ofNat_toNat]
      have fits := meaning_lt ρ wf
      simp only [bits, meaning, Op.meaning, left, right, width] at fits ⊢
      split
      · next compare =>
        rw [if_pos compare, if_pos compare] at fits
        rw [BitVec.toNat_setWidth, BitVec.toNat_ofBool, if_pos compare, Nat.mod_eq_of_lt fits]
      · next compare =>
        rw [if_neg compare, if_neg compare] at fits
        rw [BitVec.toNat_setWidth, if_neg compare, Nat.mod_eq_of_lt fits]

/-- An operator on two constants makes a constant, the same as on their words. -/
theorem apply_const (op : Op) (tag tag' : Tag) (x y : Word) :
    (apply op (const tag x) (const tag' y)).map word? = (Word.binary op x y).map some := by
  by_cases same : x.width = y.width
  · have checked : checkWidths op (const tag x).width (const tag' y).width = .ok () := if_pos same
    simp only [apply, checked, combine, Word.binary, if_pos same, bind, Except.bind]
    cases Word.fold op x y with
    | error fault => rfl
    | ok r => cases r <;> rfl
  · have refused : checkWidths op (const tag x).width (const tag' y).width =
      .error (.operandWidths op x.width y.width) := if_neg same
    simp only [apply, refused, Word.binary, if_neg same, bind, Except.bind, Except.map]

section Eval

variable {a : Assignment}

/-- Only the variables that occur are looked at. -/
theorem eval_congr {a' : Assignment} {e : Expr} (same : ∀ v ∈ e.occurrences, a' v.name = a v.name) :
    e.eval a' = e.eval a := by
  induction e with
  | const tag w => rfl
  | var tag v => simp only [eval, same v (List.mem_singleton.mpr rfl)]
  | concat tag x y ihx ihy | binary tag op x y ihx ihy =>
      simp only [eval, ihx fun v occurs => same v (List.mem_append_left _ occurs),
        ihy fun v occurs => same v (List.mem_append_right _ occurs)]
  | extract tag x i n ih | not tag x ih | zext tag x n ih => simp only [eval, ih same]

/-- The first variable from the left that has no value. -/
def firstOpen (a : Assignment) (e : Expr) : Option Var := e.occurrences.find? fun v => (a v.name).isNone

theorem binds_iff_firstOpen {e : Expr} : a.Binds e ↔ e.firstOpen a = none := by
  simp [Assignment.Binds, firstOpen, Option.isSome_iff_ne_none]

theorem firstOpen_append {x y e : Expr} (parts : e.occurrences = x.occurrences ++ y.occurrences) :
    e.firstOpen a = (x.firstOpen a).or (y.firstOpen a) := by
  rw [firstOpen, parts, List.find?_append]
  rfl

/-- What fails for want of a value names the variable that is met first. -/
theorem eval_open {e : Expr} (wf : e.WellFormed) {v : Var} (first : e.firstOpen a = some v) :
    e.eval a = .error (.error (.unboundVariable v.name)) := by
  induction e with
  | const tag w => cases first
  | var tag u =>
      obtain ⟨missing, rfl⟩ : (a u.name).isNone = true ∧ u = v := by simpa [firstOpen, occurrences] using first
      rw [eval, Option.isNone_iff_eq_none.mp missing]
  | concat tag x y ihx ihy =>
      rw [firstOpen_append rfl] at first
      cases left : x.firstOpen a with
      | some u =>
          rw [left, Option.some_or] at first
          simp only [eval, ihx wf.1 (left.trans first), bind, Except.bind]
      | none =>
          rw [left, Option.none_or] at first
          simp only [eval, eval_eq wf.1 (binds_iff_firstOpen.mpr left), ihy wf.2.1 first, bind, Except.bind]
  | extract tag source offset width ih => simp only [eval, ih wf.1 first, bind, Except.bind]
  | not tag source ih => simp only [eval, ih wf first, bind, Except.bind]
  | zext tag source width ih => simp only [eval, ih wf.1 first, bind, Except.bind]
  | binary tag op x y ihx ihy =>
      rw [firstOpen_append rfl] at first
      cases left : x.firstOpen a with
      | some u =>
          rw [left, Option.some_or] at first
          simp only [eval, ihx wf.2.1 (left.trans first), bind, Except.bind]
      | none =>
          rw [left, Option.none_or] at first
          simp only [eval, eval_eq wf.2.1 (binds_iff_firstOpen.mpr left), ihy wf.2.2.1 first, bind, Except.bind]

end Eval

/-- Evaluation is the standard denotation in bit vectors. If the listed variables have values, it
    returns the bit vector of the expression, at its width; an operator is evaluated as it is built
    from constants. Otherwise it returns an error that names the first variable from the left
    without a value. Whether it returns or fails, other variables make no difference. -/
theorem eval_is_denotation {e : Expr} (wf : e.WellFormed) (a : Assignment) :
    (∀ vars, Vars.find [e] = .ok vars → ∀ v, v ∈ vars ↔ v ∈ e.occurrences) ∧
    ((∀ v ∈ e.occurrences, (a v.name).isSome) → ∃ w, e.eval a = .ok w ∧ w.width = e.width ∧
      w.value.toNat < 2 ^ e.width.toNat ∧ w.value.toNat = (e.bits a.valuation).toNat) ∧
    (∀ op tag tag' x y, (apply op (const tag x) (const tag' y)).map word? = (Word.binary op x y).map some) ∧
    (∀ before v later, e.occurrences = before ++ v :: later → (∀ u ∈ before, (a u.name).isSome) →
      a v.name = none → e.eval a = .error (.error (.unboundVariable v.name))) ∧
    ∀ a' : Assignment, (∀ v ∈ e.occurrences, a' v.name = a v.name) → e.eval a' = e.eval a := by
  refine ⟨fun vars found v => ?_, fun bound => ?_, fun op tag tag' x y => apply_const op tag tag' x y,
    fun before v later split bound missing => ?_, fun a' same => eval_congr same⟩
  · simpa using (Vars.find_spec found).2 v
  · have number := value_toNat a.valuation wf
    refine ⟨_, eval_eq wf bound, rfl, ?_, ?_⟩
    · rw [number]
      exact meaning_lt _ wf
    · rw [number, toNat_bits _ wf]
  · refine eval_open wf ?_
    have passed : before.find? (fun u => (a u.name).isNone) = none := by
      simpa [Option.isSome_iff_ne_none] using bound
    rw [firstOpen, split, List.find?_append, passed, Option.none_or, List.find?_cons, missing]
    rfl

/-- A quotient by zero, a value beyond the width of its variable, and a variable without a value. -/
theorem eval_is_denotation_quotient :
    let x : Expr := var none ⟨"x", 8⟩
    let y : Expr := var none ⟨"y", 8⟩
    let e : Expr := concat none (binary none .ne x y) (extract none (binary none .udiv x y) 4 4)
    let a : Assignment := (Assignment.empty.set "x" 0x103).set "y" 0
    e.WellFormed ∧
      (∃ w, e.eval a = .ok w ∧ w.width = 5 ∧ w.value.toNat = (e.bits a.valuation).toNat ∧ w.value = 0x1f) ∧
      e.eval (Assignment.empty.set "x" 3) = .error (.error (.unboundVariable "y")) := by
  intro x y e a
  have wf : e.WellFormed := by decide
  obtain ⟨_, bound, _⟩ := eval_is_denotation wf a
  obtain ⟨_, _, _, missing, _⟩ := eval_is_denotation wf (Assignment.empty.set "x" 3)
  obtain ⟨w, done, width, _, denoted⟩ := bound (by decide)
  refine ⟨wf, ⟨w, done, width, denoted, ?_⟩, ?_⟩
  · rw [← UInt64.toNat_inj, denoted]
    decide
  · exact missing [⟨"x", 8⟩] ⟨"y", 8⟩ [⟨"x", 8⟩, ⟨"y", 8⟩] rfl (by decide) rfl

end Expr

/-- One assignment keeps the values of another, and may have more. -/
def Assignment.Extends (a' a : Assignment) : Prop := ∀ name x, a name = some x → a' name = some x

theorem Assignment.Extends.agrees {a a' : Assignment} (more : a'.Extends a) {ρ : Valuation}
    (agrees : a'.Agrees ρ) : a.Agrees ρ := fun name x known => agrees name x (more name x known)

namespace Expr

variable {a a' : Assignment}

/-- An answer is the value under every completion. -/
theorem value_of_evalPartial {e : Expr} (wf : e.WellFormed) {c : Word} (answered : e.evalPartial a = .ok (some c))
    {ρ : Valuation} (agrees : a.Agrees ρ) : c = e.value ρ := by
  obtain ⟨r, evaluated, settles⟩ := evalPartial_settles a wf
  cases answered.symm.trans evaluated
  exact settles ρ agrees

/-- Two answers agree, as some completion is one of both. -/
theorem evalPartial_inj {e : Expr} (wf : e.WellFormed) (more : a'.Extends a) {c c' : Word}
    (answered : e.evalPartial a = .ok (some c)) (answered' : e.evalPartial a' = .ok (some c')) : c' = c := by
  have agrees := a'.agrees_valuation
  rw [value_of_evalPartial wf answered' agrees, value_of_evalPartial wf answered (more.agrees agrees)]

/-- An answer that is computed from one operand stands if that of the operand does. -/
theorem source_mono {x y : Except Fault (Option Word)} {compute : Word → Except Fault Word}
    (mono : ∀ w, x = .ok (some w) → y = .ok (some w)) {c : Word}
    (answered : (match x with
      | .error fault => Except.error fault
      | .ok none => Except.ok none
      | .ok (some w) => (compute w).map some) = .ok (some c)) :
    (match y with
      | .error fault => Except.error fault
      | .ok none => Except.ok none
      | .ok (some w) => (compute w).map some) = .ok (some c) := by
  rcases x with fault | _ | w
  · cases answered
  · cases answered
  · rw [mono w rfl]
    exact answered

/-- What an answer to a binary node comes from: an operand that decides alone, or both operands. -/
inductive Answered (a : Assignment) (op : Op) (lhs rhs : Expr) (c : Word) : Prop
  | left : lhs.evalPartial a = .ok (some c) → decides op lhs c = true → Answered a op lhs rhs c
  | right : rhs.evalPartial a = .ok (some c) → decides op lhs c = true → Answered a op lhs rhs c
  | both {l r : Word} : lhs.evalPartial a = .ok (some l) → rhs.evalPartial a = .ok (some r) →
      Word.binary op l r = .ok c → Answered a op lhs rhs c

theorem answered_of_binary {tag : Tag} {op : Op} {lhs rhs : Expr} {c : Word}
    (answered : (binary tag op lhs rhs).evalPartial a = .ok (some c)) : Answered a op lhs rhs c := by
  rw [evalPartial] at answered
  cases left : lhs.evalPartial a with
  | error fault =>
      rw [left] at answered
      cases answered
  | ok l =>
      simp only [left] at answered
      split at answered
      · next decided =>
        cases answered
        exact .left left (by simpa using decided)
      cases right : rhs.evalPartial a with
      | error fault =>
          rw [right] at answered
          cases answered
      | ok r =>
          simp only [right] at answered
          split at answered
          · next decided =>
            cases answered
            exact .right right (by simpa using decided)
          rcases l with _ | l
          · cases answered
          rcases r with _ | r
          · cases answered
          refine .both left right ?_
          cases computed : Word.binary op l r with
          | error fault =>
              simp only [computed] at answered
              cases answered
          | ok w =>
              simp only [computed] at answered
              cases answered
              rfl

/-- An answer that comes from the operands is given, though maybe another operand decides. -/
theorem Answered.exists {tag : Tag} {op : Op} {lhs rhs : Expr} {c : Word} (answered : Answered a op lhs rhs c)
    (left : lhs.WellFormed) (right : rhs.WellFormed) :
    ∃ c', (binary tag op lhs rhs).evalPartial a = .ok (some c') := by
  obtain ⟨l, evalLeft, _⟩ := evalPartial_settles a left
  obtain ⟨r, evalRight, _⟩ := evalPartial_settles a right
  simp only [evalPartial, evalLeft, evalRight]
  split
  · next decided =>
    obtain ⟨w, rfl, _⟩ := (Option.any_eq_true _ _).mp decided
    exact ⟨w, rfl⟩
  split
  · next decided =>
    obtain ⟨w, rfl, _⟩ := (Option.any_eq_true _ _).mp decided
    exact ⟨w, rfl⟩
  next undecided undecided' =>
    cases answered with
    | left answer decides =>
        cases answer.symm.trans evalLeft
        exact absurd decides undecided
    | right answer decides =>
        cases answer.symm.trans evalRight
        exact absurd decides undecided'
    | both answer answer' computed =>
        cases answer.symm.trans evalLeft
        cases answer'.symm.trans evalRight
        simp only [computed]
        exact ⟨c, rfl⟩

/-- No answer is taken back. -/
theorem evalPartial_mono (more : a'.Extends a) {e : Expr} (wf : e.WellFormed) {c : Word}
    (answered : e.evalPartial a = .ok (some c)) : e.evalPartial a' = .ok (some c) := by
  induction e generalizing c with
  | const tag w => exact answered
  | var tag v =>
      rw [evalPartial] at answered ⊢
      cases known : a v.name with
      | none =>
          rw [known] at answered
          cases answered
      | some x =>
          rw [known] at answered
          rw [more v.name x known]
          exact answered
  | concat tag msb lsb ihm ihl =>
      rw [evalPartial] at answered ⊢
      rcases high : msb.evalPartial a with fault | _ | h <;> rw [high] at answered
      · cases answered
      · cases answered
      · rw [ihm wf.1 high]
        exact source_mono (fun _ => ihl wf.2.1) answered
  | extract tag source offset width ih =>
      rw [evalPartial] at answered ⊢
      exact source_mono (fun _ => ih wf.1) answered
  | not tag source ih =>
      rw [evalPartial] at answered ⊢
      exact source_mono (fun _ => ih wf) answered
  | zext tag source width ih =>
      rw [evalPartial] at answered ⊢
      exact source_mono (fun _ => ih wf.1) answered
  | binary tag op lhs rhs ihl ihr =>
      have later : Answered a' op lhs rhs c := by
        cases answered_of_binary answered with
        | left answer decides => exact .left (ihl wf.2.1 answer) decides
        | right answer decides => exact .right (ihr wf.2.2.1 answer) decides
        | both answer answer' computed => exact .both (ihl wf.2.1 answer) (ihr wf.2.2.1 answer') computed
      obtain ⟨c', answered'⟩ := later.exists wf.2.1 wf.2.2.1
      rw [answered', evalPartial_inj wf more answered answered']

/-- Evaluation and partial evaluation agree. Partial evaluation never faults. As soon as it answers,
    evaluation returns the same under every assignment that has the values known so far and some for
    all variables, and partial evaluation answers the same when more values are known. It answers at
    the latest when all variables have values. -/
theorem evalPartial_agrees {e : Expr} (wf : e.WellFormed) (a : Assignment) :
    (∃ r, e.evalPartial a = .ok r) ∧
    (∀ c, e.evalPartial a = .ok (some c) →
      (∀ m : Assignment, m.Extends a → (∀ v ∈ e.occurrences, (m v.name).isSome) → e.eval m = .ok c) ∧
      ∀ a' : Assignment, a'.Extends a → e.evalPartial a' = .ok (some c)) ∧
    ((∀ v ∈ e.occurrences, (a v.name).isSome) → ∃ c, e.evalPartial a = .ok (some c)) := by
  obtain ⟨r, evaluated, settles⟩ := evalPartial_settles a wf
  refine ⟨⟨r, evaluated⟩, fun c answered => ⟨fun m more bound => ?_, fun a' more => ?_⟩, fun bound => ?_⟩
  · rw [eval_eq wf bound, value_of_evalPartial wf answered (more.agrees m.agrees_valuation)]
  · exact evalPartial_mono more wf answered
  · cases r with
    | some c => exact ⟨c, evaluated⟩
    | none =>
        obtain ⟨v, occurs, missing⟩ := settles
        have known := bound v occurs
        rw [missing] at known
        cases known

/-- A conjunction is decided by its right side while a variable on its left has no value. -/
theorem evalPartial_agrees_decided :
    let e : Expr := binary none .and (binary none .ult (var none ⟨"y", 8⟩) (const none ⟨3, 8⟩)) (var none ⟨"x", 1⟩)
    let a : Assignment := Assignment.empty.set "x" 2
    e.WellFormed ∧ e.evalPartial a = .ok (some ⟨0, 1⟩) ∧ a "y" = none ∧
      (∀ y, e.eval (a.set "y" y) = .ok ⟨0, 1⟩) ∧ ∀ y, e.evalPartial (a.set "y" y) = .ok (some ⟨0, 1⟩) := by
  intro e a
  have wf : e.WellFormed := by decide
  have answered : e.evalPartial a = .ok (some ⟨0, 1⟩) := rfl
  obtain ⟨_, stands, _⟩ := evalPartial_agrees wf a
  obtain ⟨total, partially⟩ := stands _ answered
  have more : ∀ y, (a.set "y" y).Extends a := by
    intro y name x known
    have other : name ≠ "y" := by
      rintro rfl
      cases known
    rw [Assignment.set_other a other, known]
  refine ⟨wf, answered, rfl, fun y => total _ (more y) ?_, fun y => partially _ (more y)⟩
  simp [e, occurrences, a, Assignment.set]

end Expr

end SymbolicMemory
