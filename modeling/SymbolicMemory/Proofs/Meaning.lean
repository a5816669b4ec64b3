import SymbolicMemory.Expr.Eval
import SymbolicMemory.Expr.Order
import SymbolicMemory.Expr.Stamp
import SymbolicMemory.Expr.Vars
import SymbolicMemory.Proofs.BitVector

/-! # The meaning of expressions

A well-formed expression stands for a number below two to the power of its width once
every variable has a value. Evaluation computes that number and fails only for want of
a value. Tags have no meaning, so expressions of one shape stand for the same number,
in particular before and after stamping.

Simplification is stated through `Denotes`: an expression is well-formed, has a given
width, uses no variables but given ones, and stands for a given number everywhere.
-/

namespace SymbolicMemory

/-- A value for every variable, by name. -/
abbrev Valuation := String → UInt64

namespace Assignment

/-- Every variable of an expression has a value. -/
def Binds (a : Assignment) (e : Expr) : Prop := ∀ v ∈ e.occurrences, (a v.name).isSome

/-- The values of an assignment, and zero where there is none. -/
def valuation (a : Assignment) : Valuation := fun name => (a name).getD 0

/-- The assignment that gives every variable its value. -/
def total (ρ : Valuation) : Assignment := fun name => some (ρ name)

theorem total_binds (ρ : Valuation) (e : Expr) : (total ρ).Binds e := fun _ _ => rfl

@[simp] theorem valuation_total (ρ : Valuation) : (total ρ).valuation = ρ := rfl

end Assignment

namespace Expr

/-- Constants are masked, every width is 1 to 64, operators are known and applied at one width,
    slices lie within their source, and extensions widen. -/
def WellFormed : Expr → Prop
  | const _ w => w.Masked
  | var _ v => 0 < v.width ∧ v.width ≤ 64
  | concat _ msb lsb =>
    msb.WellFormed ∧ lsb.WellFormed ∧ msb.width.toNat + lsb.width.toNat ≤ 64
  | extract _ source offset width =>
    source.WellFormed ∧ 0 < width ∧ offset.toNat + width.toNat ≤ source.width.toNat
  | not _ source => source.WellFormed
  | zext _ source width => source.WellFormed ∧ source.width < width ∧ width ≤ 64
  | binary _ op lhs rhs => op.Known ∧ lhs.WellFormed ∧ rhs.WellFormed ∧ lhs.width = rhs.width

instance decidableWellFormed : (e : Expr) → Decidable e.WellFormed
  | const _ w => inferInstanceAs (Decidable w.Masked)
  | var _ v => inferInstanceAs (Decidable (0 < v.width ∧ v.width ≤ 64))
  | concat _ msb lsb =>
    have := decidableWellFormed msb
    have := decidableWellFormed lsb
    inferInstanceAs (Decidable (_ ∧ _ ∧ _))
  | extract _ source _ _ =>
    have := decidableWellFormed source
    inferInstanceAs (Decidable (_ ∧ _ ∧ _))
  | not _ source => decidableWellFormed source
  | zext _ source _ =>
    have := decidableWellFormed source
    inferInstanceAs (Decidable (_ ∧ _ ∧ _))
  | binary _ op lhs rhs =>
    have := decidableWellFormed lhs
    have := decidableWellFormed rhs
    inferInstanceAs (Decidable (op.Known ∧ _ ∧ _ ∧ lhs.width = rhs.width))

/-- The number that an expression stands for. -/
def meaning (ρ : Valuation) : Expr → Nat
  | const _ w => w.value.toNat
  | var _ v => (ρ v.name).toNat % 2 ^ v.width.toNat
  | concat _ msb lsb => msb.meaning ρ * 2 ^ lsb.width.toNat + lsb.meaning ρ
  | extract _ source offset width => source.meaning ρ / 2 ^ offset.toNat % 2 ^ width.toNat
  | not _ source => 2 ^ source.width.toNat - 1 - source.meaning ρ
  | zext _ source _ => source.meaning ρ
  | binary _ op lhs rhs => op.meaning lhs.width.toNat (lhs.meaning ρ) (rhs.meaning ρ)

theorem width_bounds {e : Expr} (wf : e.WellFormed) : 0 < e.width ∧ e.width ≤ 64 := by
  induction e with
  | const tag w => exact ⟨wf.1, wf.2.1⟩
  | var tag v => exact wf
  | concat tag msb lsb ihm ihl =>
      have total := toNat_add_small wf.2.2
      have pos := UInt64.lt_iff_toNat_lt.mp (ihm wf.1).1
      constructor
      · rw [UInt64.lt_iff_toNat_lt, width, total]
        omega
      · rw [UInt64.le_iff_toNat_le, width, total]
        exact wf.2.2
  | extract tag source offset width ih =>
      refine ⟨wf.2.1, ?_⟩
      have source_le := UInt64.le_iff_toNat_le.mp (ih wf.1).2
      rw [UInt64.le_iff_toNat_le]
      have inside := wf.2.2
      simp only [Expr.width] at source_le ⊢
      omega
  | not tag source ih => exact ih wf
  | zext tag source width ih => exact ⟨UInt64.lt_trans (ih wf.1).1 wf.2.1, wf.2.2⟩
  | binary tag op lhs rhs ihl ihr =>
      simp only [width]
      split
      · decide
      · exact ihl wf.2.1

theorem occurrence_bounds {e : Expr} (wf : e.WellFormed) {v : Var} (occurs : v ∈ e.occurrences) :
    0 < v.width ∧ v.width ≤ 64 := by
  induction e with
  | const tag w => cases occurs
  | var tag u => exact List.mem_singleton.mp occurs ▸ wf
  | concat tag msb lsb ihm ihl =>
      exact (List.mem_append.mp occurs).elim (ihm wf.1) (ihl wf.2.1)
  | extract tag source offset width ih => exact ih wf.1 occurs
  | not tag source ih => exact ih wf occurs
  | zext tag source width ih => exact ih wf.1 occurs
  | binary tag op lhs rhs ihl ihr =>
      exact (List.mem_append.mp occurs).elim (ihl wf.2.1) (ihr wf.2.2.1)

theorem meaning_lt (ρ : Valuation) {e : Expr} (wf : e.WellFormed) :
    e.meaning ρ < 2 ^ e.width.toNat := by
  induction e with
  | const tag w => exact wf.2.2
  | var tag v => exact Nat.mod_lt _ (Nat.two_pow_pos _)
  | concat tag msb lsb ihm ihl =>
      rw [width, toNat_add_small wf.2.2, meaning]
      exact mul_two_pow_add_lt (ihm wf.1) (ihl wf.2.1)
  | extract tag source offset width ih => exact Nat.mod_lt _ (Nat.two_pow_pos _)
  | not tag source ih =>
      have pos := Nat.two_pow_pos source.width.toNat
      simp only [meaning, width]
      omega
  | zext tag source width ih =>
      have wider := UInt64.lt_iff_toNat_lt.mp wf.2.1
      exact Nat.lt_of_lt_of_le (ih wf.1) (Nat.pow_le_pow_right (by decide) (Nat.le_of_lt wider))
  | binary tag op lhs rhs ihl ihr => exact op.meaning_lt lhs.width _ _

theorem meaning_lt_machine (ρ : Valuation) {e : Expr} (wf : e.WellFormed) :
    e.meaning ρ < 2 ^ 64 :=
  Nat.lt_of_lt_of_le (meaning_lt ρ wf) (two_pow_toNat_le (width_bounds wf).2)

/-- Only the variables that occur matter. -/
theorem meaning_congr {ρ ρ' : Valuation} {e : Expr} (same : ∀ v ∈ e.occurrences, ρ v.name = ρ' v.name) :
    e.meaning ρ = e.meaning ρ' := by
  induction e with
  | const tag w => rfl
  | var tag v => simp only [meaning, same v (List.mem_singleton.mpr rfl)]
  | concat tag x y ihx ihy | binary tag op x y ihx ihy =>
      simp only [meaning, ihx fun v occurs => same v (List.mem_append_left _ occurs),
        ihy fun v occurs => same v (List.mem_append_right _ occurs)]
  | extract tag x i n ih | not tag x ih | zext tag x n ih => simp only [meaning, ih same]

/-- The number that an expression stands for, as a word. -/
def value (ρ : Valuation) (e : Expr) : Word := Word.ofNat (e.meaning ρ) e.width

theorem value_masked (ρ : Valuation) {e : Expr} (wf : e.WellFormed) : (e.value ρ).Masked :=
  Word.ofNat_masked (width_bounds wf).1 (width_bounds wf).2 (meaning_lt ρ wf)

theorem value_toNat (ρ : Valuation) {e : Expr} (wf : e.WellFormed) :
    (e.value ρ).value.toNat = e.meaning ρ :=
  Word.value_ofNat (meaning_lt_machine ρ wf) _

section Nodes

variable (ρ : Valuation) {tag : Tag}

theorem make_value {v : Var} (wf : (var tag v).WellFormed) :
    Word.make (ρ v.name) v.width = .ok ((var tag v).value ρ) :=
  Word.make_eq wf.1 wf.2

theorem concat_value {msb lsb : Expr} (wf : (concat tag msb lsb).WellFormed) :
    (msb.value ρ).concat (lsb.value ρ) = .ok ((concat tag msb lsb).value ρ) := by
  rw [Word.concat_eq (value_masked ρ wf.1) (value_masked ρ wf.2.1) wf.2.2, value_toNat ρ wf.1,
    value_toNat ρ wf.2.1]
  rfl

theorem extract_value {source : Expr} {offset width : UInt64}
    (wf : (extract tag source offset width).WellFormed) :
    (source.value ρ).extract offset width = .ok ((extract tag source offset width).value ρ) := by
  have le : width ≤ 64 := (width_bounds wf).2
  rw [Word.extract_eq _ _ wf.2.1 le, value_toNat ρ wf.1]
  rfl

theorem not_value {source : Expr} (wf : (not tag source).WellFormed) :
    (source.value ρ).not = .ok ((not tag source).value ρ) := by
  have inner : source.WellFormed := wf
  rw [Word.not_eq (value_masked ρ inner), value_toNat ρ inner]
  rfl

theorem zext_value {source : Expr} {width : UInt64} (wf : (zext tag source width).WellFormed) :
    (source.value ρ).resize width = .ok ((zext tag source width).value ρ) := by
  have fits : source.meaning ρ < 2 ^ width.toNat := meaning_lt ρ wf
  have pos : 0 < width := (width_bounds wf).1
  rw [Word.resize_eq _ pos wf.2.2, value_toNat ρ wf.1, Nat.mod_eq_of_lt fits]
  rfl

theorem binary_value {op : Op} {lhs rhs : Expr} (wf : (binary tag op lhs rhs).WellFormed) :
    Word.binary op (lhs.value ρ) (rhs.value ρ) = .ok ((binary tag op lhs rhs).value ρ) := by
  rw [Word.binary_eq wf.1 (value_masked ρ wf.2.1) (value_masked ρ wf.2.2.1) wf.2.2.2, Word.result,
    value_toNat ρ wf.2.1, value_toNat ρ wf.2.2.1]
  rfl

end Nodes

/-- Evaluation of a well-formed expression whose variables have values gives its meaning. -/
theorem eval_eq {a : Assignment} {e : Expr} (wf : e.WellFormed) (bound : a.Binds e) :
    e.eval a = .ok (e.value a.valuation) := by
  induction e with
  | const tag w => rw [eval, value, meaning, width, Word.ofNat_toNat]
  | var tag v =>
      obtain ⟨x, known⟩ := Option.isSome_iff_exists.mp (bound v (by simp [occurrences]))
      have given : a.valuation v.name = x := by rw [Assignment.valuation, known, Option.getD_some]
      rw [eval, known]
      simp only [← given, make_value a.valuation wf, Failure.ofFault]
  | concat tag msb lsb ihm ihl =>
      have high := ihm wf.1 fun v hv => bound v (by simp [occurrences, hv])
      have low := ihl wf.2.1 fun v hv => bound v (by simp [occurrences, hv])
      simp only [eval, high, low, bind, Except.bind, concat_value a.valuation wf, Failure.ofFault]
  | extract tag source offset width ih =>
      simp only [eval, ih wf.1 bound, bind, Except.bind, extract_value a.valuation wf,
        Failure.ofFault]
  | not tag source ih =>
      simp only [eval, ih wf bound, bind, Except.bind, not_value a.valuation wf, Failure.ofFault]
  | zext tag source width ih =>
      simp only [eval, ih wf.1 bound, bind, Except.bind, zext_value a.valuation wf,
        Failure.ofFault]
  | binary tag op lhs rhs ihl ihr =>
      have left := ihl wf.2.1 fun v hv => bound v (by simp [occurrences, hv])
      have right := ihr wf.2.2.1 fun v hv => bound v (by simp [occurrences, hv])
      simp only [eval, left, right, bind, Except.bind, binary_value a.valuation wf,
        Failure.ofFault]

section Shape

theorem width_erase (e : Expr) : e.erase.width = e.width := by
  induction e <;> simp_all [erase, width]

theorem occurrences_erase (e : Expr) : e.erase.occurrences = e.occurrences := by
  induction e <;> simp_all [erase, occurrences]

theorem meaning_erase (ρ : Valuation) (e : Expr) : e.erase.meaning ρ = e.meaning ρ := by
  induction e <;> simp_all [erase, meaning, width_erase]

theorem wellFormed_erase (e : Expr) : e.erase.WellFormed ↔ e.WellFormed := by
  induction e <;> simp_all [erase, WellFormed, width_erase]

theorem erase_stamp (e : Expr) (next : Nat) : (e.stamp next).1.erase = e.erase := by
  induction e generalizing next with
  | const tag w | var tag v => cases tag <;> rfl
  | concat tag x y ihx ihy | binary tag op x y ihx ihy =>
      cases tag with
      | none => simp only [stamp, erase, ihx, ihy]
      | some t => rfl
  | extract tag x i n ih | not tag x ih | zext tag x n ih =>
      cases tag with
      | none => simp only [stamp, erase, ih]
      | some t => rfl

theorem ofCode_code (op : Op) : Op.ofCode op.code = op := by
  cases op with
  | unassigned code free => exact dif_neg free
  | _ => rfl

theorem erase_of_order {a b : Expr} (h : a.order b = .eq) : a.erase = b.erase := by
  fun_induction Expr.order a b with
  | case1 => rfl
  | case2 tag a tag' b =>
      simp only [Word.order, Ordering.then_eq_eq, Std.compare_eq_iff_eq] at h
      cases a; cases b
      simp_all [erase]
  | case3 tag a tag' b =>
      simp only [Var.order, Ordering.then_eq_eq, Std.compare_eq_iff_eq] at h
      cases a; cases b
      simp_all [erase]
  | case4 tag a b tag' c d apart ih ih' =>
      rw [Ordering.then_eq_eq] at h
      simp only [erase, ih h.1, ih' h.2]
  | case5 tag a i n tag' b j m apart ih =>
      simp only [Ordering.then_eq_eq, Std.compare_eq_iff_eq] at h
      simp only [erase, h.1.1, h.1.2, ih h.2]
  | case6 tag a tag' b apart ih => simp only [erase, ih h]
  | case7 tag a n tag' b m apart ih =>
      simp only [Ordering.then_eq_eq, Std.compare_eq_iff_eq] at h
      simp only [erase, h.1, ih h.2]
  | case8 tag op a b tag' op' c d apart ih ih' =>
      simp only [Ordering.then_eq_eq, Std.compare_eq_iff_eq] at h
      have ops : op = op' := by rw [← ofCode_code op, h.1, ofCode_code]
      simp only [erase, ops, ih h.2.1, ih' h.2.2]
  | case9 a b =>
      -- Nodes of different kinds have different ranks.
      rw [Std.compare_eq_iff_eq] at h
      cases a <;> cases b <;> grind [kind, Kind.rank]

theorem meaning_of_alike {a b : Expr} (h : a.alike b) (ρ : Valuation) : a.meaning ρ = b.meaning ρ := by
  rw [← meaning_erase, erase_of_order (beq_iff_eq.mp h), meaning_erase]

end Shape

/-- A well-formed expression of a given width, over given variables, that stands for a given
    number under every valuation. -/
structure Denotes (e : Expr) (width : UInt64) (vars : List Var) (value : Valuation → Nat) : Prop where
  wellFormed : e.WellFormed
  width_eq : e.width = width
  vars_subset : e.occurrences ⊆ vars
  meaning_eq : ∀ ρ, e.meaning ρ = value ρ

/-- Building succeeds, with an expression that denotes what is asked for. -/
def Builds (built : Except Fault Expr) (width : UInt64) (vars : List Var)
    (value : Valuation → Nat) : Prop :=
  ∃ e, built = .ok e ∧ e.Denotes width vars value

theorem denotes_self {e : Expr} (wf : e.WellFormed) :
    e.Denotes e.width e.occurrences (fun ρ => e.meaning ρ) :=
  ⟨wf, rfl, List.Subset.refl _, fun _ => rfl⟩

theorem denotes_const {w : Word} (masked : w.Masked) (tag : Tag) (vars : List Var) :
    (const tag w).Denotes w.width vars (fun _ => w.value.toNat) :=
  ⟨masked, rfl, List.nil_subset _, fun _ => rfl⟩

theorem denotes_number {n : Nat} {width : UInt64} (pos : 0 < width) (le : width ≤ 64)
    (fits : n < 2 ^ width.toNat) (tag : Tag) (vars : List Var) :
    (const tag (Word.ofNat n width)).Denotes width vars (fun _ => n) :=
  ⟨Word.ofNat_masked pos le fits, rfl, List.nil_subset _,
    fun _ => Word.value_ofNat (Nat.lt_of_lt_of_le fits (two_pow_toNat_le le)) width⟩

namespace Denotes

variable {e : Expr} {width : UInt64} {vars : List Var} {value : Valuation → Nat}

theorem mono (h : e.Denotes width vars value) {vars' : List Var} (sub : vars ⊆ vars') :
    e.Denotes width vars' value :=
  { h with vars_subset := List.Subset.trans h.vars_subset sub }

theorem value_eq (h : e.Denotes width vars value) {value' : Valuation → Nat}
    (same : ∀ ρ, value ρ = value' ρ) : e.Denotes width vars value' :=
  { h with meaning_eq := fun ρ => (h.meaning_eq ρ).trans (same ρ) }

theorem builds (h : e.Denotes width vars value) : Builds (.ok e) width vars value := ⟨e, rfl, h⟩

theorem binds (h : e.Denotes width vars value) {a : Assignment}
    (bound : ∀ v ∈ vars, (a v.name).isSome) : a.Binds e :=
  fun v member => bound v (h.vars_subset member)

end Denotes

namespace Builds

variable {built : Except Fault Expr} {width : UInt64} {vars : List Var} {value : Valuation → Nat}

theorem mono (h : Builds built width vars value) {vars' : List Var} (sub : vars ⊆ vars') :
    Builds built width vars' value := by
  obtain ⟨e, done, denotes⟩ := h
  exact ⟨e, done, denotes.mono sub⟩

theorem value_eq (h : Builds built width vars value) {value' : Valuation → Nat}
    (same : ∀ ρ, value ρ = value' ρ) : Builds built width vars value' := by
  obtain ⟨e, done, denotes⟩ := h
  exact ⟨e, done, denotes.value_eq same⟩

end Builds

/-- Building succeeds with a well-formed expression of a given width. Under every assignment that
    covers the operand, it evaluates to the given function of the operand's value. -/
def Computes (built : Except Fault Expr) (width : UInt64) (e : Expr) (f : Nat → Nat) : Prop :=
  ∃ r, built = .ok r ∧ r.WellFormed ∧ r.width = width ∧
    ∀ a : Assignment, a.Binds e → ∃ x z, e.eval a = .ok x ∧ r.eval a = .ok z ∧
      z.width = width ∧ z.value.toNat = f x.value.toNat

/-- As `Computes`, for an operation on two operands. -/
def Computes₂ (built : Except Fault Expr) (width : UInt64) (lhs rhs : Expr) (f : Nat → Nat → Nat) :
    Prop :=
  ∃ r, built = .ok r ∧ r.WellFormed ∧ r.width = width ∧
    ∀ a : Assignment, a.Binds lhs → a.Binds rhs → ∃ x y z, lhs.eval a = .ok x ∧
      rhs.eval a = .ok y ∧ r.eval a = .ok z ∧ z.width = width ∧
      z.value.toNat = f x.value.toNat y.value.toNat

theorem Builds.computes₂ {built : Except Fault Expr} {width : UInt64} {lhs rhs : Expr}
    {f : Nat → Nat → Nat} (left : lhs.WellFormed) (right : rhs.WellFormed)
    (h : Builds built width (lhs.occurrences ++ rhs.occurrences)
      (fun ρ => f (lhs.meaning ρ) (rhs.meaning ρ))) : Computes₂ built width lhs rhs f := by
  obtain ⟨r, done, denotes⟩ := h
  refine ⟨r, done, denotes.wellFormed, denotes.width_eq, ?_⟩
  intro a bindsLeft bindsRight
  have binds : a.Binds r := denotes.binds fun v member =>
    (List.mem_append.mp member).elim (bindsLeft v) (bindsRight v)
  refine ⟨_, _, _, eval_eq left bindsLeft, eval_eq right bindsRight,
    eval_eq denotes.wellFormed binds, denotes.width_eq, ?_⟩
  rw [value_toNat _ denotes.wellFormed, value_toNat _ left, value_toNat _ right, denotes.meaning_eq]

theorem Builds.computes {built : Except Fault Expr} {width : UInt64} {e : Expr} {f : Nat → Nat}
    (wf : e.WellFormed) (h : Builds built width e.occurrences (fun ρ => f (e.meaning ρ))) :
    Computes built width e f := by
  obtain ⟨r, done, denotes⟩ := h
  refine ⟨r, done, denotes.wellFormed, denotes.width_eq, ?_⟩
  intro a binds
  refine ⟨_, _, eval_eq wf binds, eval_eq denotes.wellFormed (denotes.binds binds),
    denotes.width_eq, ?_⟩
  rw [value_toNat _ denotes.wellFormed, value_toNat _ wf, denotes.meaning_eq]

end Expr

end SymbolicMemory
