import SymbolicMemory.Proofs.Irreducible

/-! # What the building functions build

Expressions can be put together by hand, but most are built: from constants, variables and
other built expressions, by the functions that check widths and simplify. In what is built
every constant is masked, and no conjunction of one bit has a constant operand, since a constant
bit either vanishes or takes the place of the conjunction. This holds at every depth, and has to:
simplifying an equality or a slice may bring any part of an operand to the top. It holds for
expressions without a meaning too, such as slices that reach over the end of a machine word.
-/

namespace SymbolicMemory

namespace Expr

/-- Every constant is masked, every slice takes a part of a node that it does not look into, and no
    conjunction of one bit has a constant operand. -/
def Proper : Expr → Prop
  | const _ w => w.Masked
  | var .. => True
  | concat _ msb lsb => msb.Proper ∧ lsb.Proper
  | extract _ source offset width => source.Proper ∧ source.kind.isSealed = true ∧ width ≠ 0 ∧
      offset + width ≤ source.width ∧ width ≠ source.width
  | not _ source => source.Proper
  | zext _ source _ => source.Proper
  | binary _ op lhs rhs => lhs.Proper ∧ rhs.Proper ∧
      (op = .and → lhs.width = 1 → lhs.isConst = false ∧ rhs.isConst = false)

theorem kind_erase (e : Expr) : e.erase.kind = e.kind := by
  cases e <;> rfl

theorem word?_erase (e : Expr) : e.erase.word? = e.word? := by
  cases e <;> rfl

theorem isConst_erase (e : Expr) : e.erase.isConst = e.isConst := by
  rw [isConst, isConst, word?_erase]

theorem proper_erase (e : Expr) : e.erase.Proper ↔ e.Proper := by
  induction e <;> simp_all [erase, Proper, width_erase, isConst_erase, kind_erase]

section Operators

variable {lhs rhs : Expr}

theorem ofBool_proper (b : Bool) : (ofBool b).Proper := Word.ofBool_masked b

theorem constant_proper (value width : UInt64) : Returns (constant value width) Proper :=
  (Word.make_masked value width).map fun _ masked => masked

/-- Either the last operand is a constant, or none is. -/
theorem constLast_cases (lhs rhs : Expr) :
    (constLast lhs rhs = (lhs, rhs) ∧ (rhs.isConst = true ∨ lhs.isConst = false ∧ rhs.isConst = false)) ∨
      (constLast lhs rhs = (rhs, lhs) ∧ lhs.isConst = true) := by
  unfold constLast
  cases l : lhs.isConst <;> cases r : rhs.isConst <;> simp

/-- A conjunction is one of its operands, or a node over both. A node of one bit has no constant
    operand. -/
theorem andOf_cases (same : lhs.width = rhs.width)
    (masked : ∀ tag c, lhs = const tag c ∨ rhs = const tag c → c.Masked) :
    andOf lhs rhs = lhs ∨ andOf lhs rhs = rhs ∨
      ∃ l r, (l = lhs ∧ r = rhs ∨ l = rhs ∧ r = lhs) ∧ andOf lhs rhs = binary none .and l r ∧
        (l.width = 1 → l.isConst = false ∧ r.isConst = false) := by
  -- on one bit a masked constant is zero or all ones, and neither makes a node
  have never : ∀ {tag c} {e : Expr}, c.Masked → e.width = c.width → c.isAllOnes ≠ true → c.value ≠ 0 →
      e.width = 1 → e.isConst = false ∧ (const tag c).isConst = false := by
    intro tag c e masked width full zero one
    rcases Word.one_bit_cases masked (width.symm.trans one) with rfl | rfl
    · exact absurd rfl zero
    · exact absurd (by decide) full
  unfold andOf
  rcases constLast_cases lhs rhs with ⟨order, constants⟩ | ⟨order, constant⟩
  · rw [order]
    split
    · next l tag c pair =>
      cases pair
      split
      · exact .inl rfl
      · next full =>
        split
        · exact .inr (.inl rfl)
        · next zero =>
          exact .inr (.inr ⟨lhs, _, .inl ⟨rfl, rfl⟩, rfl, never (masked tag c (.inr rfl)) same full zero⟩)
    · next l r other pair =>
      cases pair
      refine .inr (.inr ⟨lhs, rhs, .inl ⟨rfl, rfl⟩, rfl, fun _ => ?_⟩)
      rcases constants with constant | none
      · cases rhs with
        | const tag c => exact absurd rfl (other tag c)
        | _ => cases constant
      · exact none
  · cases lhs with
    | const tag c =>
        rw [order]
        dsimp only
        split
        · exact .inr (.inl rfl)
        · next full =>
          split
          · exact .inl rfl
          · next zero =>
            exact .inr (.inr ⟨rhs, _, .inr ⟨rfl, rfl⟩, rfl,
              never (masked tag c (.inl rfl)) same.symm full zero⟩)
    | _ => cases constant

/-- A disjunction is one of its operands, or a node over both. -/
theorem orOf_cases (lhs rhs : Expr) :
    orOf lhs rhs = lhs ∨ orOf lhs rhs = rhs ∨
      ∃ l r, (l = lhs ∧ r = rhs ∨ l = rhs ∧ r = lhs) ∧ orOf lhs rhs = binary none .or l r := by
  have order : ∀ {l r}, constLast lhs rhs = (l, r) → l = lhs ∧ r = rhs ∨ l = rhs ∧ r = lhs := by
    intro l r ordered
    rcases constLast_cases lhs rhs with ⟨order, _⟩ | ⟨order, _⟩ <;> cases ordered.symm.trans order
    · exact .inl ⟨rfl, rfl⟩
    · exact .inr ⟨rfl, rfl⟩
  unfold orOf
  split
  · next l tag c ordered =>
    split
    · rcases order ordered with ⟨_, same⟩ | ⟨_, same⟩
      · exact .inr (.inl same)
      · exact .inl same
    split
    · rcases order ordered with ⟨same, _⟩ | ⟨same, _⟩
      · exact .inl same
      · exact .inr (.inl same)
    · exact .inr (.inr ⟨_, _, order ordered, rfl⟩)
  · next l r _ ordered => exact .inr (.inr ⟨_, _, order ordered, rfl⟩)

/-- What makes an expression proper, at one node. -/
def Orderly : Expr → Prop
  | const _ w => w.Masked
  | extract _ source offset width => source.kind.isSealed = true ∧ width ≠ 0 ∧
      offset + width ≤ source.width ∧ width ≠ source.width
  | binary _ op lhs rhs => op = .and → lhs.width = 1 → lhs.isConst = false ∧ rhs.isConst = false
  | var .. | concat .. | not .. | zext .. => True

theorem proper_iff_every (e : Expr) : e.Proper ↔ e.Every Orderly := by
  induction e with
  | const | var => simp [Proper, Orderly]
  | concat _ _ _ ihm ihl => simp [Proper, Orderly, ihm, ihl]
  | extract _ _ _ _ ih => simp [Proper, Orderly, ih, and_comm]
  | not _ _ ih | zext _ _ _ ih => simp [Proper, Orderly, ih]
  | binary _ _ _ _ ihl ihr => rw [Proper, every_binary, ihl, ihr, Orderly, ← and_assoc, and_comm]

theorem orderly_closed : Closed Orderly where
  const_iff := Iff.rfl
  node := by
    rintro op lhs rhs same ⟨_, rule⟩ left right rfl one
    refine ⟨rule.1, eq_false_of_ne_true fun constant => ?_⟩
    -- on one bit a masked constant is zero or all ones, and a rule applies to either
    obtain ⟨tag, c, rfl⟩ := eq_const_of_isConst constant
    rcases Word.one_bit_cases (every_const.mp right) (same.symm.trans one) with rfl | rfl
    · exact (rule.2 _ rfl).2 rfl
    · cases (rule.2 _ rfl).1

theorem apply_proper (left : lhs.Proper) (right : rhs.Proper) (op : Op) : Returns (apply op lhs rhs) Proper := by
  intro e made
  rw [proper_iff_every] at left right ⊢
  exact apply_every orderly_closed left right op e made

end Operators

theorem Cut.proper {piece : Piece} {r : Expr} (cut : Cut piece r) (proper : piece.All Proper) : r.Proper := by
  induction cut with
  | whole | pair => exact proper
  | word made | words made => exact Word.make_masked _ _ _ made
  | deeper _ ih | high _ ih => exact ih proper.1
  | low _ ih => exact ih proper.2
  | across _ _ _ top bottom ih => exact ih ⟨top proper.1, bottom proper.2⟩
  | part sealed_ some_ inside part => exact ⟨proper, sealed_, some_, inside, part⟩
  | adjacent _ ih => exact ih proper.1.1

theorem slice_proper {e : Expr} (proper : e.Proper) (offset width : UInt64) :
    Returns (e.slice offset width) Proper := fun _ made => (slice_cuts made).proper proper

theorem append_proper {msb lsb : Expr} (high : msb.Proper) (low : lsb.Proper) :
    Returns (msb.append lsb) Proper := fun _ made => (append_cuts made).proper ⟨high, low⟩

theorem complement_proper {e : Expr} (proper : e.Proper) : Returns e.complement Proper := by
  unfold complement
  split
  · exact (Word.make_masked _ _).map fun _ masked => masked
  · exact .ok proper
  · exact .ok proper

theorem resize_proper {e : Expr} (proper : e.Proper) (width : UInt64) : Returns (e.resize width) Proper := by
  unfold resize
  split
  · exact .ok proper
  split
  · exact slice_proper proper _ _
  split
  · exact (Word.make_masked _ _).map fun _ masked => masked
  · exact .ok proper

/-- Expressions that the building functions return, also after their nodes were tagged. -/
inductive Built : Expr → Prop where
  | constant {value width : UInt64} {e : Expr} : Expr.constant value width = .ok e → Built e
  | ofBool (b : Bool) : Built (Expr.ofBool b)
  | named {name : String} {width : UInt64} {e : Expr} : Expr.named name width = .ok e → Built e
  | apply {op : Op} {lhs rhs e : Expr} :
      Built lhs → Built rhs → Expr.apply op lhs rhs = .ok e → Built e
  | append {msb lsb e : Expr} : Built msb → Built lsb → Expr.append msb lsb = .ok e → Built e
  | slice {source e : Expr} {offset width : UInt64} :
      Built source → Expr.slice source offset width = .ok e → Built e
  | complement {source e : Expr} : Built source → Expr.complement source = .ok e → Built e
  | resize {source e : Expr} {width : UInt64} : Built source → Expr.resize source width = .ok e → Built e
  | stamp {e : Expr} (next : Nat) : Built e → Built (e.stamp next).1

theorem Built.proper {e : Expr} (built : e.Built) : e.Proper := by
  induction built with
  | constant made => exact constant_proper _ _ _ made
  | ofBool b => exact ofBool_proper b
  | named made =>
      unfold Expr.named at made
      split at made
      · cases made
        exact True.intro
      · cases made
  | apply _ _ made left right => exact apply_proper left right _ _ made
  | append _ _ made high low => exact append_proper high low _ made
  | slice _ made proper => exact slice_proper proper _ _ _ made
  | complement _ made proper => exact complement_proper proper _ made
  | resize _ made proper => exact resize_proper proper _ _ made
  | stamp next _ proper => rwa [← proper_erase, erase_stamp, proper_erase]

end Expr

end SymbolicMemory
