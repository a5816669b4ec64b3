import SymbolicMemory.Proofs.RoundTrip

/-! # Simplification is a fixed point

What the building functions make is simplified at every node: to make a node anew, from the
operands that it has, gives the node back. Most of this goes by shape. Only a pair looks at the
identity of nodes, since two slices of one node that lie side by side are one slice. That nothing
of a pair changes when its new nodes get their tags is because slices are always of nodes that have
theirs.
-/

namespace SymbolicMemory

namespace Expr

/-- A node made anew from its own operands. -/
def rebuild : Expr → Except Fault Expr
  | const _ w => constant w.value w.width
  | var _ v => named v.name v.width
  | concat _ msb lsb => append msb lsb
  | extract _ source offset width => source.slice offset width
  | not _ source => source.complement
  | zext _ source width => source.resize width
  | binary _ op lhs rhs => apply op lhs rhs

/-- A node that cannot be simplified. -/
def Final : Expr → Prop
  | const _ w => w.Masked
  | var _ v => 0 < v.width ∧ v.width ≤ 64
  | concat _ msb lsb => join msb lsb = .ok .pair
  | extract _ source offset width => source.kind.isSealed = true ∧ width ≠ 0 ∧
      offset + width ≤ source.width ∧ width ≠ source.width
  | not _ source => source.kind ≠ .const ∧ source.kind ≠ .not
  | zext _ source width => source.width < width ∧ source.kind ≠ .const
  | binary _ op lhs rhs => lhs.width = rhs.width ∧ Irreducible op lhs rhs

theorem Final.rebuild {e : Expr} (final : e.Final) : ∃ r, e.rebuild = .ok r ∧ r.erase = e.erase := by
  cases e with
  | const tag w =>
      have same : Word.make w.value w.width = .ok w := by
        rw [Word.make_eq final.1 final.2.1, Nat.mod_eq_of_lt final.2.2, Word.ofNat_toNat]
      exact ⟨.const none w, by simp only [Expr.rebuild, constant, same, Except.map], rfl⟩
  | var tag v => exact ⟨.var none v, if_pos final, rfl⟩
  | concat tag msb lsb => exact ⟨.concat none msb lsb, by rw [Expr.rebuild, append, final], rfl⟩
  | extract tag source offset width =>
      obtain ⟨sealed_, some_, inside, part⟩ := final
      exact ⟨_, slice_sealed some_ inside sealed_ part, rfl⟩
  | not tag source =>
      refine ⟨.not none source, ?_, rfl⟩
      cases source with
      | const => exact absurd rfl final.1
      | not => exact absurd rfl final.2
      | var | concat | extract | zext | binary => rfl
  | zext tag source width =>
      obtain ⟨wider, other⟩ := final
      refine ⟨.zext none source width, ?_, rfl⟩
      rw [Expr.rebuild]
      unfold resize
      rw [if_neg (UInt64.ne_of_lt wider).symm, if_neg (UInt64.lt_asymm wider)]
      cases source with
      | const => exact absurd rfl other
      | var | concat | extract | not | zext | binary => rfl
  | binary tag op lhs rhs =>
      refine ⟨.binary none op lhs rhs, ?_, rfl⟩
      have checked : checkWidths op lhs.width rhs.width = .ok () := if_pos final.1
      simp only [Expr.rebuild, apply, checked, bind, Except.bind]
      exact combine_irreducible final.2

section Shapes

variable {a a' b b' : Expr}

theorem order_of_erase (same : a.erase = b.erase) : a.order b = .eq := by
  fun_induction Expr.order a b with
  | case1 => rfl
  | case2 | case3 => simp_all [erase, Word.order, Var.order]
  | case4 | case5 | case6 | case7 | case8 => simp_all [erase]
  | case9 a b => rw [← kind_erase a, same, kind_erase, Std.compare_self]

/-- Two expressions are alike exactly if they have one shape. -/
theorem alike_iff : a.alike b = true ↔ a.erase = b.erase := by
  rw [alike, beq_iff_eq]
  exact ⟨erase_of_order, order_of_erase⟩

theorem isOffset_erase (e : Expr) : e.erase.isOffset = e.isOffset := by
  cases e with
  | binary tag op lhs rhs => cases op <;> simp [erase, isOffset, isConst_erase]
  | const | var | concat | extract | not | zext => rfl

theorem withstands_erase (e : Expr) (c : Word) : e.erase.withstands c = e.withstands c := by
  cases e with
  | binary tag op lhs rhs => cases op <;> simp [erase, withstands, isConst_erase, isFalse, word?_erase]
  | const | var | concat | extract | not | zext => rfl

/-- Whether a rule applies is a matter of shape. -/
theorem Irreducible.congr {op : Op} (irreducible : Irreducible op a b) (left : a'.erase = a.erase)
    (right : b'.erase = b.erase) : Irreducible op a' b' := by
  have alike : a'.alike b' = a.alike b := by rw [Bool.eq_iff_iff, alike_iff, alike_iff, left, right]
  have width : a'.width = a.width := by rw [← width_erase, left, width_erase]
  have word : a'.word? = a.word? := by rw [← word?_erase, left, word?_erase]
  have word' : b'.word? = b.word? := by rw [← word?_erase, right, word?_erase]
  have offset : b'.isOffset = b.isOffset := by rw [← isOffset_erase, right, isOffset_erase]
  have withstands : ∀ c, b'.withstands c = b.withstands c := by
    intro c
    rw [← withstands_erase, right, withstands_erase]
  simpa only [Irreducible, isConst, alike, width, word, word', offset, withstands] using irreducible

end Shapes

/-- Whether the outermost node has its tag. -/
def isOld : Expr → Bool
  | const tag _ | var tag _ | concat tag _ _ | extract tag _ _ _ | not tag _ | zext tag _ _
  | binary tag _ _ _ => tag.isSome

/-- A node that cannot be simplified, with its place among old and new ones: below an old node all is
    old, and so is what is sliced. -/
structure Simple (e : Expr) : Prop where
  final : e.Final
  old : e.isOld = true → e.Tagged
  sliced : ∀ source offset width, e.slice? = some (source, offset, width) → source.Tagged

theorem simple_closed : Closed Simple where
  const_iff := ⟨fun simple => simple.final, fun masked => ⟨masked, id, by simp [slice?]⟩⟩
  node same irreducible _ _ := ⟨⟨same, irreducible⟩, by simp [isOld], by simp [slice?]⟩

theorem Every.root {P : Expr → Prop} {e : Expr} (every : e.Every P) : P e := by
  cases e <;> simp_all

theorem kind_stamp (e : Expr) (next : Nat) : (e.stamp next).1.kind = e.kind := by
  rw [← kind_erase, erase_stamp, kind_erase]

theorem width_stamp (e : Expr) (next : Nat) : (e.stamp next).1.width = e.width := by
  rw [← width_erase, erase_stamp, width_erase]

theorem slice?_stamp {e : Expr} (simple : e.Every Simple) (next : Nat) : (e.stamp next).1.slice? = e.slice? := by
  cases e with
  | extract tag source offset width =>
      have tagged := simple.root.sliced source offset width rfl
      cases tag with
      | none => simp [stamp, slice?, tagged.stamp]
      | some n => rfl
  | const tag | var tag | concat tag | not tag | zext tag | binary tag => cases tag <;> rfl

theorem join_congr {msb msb' lsb lsb' : Expr} (high : msb'.erase = msb.erase) (low : lsb'.erase = lsb.erase)
    (highSlice : msb'.slice? = msb.slice?) (lowSlice : lsb'.slice? = lsb.slice?) :
    join msb' lsb' = join msb lsb := by
  have width : msb'.width = msb.width := by rw [← width_erase, high, width_erase]
  have width' : lsb'.width = lsb.width := by rw [← width_erase, low, width_erase]
  have word : msb'.word? = msb.word? := by rw [← word?_erase, high, word?_erase]
  have word' : lsb'.word? = lsb.word? := by rw [← word?_erase, low, word?_erase]
  rw [join_eq, join_eq, width, width', word, word', highSlice, lowSlice]

/-- When its new nodes get their tags, an expression stays simplified and is old from then on. -/
theorem Every.stamp {e : Expr} (simple : e.Every Simple) (next : Nat) :
    (e.stamp next).1.Every Simple ∧ (e.stamp next).1.Tagged := by
  induction e generalizing next with
  | const tag w =>
      cases tag with
      | none => exact ⟨simple_closed.const _ (simple_closed.masked simple), rfl⟩
      | some n => exact ⟨simple, rfl⟩
  | var tag v =>
      cases tag with
      | none => exact ⟨every_var.mpr ⟨simple.root.final, fun _ => rfl, by simp [slice?]⟩, rfl⟩
      | some n => exact ⟨simple, rfl⟩
  | concat tag msb lsb ihm ihl =>
      cases tag with
      | some n => exact ⟨simple, simple.root.old rfl⟩
      | none =>
          obtain ⟨here, high, low⟩ := every_concat.mp simple
          obtain ⟨highSimple, highTagged⟩ := ihm high next
          obtain ⟨lowSimple, lowTagged⟩ := ihl low (msb.stamp next).2
          have tagged : ((concat none msb lsb).stamp next).1.Tagged := ⟨rfl, highTagged, lowTagged⟩
          refine ⟨every_concat.mpr ⟨⟨?_, fun _ => tagged, by simp [slice?]⟩, highSimple, lowSimple⟩, tagged⟩
          rw [Final, join_congr (erase_stamp _ _) (erase_stamp _ _) (slice?_stamp high _) (slice?_stamp low _)]
          exact here.final
  | extract tag source offset width ih =>
      cases tag with
      | some n => exact ⟨simple, simple.root.old rfl⟩
      | none =>
          obtain ⟨here, inner⟩ := every_extract.mp simple
          -- the source is old, so the slice keeps the very node that it was cut from
          have sourceTagged := here.sliced source offset width rfl
          simp only [Expr.stamp, sourceTagged.stamp]
          refine ⟨every_extract.mpr ⟨⟨here.final, fun _ => ⟨rfl, sourceTagged⟩, here.sliced⟩, inner⟩, rfl, sourceTagged⟩
  | not tag source ih =>
      cases tag with
      | some n => exact ⟨simple, simple.root.old rfl⟩
      | none =>
          obtain ⟨here, inner⟩ := every_not.mp simple
          obtain ⟨innerSimple, innerTagged⟩ := ih inner next
          refine ⟨every_not.mpr ⟨⟨?_, fun _ => ⟨rfl, innerTagged⟩, by simp [slice?]⟩, innerSimple⟩, rfl, innerTagged⟩
          rw [Final, kind_stamp]
          exact here.final
  | zext tag source width ih =>
      cases tag with
      | some n => exact ⟨simple, simple.root.old rfl⟩
      | none =>
          obtain ⟨here, inner⟩ := every_zext.mp simple
          obtain ⟨innerSimple, innerTagged⟩ := ih inner next
          refine ⟨every_zext.mpr ⟨⟨?_, fun _ => ⟨rfl, innerTagged⟩, by simp [slice?]⟩, innerSimple⟩, rfl, innerTagged⟩
          rw [Final, kind_stamp, width_stamp]
          exact here.final
  | binary tag op lhs rhs ihl ihr =>
      cases tag with
      | some n => exact ⟨simple, simple.root.old rfl⟩
      | none =>
          obtain ⟨here, left, right⟩ := every_binary.mp simple
          obtain ⟨leftSimple, leftTagged⟩ := ihl left next
          obtain ⟨rightSimple, rightTagged⟩ := ihr right (lhs.stamp next).2
          have tagged : ((binary none op lhs rhs).stamp next).1.Tagged := ⟨rfl, leftTagged, rightTagged⟩
          refine ⟨every_binary.mpr ⟨⟨⟨?_, ?_⟩, fun _ => tagged, by simp [slice?]⟩, leftSimple, rightSimple⟩, tagged⟩
          · rw [width_stamp, width_stamp, here.final.1]
          · exact here.final.2.congr (erase_stamp _ _) (erase_stamp _ _)

/-- What is cut is old and simplified; what is joined may be new, since slices are joined as soon as
    they are cut. -/
def Piece.Settled : Piece → Prop
  | slice e _ _ => e.Every Simple ∧ e.Tagged
  | append msb lsb => msb.Every Simple ∧ lsb.Every Simple

theorem Cut.simple {piece : Piece} {r : Expr} (cut : Cut piece r) (settled : piece.Settled) : r.Every Simple := by
  induction cut with
  | whole => exact settled.1
  | word made | words made => exact simple_closed.const none (Word.make_masked _ _ _ made)
  | deeper _ ih => exact ih ⟨(every_extract.mp settled.1).2, settled.2.2⟩
  | high _ ih => exact ih ⟨(every_concat.mp settled.1).2.1, settled.2.2.1⟩
  | low _ ih => exact ih ⟨(every_concat.mp settled.1).2.2, settled.2.2.2⟩
  | across _ _ _ top bottom ih =>
      obtain ⟨_, high, low⟩ := every_concat.mp settled.1
      exact ih ⟨top ⟨high, settled.2.2.1⟩, bottom ⟨low, settled.2.2.2⟩⟩
  | part sealed_ some_ inside part =>
      refine every_extract.mpr ⟨⟨⟨sealed_, some_, inside, part⟩, by simp [isOld], ?_⟩, settled.1⟩
      rintro _ _ _ ⟨⟩
      exact settled.2
  | adjacent _ ih =>
      obtain ⟨here, source⟩ := every_extract.mp settled.1
      exact ih ⟨source, here.sliced _ _ _ rfl⟩
  | pair joined => exact every_concat.mpr ⟨⟨joined, by simp [isOld], by simp [slice?]⟩, settled⟩

/-- A call of one of the building functions. -/
inductive Recipe where
  | constant (value width : UInt64)
  | named (name : String) (width : UInt64)
  | apply (op : Op) (lhs rhs : Expr)
  | append (msb lsb : Expr)
  | slice (source : Expr) (offset width : UInt64)
  | complement (source : Expr)
  | resize (source : Expr) (width : UInt64)
  | all (es : List Expr)
  | any (es : List Expr)

namespace Recipe

/-- The expressions that a call is for. -/
def operands : Recipe → List Expr
  | constant .. | named .. => []
  | apply _ lhs rhs => [lhs, rhs]
  | append msb lsb => [msb, lsb]
  | slice source _ _ | complement source | resize source _ => [source]
  | all es | any es => es

/-- What a call returns. -/
def result : Recipe → Except Fault Expr
  | constant value width => Expr.constant value width
  | named name width => Expr.named name width
  | apply op lhs rhs => Expr.apply op lhs rhs
  | append msb lsb => msb.append lsb
  | slice source offset width => source.slice offset width
  | complement source => source.complement
  | resize source width => source.resize width
  | all es => Expr.all es
  | any es => Expr.any es

end Recipe

/-- Expressions that are made by calls of building functions, from what such calls made before. -/
inductive Made : Expr → Prop
  | make (recipe : Recipe) (session : Session) {e : Expr} {left : Session} :
      (∀ operand ∈ recipe.operands, Made operand) → Session.make recipe.result session = .ok e left → Made e

theorem slice_simple {e : Expr} (simple : e.Every Simple) (tagged : e.Tagged) (offset width : UInt64) :
    Returns (e.slice offset width) (Every Simple) := fun _ made => (slice_cuts made).simple ⟨simple, tagged⟩

theorem complement_simple {e : Expr} (simple : e.Every Simple) : Returns e.complement (Every Simple) := by
  unfold complement
  split
  · exact (Word.make_masked _ _).map fun _ masked => simple_closed.const none masked
  · exact .ok (every_not.mp simple).2
  · next notConst notNot =>
    refine .ok (every_not.mpr ⟨⟨?_, by simp [isOld], by simp [slice?]⟩, simple⟩)
    cases e with
    | const => exact (notConst _ _ rfl).elim
    | not => exact (notNot _ _ rfl).elim
    | var | concat | extract | zext | binary => exact ⟨by simp [kind], by simp [kind]⟩

theorem resize_simple {e : Expr} (simple : e.Every Simple) (tagged : e.Tagged) (width : UInt64) :
    Returns (e.resize width) (Every Simple) := by
  unfold resize
  split
  · exact .ok simple
  split
  · exact slice_simple simple tagged _ _
  · next different notNarrower =>
    have wider : e.width < width := UInt64.lt_of_le_of_ne (UInt64.not_lt.mp notNarrower) (Ne.symm different)
    split
    · exact (Word.make_masked _ _).map fun _ masked => simple_closed.const none masked
    · next notConst =>
      refine .ok (every_zext.mpr ⟨⟨⟨wider, ?_⟩, by simp [isOld], by simp [slice?]⟩, simple⟩)
      cases e with
      | const => exact (notConst _ _ rfl).elim
      | var | concat | extract | not | zext | binary => simp [kind]

/-- A call on old, simplified operands returns a simplified expression. -/
theorem Recipe.result_simple {recipe : Recipe}
    (operands : ∀ e ∈ recipe.operands, e.Every Simple ∧ e.Tagged) : Returns recipe.result (Every Simple) := by
  cases recipe with
  | constant value width => exact (Word.make_masked _ _).map fun _ masked => simple_closed.const none masked
  | named name width =>
      unfold result Expr.named
      dsimp only
      split
      · next bounds => exact .ok (every_var.mpr ⟨bounds, by simp [isOld], by simp [slice?]⟩)
      · exact .error _
  | apply op lhs rhs =>
      obtain ⟨left, right⟩ := List.forall_mem_cons.mp operands
      exact apply_every simple_closed left.1 (List.forall_mem_singleton.mp right).1 op
  | append msb lsb =>
      obtain ⟨high, low⟩ := List.forall_mem_cons.mp operands
      exact fun _ made => (append_cuts made).simple ⟨high.1, (List.forall_mem_singleton.mp low).1⟩
  | slice source offset width =>
      obtain ⟨simple, tagged⟩ := List.forall_mem_singleton.mp operands
      exact slice_simple simple tagged offset width
  | complement source => exact complement_simple (List.forall_mem_singleton.mp operands).1
  | resize source width =>
      obtain ⟨simple, tagged⟩ := List.forall_mem_singleton.mp operands
      exact resize_simple simple tagged width
  | all es =>
      refine all_returns (fun e member => (operands e member).1) (simple_closed.ofBool true) fun _ _ left right => ?_
      exact apply_every simple_closed left right .and
  | any es =>
      refine any_returns (fun e member => (operands e member).1) (simple_closed.ofBool false) fun _ _ left right => ?_
      exact apply_every simple_closed left right .or

theorem Made.simple {e : Expr} (made : e.Made) : e.Every Simple ∧ e.Tagged := by
  induction made with
  | make recipe session _ made ih =>
      have stamps := Session.make_stamps recipe.result session
      rw [made] at stamps
      obtain ⟨r, next, result, rfl⟩ := stamps
      exact (recipe.result_simple ih r result).stamp next

/-- A simplified expression without variables is a constant: constant operands are always folded. -/
theorem Every.isConst_of_closed {e : Expr} (simple : e.Every Simple) (closed : e.occurrences = []) :
    e.isConst = true := by
  induction e with
  | const => rfl
  | var => cases closed
  | concat tag msb lsb ihm ihl =>
      obtain ⟨here, high, low⟩ := every_concat.mp simple
      obtain ⟨noHigh, noLow⟩ := List.append_eq_nil_iff.mp closed
      obtain ⟨_, a, rfl⟩ := eq_const_of_isConst (ihm high noHigh)
      obtain ⟨_, b, rfl⟩ := eq_const_of_isConst (ihl low noLow)
      have joined := here.final
      simp only [Final, join] at joined
      split at joined
      · cases joined
      · cases both : a.concat b with
        | ok w => simp [both, Except.map] at joined
        | error fault => simp [both, Except.map] at joined
  | extract tag source offset width ih =>
      obtain ⟨here, inner⟩ := every_extract.mp simple
      obtain ⟨_, c, rfl⟩ := eq_const_of_isConst (ih inner closed)
      cases here.final.1
  | not tag source ih =>
      obtain ⟨here, inner⟩ := every_not.mp simple
      obtain ⟨_, c, rfl⟩ := eq_const_of_isConst (ih inner closed)
      exact absurd rfl here.final.1
  | zext tag source width ih =>
      obtain ⟨here, inner⟩ := every_zext.mp simple
      obtain ⟨_, c, rfl⟩ := eq_const_of_isConst (ih inner closed)
      exact absurd rfl here.final.2
  | binary tag op lhs rhs ihl ihr =>
      obtain ⟨here, left, right⟩ := every_binary.mp simple
      obtain ⟨noLeft, noRight⟩ := List.append_eq_nil_iff.mp closed
      have apart := here.final.2.1
      rw [ihl left noLeft, ihr right noRight] at apart
      cases apart

/-- Whatever the building functions make is simplified to the last: to make any of its nodes anew,
    from the very operands that the node has, gives an expression of the same shape. If it has no
    variable, it is a constant. -/
theorem simplification_is_fixed {e : Expr} (made : e.Made) :
    (∀ node ∈ e.walk (fun _ => true), ∃ r, node.rebuild = .ok r ∧ r.erase = node.erase) ∧
      (e.occurrences = [] → ∃ tag w, e = const tag w) :=
  ⟨fun node member => (made.simple.1 node member).final.rebuild,
    fun closed => eq_const_of_isConst (made.simple.1.isConst_of_closed closed)⟩

/-- An equality `10 = 3 + x` is made as `7 = x`, and set beside `x` it stays so; `3 + 10` has no
    variable and is a constant. -/
theorem simplification_is_fixed_moved :
    let x : Expr := var (some 0) ⟨"x", 8⟩
    let moved : Expr := binary (some 5) .eq (const (some 4) ⟨7, 8⟩) x
    let e : Expr := concat (some 6) moved x
    let folded : Expr := const (some 7) ⟨13, 8⟩
    e.Made ∧ (∀ node ∈ e.walk (fun _ => true), ∃ r, node.rebuild = .ok r ∧ r.erase = node.erase) ∧
      folded.Made ∧ folded.occurrences = [] ∧ ∃ tag w, folded = const tag w := by
  intro x moved e folded
  have xMade : x.Made := .make (.named "x" 8) {} (by simp [Recipe.operands]) rfl
  have three : (const (some 1) ⟨3, 8⟩).Made := .make (.constant 3 8) { nextTag := 1 } (by simp [Recipe.operands]) rfl
  have sum : (binary (some 2) .add (const (some 1) ⟨3, 8⟩) x).Made :=
    .make (.apply .add (const (some 1) ⟨3, 8⟩) x) { nextTag := 2 } (by simp [Recipe.operands, three, xMade]) rfl
  have ten : (const (some 3) ⟨10, 8⟩).Made := .make (.constant 10 8) { nextTag := 3 } (by simp [Recipe.operands]) rfl
  have equal : moved.Made :=
    .make (.apply .eq (const (some 3) ⟨10, 8⟩) (binary (some 2) .add (const (some 1) ⟨3, 8⟩) x)) { nextTag := 4 }
      (by simp [Recipe.operands, ten, sum]) rfl
  have made : e.Made := .make (.append moved x) { nextTag := 6 } (by simp [Recipe.operands, equal, xMade]) rfl
  have total : folded.Made :=
    .make (.apply .add (const (some 1) ⟨3, 8⟩) (const (some 3) ⟨10, 8⟩)) { nextTag := 7 }
      (by simp [Recipe.operands, three, ten]) rfl
  exact ⟨made, (simplification_is_fixed made).1, total, rfl, (simplification_is_fixed total).2 rfl⟩

end Expr

end SymbolicMemory
