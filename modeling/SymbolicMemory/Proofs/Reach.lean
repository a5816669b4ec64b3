import SymbolicMemory.Proofs.Evaluation
import SymbolicMemory.Proofs.Rejoining
import SymbolicMemory.Proofs.Simplified

/-! # Requests beyond the end

The building functions check what they are asked for, but not always with success. Whether a slice
lies within its source is checked by the sum of offset and width, and that sum is taken in a machine
word: a slice whose end lies beyond two to the power of 64 can pass. What becomes of it depends on
the nodes that the slice looks through, and `reach` follows them. An expression that is not a
constant can be extended to any width at all. These are the only ways to make an ill-formed
expression from well-formed ones.
-/

namespace SymbolicMemory

section Machine

variable {x y : UInt64}

theorem toNat_add_wrapped (wraps : 2 ^ 64 ≤ x.toNat + y.toNat) :
    (x + y).toNat + 2 ^ 64 = x.toNat + y.toNat := by
  have := x.toNat_lt
  have := y.toNat_lt
  rw [UInt64.toNat_add]
  omega

theorem ne_zero_of_wrapped (wraps : 2 ^ 64 ≤ x.toNat + y.toNat) : y ≠ 0 := by
  rintro rfl
  have := x.toNat_lt
  simp at wraps
  omega

end Machine

namespace Expr

/-- What becomes of a request for some bits of an expression. -/
inductive Reach where
  /-- Nothing is returned. -/
  | refused
  /-- What is returned is well-formed. -/
  | sound
  /-- A slice is returned that ends beyond its source. -/
  | beyond
  deriving DecidableEq

/-- How far a request for some bits of an expression gets. If its end lies within a machine word,
    then only as far as it should. -/
def reach (e : Expr) (offset width : UInt64) : Reach :=
  if 0 < width ∧ offset.toNat + width.toNat ≤ e.width.toNat then .sound
  else if offset.toNat + width.toNat < 2 ^ 64 ∨ e.width < offset + width then .refused
  else if width = e.width then .sound
  else match e with
    | const .. => if width ≤ 64 then .sound else .refused
    | extract _ source offset' _ => source.reach (offset' + offset) width
    | concat _ msb lsb =>
      if lsb.width ≤ offset then msb.reach (offset - lsb.width) width else lsb.reach offset width
    | var .. | not .. | zext .. | binary .. => .beyond

/-- The outcomes of a request for a number of bits that gets so far. -/
def Reach.Meets (width : UInt64) (built : Except Fault Expr) : Reach → Prop
  | refused => ∃ fault, built = .error fault
  | sound => ∃ r, built = .ok r ∧ r.WellFormed
  | beyond => ∃ source offset, source.WellFormed ∧ 2 ^ 64 ≤ offset.toNat + width.toNat ∧
      built = .ok (extract none source offset width)

theorem slice_refused {e : Expr} {offset width : UInt64}
    (outside : ¬ (0 < width ∧ offset.toNat + width.toNat ≤ e.width.toNat))
    (checked : offset.toNat + width.toNat < 2 ^ 64 ∨ e.width < offset + width) :
    ∃ fault, e.slice offset width = .error fault := by
  rw [slice_eq]
  by_cases empty : width = 0
  · exact ⟨_, if_pos empty⟩
  have past : e.width < offset + width := by
    rcases checked with below | past
    · rw [UInt64.lt_iff_toNat_lt, UInt64.toNat_add, Nat.mod_eq_of_lt below]
      exact Nat.not_le.mp fun inside => outside ⟨UInt64.pos_iff_ne_zero.mpr empty, inside⟩
    · exact past
  rw [if_neg empty, if_pos past]
  exact ⟨_, rfl⟩

theorem wrapped_of_not_checked {e : Expr} {offset width : UInt64}
    (passes : ¬ (offset.toNat + width.toNat < 2 ^ 64 ∨ e.width < offset + width)) :
    2 ^ 64 ≤ offset.toNat + width.toNat ∧ offset + width ≤ e.width := by
  rwa [not_or, Nat.not_lt, UInt64.not_lt] at passes

/-- A request that wraps around never takes bits from both parts of a pair. -/
theorem slice_concat_wrapped {tag : Tag} {msb lsb : Expr} {offset width : UInt64}
    (wraps : 2 ^ 64 ≤ offset.toNat + width.toNat) (inside : offset + width ≤ (concat tag msb lsb).width)
    (part : width ≠ (concat tag msb lsb).width) :
    (concat tag msb lsb).slice offset width =
      if lsb.width ≤ offset then msb.slice (offset - lsb.width) width else lsb.slice offset width := by
  rw [slice_eq, if_neg (ne_zero_of_wrapped wraps), if_neg (UInt64.not_lt.mpr inside), if_neg part]
  dsimp only
  split
  · rfl
  · next low =>
    have sum := toNat_add_wrapped wraps
    have := width.toNat_lt
    rw [UInt64.not_le, UInt64.lt_iff_toNat_lt] at low
    rw [if_pos]
    rw [UInt64.le_iff_toNat_le]
    omega

theorem slice_meets {e : Expr} (wf : e.WellFormed) (offset width : UInt64) :
    (e.reach offset width).Meets width (e.slice offset width) := by
  -- only requests that wrap around are followed, and these stay in one part of a pair
  fun_induction reach e offset width with
  | case1 e offset inside =>
      obtain ⟨r, made, denotes⟩ := sliceable wf offset width inside.1 inside.2
      exact ⟨r, made, denotes.wellFormed⟩
  | case2 e offset outside checked => exact slice_refused outside checked
  | case3 e offset _ passes whole =>
      obtain ⟨wraps, inside⟩ := wrapped_of_not_checked passes
      exact ⟨e, slice_whole (ne_zero_of_wrapped wraps) inside whole, wf⟩
  | case4 offset tag w narrow _ passes part =>
      obtain ⟨wraps, inside⟩ := wrapped_of_not_checked passes
      have pos := UInt64.pos_iff_ne_zero.mpr (ne_zero_of_wrapped wraps)
      rw [slice_const (ne_zero_of_wrapped wraps) inside part, Word.extract_eq _ _ pos narrow]
      exact ⟨_, rfl, Word.ofNat_masked pos narrow (Nat.mod_lt _ (Nat.two_pow_pos _))⟩
  | case5 offset tag w wide _ passes part =>
      obtain ⟨wraps, inside⟩ := wrapped_of_not_checked passes
      rw [slice_const (ne_zero_of_wrapped wraps) inside part, Word.extract, Word.make,
        if_neg fun bounds => wide bounds.2]
      exact ⟨_, rfl⟩
  | case6 offset tag source offset' width' _ passes part ih =>
      obtain ⟨wraps, inside⟩ := wrapped_of_not_checked passes
      rw [slice_extract (ne_zero_of_wrapped wraps) inside part]
      exact ih wf.1
  | case7 offset tag msb lsb high _ passes part ih =>
      obtain ⟨wraps, inside⟩ := wrapped_of_not_checked passes
      rw [slice_concat_wrapped wraps inside part, if_pos high]
      exact ih wf.1
  | case8 offset tag msb lsb low _ passes part ih =>
      obtain ⟨wraps, inside⟩ := wrapped_of_not_checked passes
      rw [slice_concat_wrapped wraps inside part, if_neg low]
      exact ih wf.2.1
  | case9 offset _ _ _ passes part | case10 offset _ _ _ passes part | case11 offset _ _ _ _ passes part
  | case12 offset _ _ _ _ _ passes part =>
      obtain ⟨wraps, inside⟩ := wrapped_of_not_checked passes
      exact ⟨_, offset, wf, wraps, slice_sealed (ne_zero_of_wrapped wraps) inside rfl part⟩

section Bounds

variable {e : Expr} {offset width : UInt64}

theorem slice_ok_iff (wf : e.WellFormed) :
    (∃ r, e.slice offset width = .ok r) ↔ e.reach offset width ≠ .refused := by
  have meets := slice_meets wf offset width
  cases got : e.reach offset width with
  | refused =>
      obtain ⟨fault, failed⟩ := got ▸ meets
      simp [failed]
  | sound =>
      obtain ⟨r, made, _⟩ := got ▸ meets
      simp [made]
  | beyond =>
      obtain ⟨source, offset', _, _, made⟩ := got ▸ meets
      simp [made]

theorem slice_in_bounds_iff (wf : e.WellFormed) :
    (∀ r, e.slice offset width = .ok r → 0 < width ∧ offset.toNat + width.toNat ≤ e.width.toNat) ↔
      offset.toNat + width.toNat < 2 ^ 64 ∨ e.reach offset width = .refused := by
  have narrow := UInt64.le_iff_toNat_le.mp (width_bounds wf).2
  constructor
  · intro bounds
    by_cases refused : e.reach offset width = .refused
    · exact .inr refused
    · obtain ⟨r, made⟩ := (slice_ok_iff wf).mpr refused
      have inside := (bounds r made).2
      simp at narrow
      omega
  · rintro (below | refused) r made
    · obtain ⟨some_, inside, _⟩ := slice_checked made
      rw [UInt64.le_iff_toNat_le, UInt64.toNat_add, Nat.mod_eq_of_lt below] at inside
      exact ⟨UInt64.pos_iff_ne_zero.mpr some_, inside⟩
    · exact absurd refused ((slice_ok_iff wf).mp ⟨r, made⟩)

theorem resize_zero (wf : e.WellFormed) : e.resize 0 = .error .emptyExtract := by
  have pos := (width_bounds wf).1
  unfold resize
  rw [if_neg (UInt64.ne_of_lt pos), if_pos pos, slice_eq, if_pos rfl]

/-- Only constants cannot be extended beyond a machine word. -/
theorem resize_wide (wf : e.WellFormed) (wide : 64 < width) :
    e.resize width = if e.isConst then .error (.constantWidth width) else .ok (zext none e width) := by
  have wider : e.width < width := UInt64.lt_of_le_of_lt (width_bounds wf).2 wide
  unfold resize
  rw [if_neg (UInt64.ne_of_lt wider).symm, if_neg (UInt64.not_lt.mpr (UInt64.le_of_lt wider))]
  cases e with
  | const tag w =>
      have outside : ¬ (0 < width ∧ width ≤ 64) := fun bounds => UInt64.not_le.mpr wide bounds.2
      simp [Word.resize, Word.make, outside, isConst, word?, Except.map]
  | var | concat | extract | not | zext | binary => rfl

theorem resize_ok_iff (wf : e.WellFormed) :
    (∃ r, e.resize width = .ok r) ↔ 1 ≤ width ∧ (width ≤ 64 ∨ e.isConst = false) := by
  by_cases empty : width = 0
  · subst empty
    simp [resize_zero wf]
  have pos := UInt64.pos_iff_ne_zero.mpr empty
  have some_ : 1 ≤ width := UInt64.le_iff_toNat_le.mpr (UInt64.lt_iff_toNat_lt.mp pos)
  by_cases narrow : width ≤ 64
  · obtain ⟨r, made, _⟩ := resize_builds wf pos narrow
    simp [made, some_, narrow]
  · rw [resize_wide wf (UInt64.not_le.mp narrow)]
    cases e.isConst <;> simp [some_, narrow]

theorem resize_in_bounds_iff (wf : e.WellFormed) :
    (∀ r, e.resize width = .ok r → 1 ≤ width ∧ width ≤ 64) ↔ width ≤ 64 ∨ e.isConst = true := by
  rw [← exists_imp, resize_ok_iff wf]
  by_cases narrow : width ≤ 64
  · simp [narrow]
  · have some_ : 1 ≤ width := UInt64.le_trans (by decide) (UInt64.le_of_lt (UInt64.not_le.mp narrow))
    cases e.isConst <;> simp [narrow, some_]

end Bounds

/-- Evaluation never breaks off. -/
def Faultless (e : Expr) : Prop := ∀ a fault, e.eval a ≠ .error (.fault fault)

theorem WellFormed.faultless {e : Expr} (wf : e.WellFormed) : e.Faultless := by
  intro a fault
  cases first : e.firstOpen a with
  | none => simp [eval_eq wf (binds_iff_firstOpen.mpr first)]
  | some v => simp [eval_open wf first]

/-- A node whose value is cut to some width from that of a well-formed one. -/
theorem faultless_iff_of_make {e source : Expr} {pick : Word → UInt64} {width : UInt64} (wf : source.WellFormed)
    (evaluates : ∀ a, e.eval a = (source.eval a).bind fun w => Failure.ofFault (Word.make (pick w) width)) :
    e.Faultless ↔ 0 < width ∧ width ≤ 64 := by
  constructor
  · intro faultless
    by_contra outside
    have valued := eval_eq wf (Assignment.total_binds (fun _ => 0) source)
    apply faultless (.total fun _ => 0) (.constantWidth width)
    rw [evaluates, valued, Except.bind, Word.make, if_neg outside]
    rfl
  · intro bounds a fault failed
    rw [evaluates] at failed
    cases value : source.eval a with
    | error f =>
        rw [value] at failed
        cases failed
        exact wf.faultless a fault value
    | ok w =>
        rw [value, Except.bind, Word.make, if_pos bounds] at failed
        cases failed

theorem Builds.returns {built : Except Fault Expr} {width : UInt64} {vars : List Var} {value : Valuation → Nat}
    (builds : Builds built width vars value) : Returns built WellFormed := by
  obtain ⟨r, rfl, denotes⟩ := builds
  exact .ok denotes.wellFormed

theorem apply_known (op : Op) (lhs rhs : Expr) : Returns (apply op lhs rhs) fun _ => op.Known := by
  cases op with
  | unassigned code free =>
      refine (checkWidths_same _ _ _).bind fun _ _ => ?_
      unfold combine
      split
      · exact .error _
      · exact .error _
  | add | sub | mul | udiv | urem | and | or | xor | shl | lshr => exact fun _ _ => .inl rfl
  | eq | ne | ult | ule | ugt | uge => exact fun _ _ => .inr rfl

theorem apply_wellFormed {op : Op} {lhs rhs : Expr} (left : lhs.WellFormed) (right : rhs.WellFormed) :
    Returns (apply op lhs rhs) WellFormed := by
  intro r made
  have known := apply_known op lhs rhs r made
  have same : lhs.width = rhs.width := by
    by_contra different
    simp [apply, checkWidths, different, bind, Except.bind] at made
  exact (apply_applies known ⟨left, right, same⟩).returns r made

theorem append_wellFormed {msb lsb : Expr} (high : msb.WellFormed) (low : lsb.WellFormed) :
    Returns (msb.append lsb) WellFormed := by
  intro r made
  have highLe := UInt64.le_iff_toNat_le.mp (width_bounds high).2
  have lowLe := UInt64.le_iff_toNat_le.mp (width_bounds low).2
  have fits : msb.width.toNat + lsb.width.toNat ≤ 64 := by
    by_contra wide
    have refused : 64 < msb.width + lsb.width := by
      rw [UInt64.lt_iff_toNat_lt, UInt64.toNat_add]
      simp at highLe lowLe ⊢
      omega
    simp [append, join, refused] at made
  exact (append_builds high low fits).returns r made

namespace Recipe

/-- Calls that make an ill-formed expression of well-formed ones. -/
def Strays : Recipe → Prop
  | slice source offset width => source.reach offset width = .beyond
  | resize source width => 64 < width ∧ source.isConst = false
  | constant .. | named .. | apply .. | append .. | complement .. | all .. | any .. => False

variable {recipe : Recipe} {r : Expr} (operands : ∀ e ∈ recipe.operands, e.WellFormed)

include operands

theorem result_wellFormed (inside : ¬ recipe.Strays) : Returns recipe.result WellFormed := by
  cases recipe with
  | constant value width => exact (Word.make_masked value width).map fun _ masked => masked
  | named name width =>
      unfold result Expr.named
      dsimp only
      split
      · next bounds => exact .ok bounds
      · exact .error _
  | apply op lhs rhs =>
      obtain ⟨left, right⟩ := List.forall_mem_cons.mp operands
      exact apply_wellFormed left (List.forall_mem_singleton.mp right)
  | append msb lsb =>
      obtain ⟨high, low⟩ := List.forall_mem_cons.mp operands
      exact append_wellFormed high (List.forall_mem_singleton.mp low)
  | slice source offset width =>
      intro r made
      have meets := slice_meets (List.forall_mem_singleton.mp operands) offset width
      cases got : source.reach offset width with
      | refused =>
          obtain ⟨fault, failed⟩ := got ▸ meets
          cases made.symm.trans failed
      | sound =>
          obtain ⟨r', made', wf⟩ := got ▸ meets
          cases made.symm.trans made'
          exact wf
      | beyond => exact absurd got inside
  | complement source => exact (complement_builds (List.forall_mem_singleton.mp operands)).returns
  | resize source width =>
      have wf := List.forall_mem_singleton.mp operands
      intro r made
      obtain ⟨some_, narrow⟩ := (resize_ok_iff wf).mp ⟨r, made⟩
      have narrow : width ≤ 64 := by
        by_contra wide
        exact inside ⟨UInt64.not_le.mp wide, narrow.resolve_left wide⟩
      exact (resize_builds wf (UInt64.lt_of_lt_of_le (by decide) some_) narrow).returns r made
  | all es => exact all_returns operands (Word.ofBool_masked true) fun _ _ => apply_wellFormed
  | any es => exact any_returns operands (Word.ofBool_masked false) fun _ _ => apply_wellFormed

/-- What a stray call returns is ill-formed, and it can be evaluated if it is no wider than a
    machine word. -/
theorem result_of_strays (strays : recipe.Strays) (made : recipe.result = .ok r) :
    ¬ r.WellFormed ∧ (r.Faultless ↔ r.width ≤ 64) := by
  cases recipe with
  | slice source offset width =>
      have meets := slice_meets (List.forall_mem_singleton.mp operands) offset width
      rw [show source.reach offset width = .beyond from strays] at meets
      obtain ⟨inner, offset', wf, wraps, made'⟩ := meets
      cases made.symm.trans made'
      have pos := UInt64.pos_iff_ne_zero.mpr (ne_zero_of_wrapped wraps)
      constructor
      · rintro ⟨_, _, inside⟩
        have narrow := UInt64.le_iff_toNat_le.mp (width_bounds wf).2
        simp at narrow
        omega
      · rw [faultless_iff_of_make wf fun _ => rfl, and_iff_right pos]
        rfl
  | resize source width =>
      obtain ⟨wide, notConst⟩ := strays
      have wf := List.forall_mem_singleton.mp operands
      simp only [result, resize_wide wf wide, notConst] at made
      cases made
      constructor
      · exact fun extended => UInt64.not_le.mpr wide extended.2.2
      · rw [faultless_iff_of_make wf fun _ => rfl, and_iff_right (UInt64.lt_trans (by decide) wide)]
        rfl
  | constant | named | apply | append | complement | all | any => exact strays.elim

end Recipe

/-- Expressions that are made by calls of building functions none of which strays. -/
inductive MadeInside : Expr → Prop
  | make (recipe : Recipe) (session : Session) {e : Expr} {left : Session} :
      (∀ operand ∈ recipe.operands, MadeInside operand) → ¬ recipe.Strays →
      Session.make recipe.result session = .ok e left → MadeInside e

theorem MadeInside.wellFormed {e : Expr} (made : e.MadeInside) : e.WellFormed := by
  induction made with
  | make recipe session _ inside made ih =>
      have stamps := Session.make_stamps recipe.result session
      rw [made] at stamps
      obtain ⟨r, next, result, rfl⟩ := stamps
      rw [← wellFormed_erase, erase_stamp, wellFormed_erase]
      exact recipe.result_wellFormed ih inside r result

/-- A slice that is returned lies within its source, except where the end of the request lies beyond a
    machine word and `reach` does not come to nothing; an extension that is returned has 1 to 64 bits,
    except that of an expression other than a constant to more. A call on well-formed operands returns
    a well-formed expression unless it strays, and one that can be evaluated unless it has more than
    64 bits. So whatever is made without stray calls is well-formed and can be evaluated. -/
theorem building_checks_requests {e : Expr} (wf : e.WellFormed) :
    (∀ offset width : UInt64,
      ((∀ r, e.slice offset width = .ok r → 0 < width ∧ offset.toNat + width.toNat ≤ e.width.toNat) ↔
        offset.toNat + width.toNat < 2 ^ 64 ∨ e.reach offset width = .refused) ∧
      ((∃ r, e.slice offset width = .ok r) ↔ e.reach offset width ≠ .refused)) ∧
    (∀ width : UInt64,
      ((∀ r, e.resize width = .ok r → 1 ≤ width ∧ width ≤ 64) ↔ width ≤ 64 ∨ e.isConst = true) ∧
      ((∃ r, e.resize width = .ok r) ↔ 1 ≤ width ∧ (width ≤ 64 ∨ e.isConst = false))) ∧
    (∀ (recipe : Recipe) r, (∀ operand ∈ recipe.operands, operand.WellFormed) → recipe.result = .ok r →
      (r.WellFormed ↔ ¬ recipe.Strays) ∧ (r.Faultless ↔ r.width ≤ 64)) ∧
    ∀ made : Expr, made.MadeInside → made.WellFormed ∧ made.width ≤ 64 ∧ made.Faultless := by
  refine ⟨fun _ _ => ⟨slice_in_bounds_iff wf, slice_ok_iff wf⟩,
    fun _ => ⟨resize_in_bounds_iff wf, resize_ok_iff wf⟩, fun recipe r operands made => ?_, fun made inside => ?_⟩
  · by_cases strays : recipe.Strays
    · obtain ⟨ill, faultless⟩ := recipe.result_of_strays operands strays made
      exact ⟨iff_of_false ill (not_not_intro strays), faultless⟩
    · have wf := recipe.result_wellFormed operands strays r made
      exact ⟨iff_of_true wf strays, iff_of_true wf.faultless (width_bounds wf).2⟩
  · have wf := inside.wellFormed
    exact ⟨wf, (width_bounds wf).2, wf.faultless⟩

/-- Two bits from one below the start of a slice are still bits of its source, so this request is
    answered, and well. -/
theorem building_checks_requests_below_slice :
    let w : Expr := var (some 0) ⟨"w", 32⟩
    let e : Expr := extract (some 1) w 8 16
    let recipe : Recipe := .slice e 18446744073709551615 2
    e.MadeInside ∧ e.WellFormed ∧ e.Faultless ∧ e.reach 18446744073709551615 2 = .sound ∧
      recipe.result = .ok (extract none w 7 2) ∧ (extract none w 7 2).WellFormed ∧
      (∀ r, e.slice 12 8 = .ok r → 12 + 8 ≤ 16) ∧ ¬ (∃ r, e.slice 12 8 = .ok r) ∧
      ∀ r, e.resize 64 = .ok r → (1 : UInt64) ≤ 64 ∧ (64 : UInt64) ≤ 64 := by
  intro w e recipe
  have wf : e.WellFormed := by decide
  have wMade : w.MadeInside := .make (.named "w" 32) {} (by simp [Recipe.operands]) id rfl
  have cut : w.slice 8 16 = .ok (extract none w 8 16) :=
    slice_sealed (by decide) (by decide) rfl (by decide)
  have stamped : Session.make (Recipe.slice w 8 16).result { nextTag := 1 } = .ok e { nextTag := 2 } := by
    simp only [Recipe.result, cut]
    rfl
  have inside : ¬ (Recipe.slice w 8 16).Strays := by
    simp only [Recipe.Strays]
    decide
  have eMade : e.MadeInside := .make (.slice w 8 16) _ (List.forall_mem_singleton.mpr wMade) inside stamped
  have result : recipe.result = .ok (extract none w 7 2) := by
    simp only [recipe, Recipe.result, e]
    rw [slice_extract (by decide) (by decide) (by decide)]
    exact slice_sealed (by decide) (by decide) rfl (by decide)
  have straight : ¬ recipe.Strays := by
    simp only [recipe, Recipe.Strays]
    decide
  obtain ⟨slices, resizes, calls, made⟩ := building_checks_requests wf
  exact ⟨eMade, wf, (made e eMade).2.2, by decide, result,
    (calls recipe _ (List.forall_mem_singleton.mpr wf) result).1.mpr straight,
    fun r done => ((slices 12 8).1.mpr (.inl (by decide)) r done).2,
    fun answered => (slices 12 8).2.mp answered (by decide), (resizes 64).1.mpr (.inl (by decide))⟩

/-- The 16 bits of a byte from 8 below its start on are returned, and so are a byte's 65 lowest bits. -/
theorem not_building_checks_requests :
    ¬ (∀ e : Expr, e.WellFormed → ∀ offset width r, e.slice offset width = .ok r →
      0 < width ∧ offset.toNat + width.toNat ≤ e.width.toNat) ∧
    ¬ (∀ e : Expr, e.WellFormed → ∀ width r, e.resize width = .ok r → 1 ≤ width ∧ width ≤ 64) ∧
    ¬ ∀ e : Expr, e.Made → e.WellFormed ∧ e.width ≤ 64 ∧ e.Faultless := by
  have wf : (var (some 0) ⟨"x", 8⟩).WellFormed := by decide
  have sliced : (var (some 0) ⟨"x", 8⟩).slice 18446744073709551608 16 =
      .ok (extract none (var (some 0) ⟨"x", 8⟩) 18446744073709551608 16) :=
    slice_sealed (by decide) (by decide) rfl (by decide)
  have resized : (var (some 0) ⟨"x", 8⟩).resize 65 = .ok (zext none (var (some 0) ⟨"x", 8⟩) 65) := rfl
  have xMade : (var (some 0) ⟨"x", 8⟩).Made := .make (.named "x" 8) {} (by simp [Recipe.operands]) rfl
  have made : (zext (some 1) (var (some 0) ⟨"x", 8⟩) 65).Made :=
    .make (.resize _ 65) { nextTag := 1 } (List.forall_mem_singleton.mpr xMade) rfl
  refine ⟨fun bounds => ?_, fun bounds => ?_, fun sound => ?_⟩
  · exact absurd (bounds _ wf _ _ _ sliced).2 (by decide)
  · exact absurd (bounds _ wf _ _ resized).2 (by decide)
  · exact absurd (sound _ made).2.1 (by decide)

end Expr

end SymbolicMemory
