import SymbolicMemory.Proofs.Construction
import SymbolicMemory.Proofs.Naming

/-! # Taking constraints apart

A constraint is kept as the operands of its chain of one-bit conjunctions. For what is built
these operands hold together where the constraint does, under every assignment, and none of them
is a constant unless the whole is one. So it is with the constraints that stores and loads
produce, whatever the memory holds and whatever was stored: the expressions that a load finds
stand below equalities only.
-/

namespace SymbolicMemory

/-- Every listed constraint evaluates to truth. -/
def AllTrue (a : Assignment) (constraints : List Expr) : Prop :=
  ∀ c ∈ constraints, c.eval a = .ok (.ofBool true)

theorem allTrue_append {a : Assignment} {first second : List Expr} :
    AllTrue a (first ++ second) ↔ AllTrue a first ∧ AllTrue a second :=
  List.forall_mem_append

theorem allTrue_singleton {a : Assignment} {e : Expr} :
    AllTrue a [e] ↔ e.eval a = .ok (.ofBool true) :=
  List.forall_mem_singleton

theorem Returns.ofFault {α : Type} {x : Except Fault α} {property : α → Prop} (h : Returns x property) :
    Returns (Failure.ofFault x) property := by
  intro a done
  cases result : x with
  | error fault =>
      rw [result] at done
      cases done
  | ok b =>
      rw [result] at done
      cases done
      exact h _ result

/-- A masked conjunction is the set bit only if both operands are. -/
theorem Word.binary_and_true_iff {a b : Word} (ha : a.Masked) (hb : b.Masked) :
    binary .and a b = .ok (ofBool true) ↔ a = ofBool true ∧ b = ofBool true := by
  constructor
  · intro holds
    by_cases same : a.width = b.width
    · rw [binary_eq (.inl rfl) ha hb same] at holds
      have whole : result .and a b = ofBool true := Except.ok.inj holds
      have one : a.width = 1 := congrArg Word.width whole
      rcases one_bit_cases ha one with rfl | rfl <;>
        rcases one_bit_cases hb (same.symm.trans one) with rfl | rfl
      · exact absurd whole (by decide)
      · exact absurd whole (by decide)
      · exact absurd whole (by decide)
      · exact ⟨rfl, rfl⟩
    · rw [binary, if_neg same] at holds
      cases holds
  · rintro ⟨rfl, rfl⟩
    rfl

namespace Expr

theorem eval_erase (a : Assignment) (e : Expr) : e.erase.eval a = e.eval a := by
  induction e <;> simp_all [erase, eval]

theorem conjuncts_erase (e : Expr) : e.erase.conjuncts = e.conjuncts.map erase := by
  induction e using conjuncts.induct with
  | case1 tag lhs rhs bit ihl ihr =>
      rw [erase, conjuncts, conjuncts, width_erase, if_pos bit, if_pos bit, ihl, ihr, List.map_append]
  | case2 tag lhs rhs wide =>
      rw [erase, conjuncts, conjuncts, width_erase, if_neg wide, if_neg wide]
      rfl
  | case3 e other =>
      rw [conjuncts_alone other, conjuncts_alone]
      · rfl
      · intro tag lhs rhs same
        cases e with
        | binary tag' op l r =>
            cases same
            exact other _ _ _ rfl
        | _ => cases same

/-- Evaluating an operator on operands that have masked values. -/
theorem eval_binary_masked {a : Assignment} {lhs rhs : Expr} (left : Returns (lhs.eval a) Word.Masked)
    (right : Returns (rhs.eval a) Word.Masked) (tag : Tag) (op : Op) :
    Returns ((binary tag op lhs rhs).eval a) Word.Masked :=
  left.bind fun _ ha => right.bind fun _ hb => (Word.binary_masked op ha hb).ofFault

theorem eval_masked {e : Expr} (proper : e.Proper) (a : Assignment) : Returns (e.eval a) Word.Masked := by
  induction e with
  | const tag w => exact .ok proper
  | var tag v =>
      rw [eval]
      cases a v.name with
      | none => exact .error _
      | some value => exact (Word.make_masked _ _).ofFault
  | concat tag msb lsb ihm ihl =>
      exact (Returns.trivial _).bind fun _ _ => (Returns.trivial _).bind fun _ _ =>
        (Word.make_masked _ _).ofFault
  | extract | not | zext =>
      exact (Returns.trivial _).bind fun _ _ => (Word.make_masked _ _).ofFault
  | binary tag op lhs rhs ihl ihr => exact eval_binary_masked (ihl proper.1) (ihr proper.2.1) tag op

theorem eval_and_true_iff {a : Assignment} {lhs rhs : Expr} (left : Returns (lhs.eval a) Word.Masked)
    (right : Returns (rhs.eval a) Word.Masked) (tag : Tag) :
    (binary tag .and lhs rhs).eval a = .ok (.ofBool true) ↔
      lhs.eval a = .ok (.ofBool true) ∧ rhs.eval a = .ok (.ofBool true) := by
  rw [eval]
  cases l : lhs.eval a with
  | error failure => simp [bind, Except.bind]
  | ok x =>
      cases r : rhs.eval a with
      | error failure => simp [bind, Except.bind]
      | ok y =>
          have both := Word.binary_and_true_iff (left x l) (right y r)
          simp only [bind, Except.bind, Except.ok.injEq, ← both]
          cases Word.binary .and x y <;> simp [Failure.ofFault]

/-- Neither a constant nor a conjunction of one bit. -/
def Elementary (c : Expr) : Prop :=
  c.isConst = false ∧ ∀ tag lhs rhs, c = binary tag .and lhs rhs → c.width ≠ 1

/-- A constraint that can be taken apart: its conjuncts hold together where it does. -/
structure Splits (e : Expr) : Prop where
  masked : ∀ a, Returns (e.eval a) Word.Masked
  parts : e.isConst = false → ∀ c ∈ e.conjuncts, c.isConst = false
  holds : ∀ a, AllTrue a e.conjuncts ↔ e.eval a = .ok (.ofBool true)

namespace Splits

theorem alone {e : Expr} (whole : e.conjuncts = [e]) (masked : ∀ a, Returns (e.eval a) Word.Masked) :
    e.Splits where
  masked := masked
  parts constant := by
    rw [whole]
    exact List.forall_mem_singleton.mpr constant
  holds a := by rw [whole, allTrue_singleton]

theorem of_erase {e e' : Expr} (splits : e.Splits) (same : e'.erase = e.erase) : e'.Splits where
  masked a := by
    rw [← eval_erase, same, eval_erase]
    exact splits.masked a
  parts constant := by
    rw [← isConst_erase, same, isConst_erase] at constant
    have parts : ∀ c ∈ e'.conjuncts.map erase, c.isConst = false := by
      rw [← conjuncts_erase, same, conjuncts_erase]
      refine List.forall_mem_map.mpr fun c member => ?_
      rw [isConst_erase]
      exact splits.parts constant c member
    intro c member
    rw [← isConst_erase]
    exact parts _ (List.mem_map_of_mem member)
  holds a := by
    have bare : ∀ e : Expr, AllTrue a e.conjuncts ↔ AllTrue a e.erase.conjuncts := by
      intro e
      simp only [AllTrue, conjuncts_erase, List.forall_mem_map, eval_erase]
    rw [bare, same, ← bare, splits.holds, ← eval_erase, ← same, eval_erase]

variable {lhs rhs : Expr}

theorem conjunction (left : lhs.Splits) (right : rhs.Splits) (tag : Tag)
    (bits : lhs.width = 1 → lhs.isConst = false ∧ rhs.isConst = false) :
    (binary tag .and lhs rhs).Splits := by
  have masked := fun a => eval_binary_masked (left.masked a) (right.masked a) tag .and
  by_cases bit : lhs.width = 1
  · have apart : (binary tag .and lhs rhs).conjuncts = lhs.conjuncts ++ rhs.conjuncts := by
      rw [conjuncts, if_pos bit]
    obtain ⟨leftOpen, rightOpen⟩ := bits bit
    refine ⟨masked, fun _ => ?_, fun a => ?_⟩
    · rw [apart]
      exact List.forall_mem_append.mpr ⟨left.parts leftOpen, right.parts rightOpen⟩
    · rw [apart, allTrue_append, left.holds, right.holds,
        eval_and_true_iff (left.masked a) (right.masked a)]
  · exact alone (by rw [conjuncts, if_neg bit]) masked

/-- A constant that can be taken apart is masked. -/
theorem constant {tag : Tag} {w : Word} (splits : (const tag w).Splits) : w.Masked :=
  splits.masked .empty w rfl

end Splits

theorem Proper.splits {e : Expr} (proper : e.Proper) : e.Splits := by
  induction e using conjuncts.induct with
  | case1 tag lhs rhs bit ihl ihr =>
      obtain ⟨left, right, bits⟩ := proper
      exact (ihl left).conjunction (ihr right) tag (bits rfl)
  | case2 tag lhs rhs wide => exact .alone (by rw [conjuncts, if_neg wide]) (eval_masked proper)
  | case3 e other => exact .alone (conjuncts_alone other) (eval_masked proper)

theorem not_and_of_mem_conjuncts {e c : Expr} (member : c ∈ e.conjuncts) :
    ∀ tag lhs rhs, c = binary tag .and lhs rhs → c.width ≠ 1 := by
  induction e using conjuncts.induct with
  | case1 tag lhs rhs bit ihl ihr =>
      rw [conjuncts, if_pos bit] at member
      exact (List.mem_append.mp member).elim ihl ihr
  | case2 tag lhs rhs wide =>
      rw [conjuncts, if_neg wide] at member
      obtain rfl := List.mem_singleton.mp member
      exact fun _ _ _ _ => wide
  | case3 e other =>
      rw [conjuncts_alone other] at member
      obtain rfl := List.mem_singleton.mp member
      exact fun tag lhs rhs same => absurd same (other tag lhs rhs)

namespace Splits

variable {lhs rhs : Expr}

theorem elementary {e : Expr} (splits : e.Splits) (constant : e.isConst = false) :
    ∀ c ∈ e.conjuncts, c.Elementary :=
  fun c member => ⟨splits.parts constant c member, not_and_of_mem_conjuncts member⟩

/-- Two constants are folded into one. -/
theorem folded {tag tag' : Tag} {a b : Word} (left : (const tag a).Splits) (right : (const tag' b).Splits)
    (op : Op) : Returns ((Word.fold op a b).map (Expr.folded (const tag a) (const tag' b))) Splits := by
  refine (Word.fold_masked op left.constant right.constant).map fun folded masked => ?_
  cases folded with
  | lhs => exact left
  | rhs => exact right
  | word w => exact Proper.splits (e := const none w) masked

theorem apply_and (left : lhs.Splits) (right : rhs.Splits) : Returns (apply .and lhs rhs) Splits := by
  unfold apply checkWidths
  split
  · next same =>
    have masked : ∀ tag c, lhs = const tag c ∨ rhs = const tag c → c.Masked := by
      rintro tag c (rfl | rfl)
      · exact left.constant
      · exact right.constant
    change Returns (combine .and lhs rhs) Splits
    unfold combine
    split
    · exact left.folded right .and
    · refine .ok ?_
      obtain whole | whole | ⟨l, r, operands, whole, bits⟩ := andOf_cases same masked <;> rw [whole]
      · exact left
      · exact right
      · rcases operands with ⟨rfl, rfl⟩ | ⟨rfl, rfl⟩
        · exact left.conjunction right none bits
        · exact right.conjunction left none bits
  · exact .error _

theorem apply_or (left : lhs.Splits) (right : rhs.Splits) : Returns (apply .or lhs rhs) Splits := by
  have node : ∀ {l r : Expr}, l.Splits → r.Splits → (binary none .or l r).Splits := fun hl hr =>
    alone rfl fun a => eval_binary_masked (hl.masked a) (hr.masked a) none .or
  unfold apply checkWidths
  split
  · change Returns (combine .or lhs rhs) Splits
    unfold combine
    split
    · exact left.folded right .or
    · refine .ok ?_
      obtain whole | whole | ⟨l, r, operands, whole⟩ := orOf_cases lhs rhs <;> rw [whole]
      · exact left
      · exact right
      · rcases operands with ⟨rfl, rfl⟩ | ⟨rfl, rfl⟩
        · exact node left right
        · exact node right left
  · exact .error _

/-- An equality has a masked value even where its operands have none. -/
theorem equality (tag : Tag) (lhs rhs : Expr) : (binary tag .eq lhs rhs).Splits := by
  refine alone rfl fun a => (Returns.trivial _).bind fun x _ => (Returns.trivial _).bind fun y _ => ?_
  refine Returns.ofFault ?_
  unfold Word.binary
  split
  · intro w done
    rw [Word.fold, Word.eq, if_pos (by assumption)] at done
    cases done
    exact Word.ofBool_masked _
  · exact .error _

/-- An equality with a variable is never simplified into a part of the other side. -/
theorem apply_eq_var (tag : Tag) (v : Var) (value : Expr) : Returns (apply .eq (var tag v) value) Splits := by
  unfold apply checkWidths
  split
  · change Returns (eqOf (var tag v) value) Splits
    cases value with
    | const tag' c => exact .ok (equality none (const tag' c) (var tag v))
    | _ =>
        unfold eqOf constFirst
        refine .ok ?_
        split
        · exact (ofBool_proper true).splits
        · exact equality none _ _
  · exact .error _

theorem all {es : List Expr} (each : ∀ e ∈ es, e.Splits) : Returns (Expr.all es) Splits :=
  all_returns each (ofBool_proper true).splits fun _ _ => apply_and

theorem any {es : List Expr} (each : ∀ e ∈ es, e.Splits) : Returns (Expr.any es) Splits :=
  any_returns each (ofBool_proper false).splits fun _ _ => apply_or

end Splits

end Expr

/-- What is built keeps a property that does not depend on tags when it is taken over. -/
theorem Session.make_returns {built : Except Fault Expr} {property : Expr → Prop}
    (bare : ∀ {e e' : Expr}, property e → e'.erase = e.erase → property e') (h : Returns built property) :
    Ensures (make built) property (fun _ => True) := by
  refine (check_ok built).bind fun e done session => ?_
  exact bare (h e done) (e.erase_stamp session.nextTag)

theorem Session.make_splits {built : Except Fault Expr} (h : Returns built Expr.Splits) :
    Ensures (make built) Expr.Splits (fun _ => True) :=
  make_returns Expr.Splits.of_erase h

namespace Memory

theorem sized_proper (m : Memory) {address : Value} (proper : address.expr.Proper) :
    Ensures (m.sized address) (fun v => v.expr.Proper) (fun _ => True) := by
  have bare : ∀ {e e' : Expr}, e.Proper → e'.erase = e.erase → e'.Proper := by
    intro e e' proper same
    rwa [← Expr.proper_erase, same, Expr.proper_erase]
  unfold sized
  split
  · exact .pure proper
  · exact (Session.make_returns bare (Expr.resize_proper proper m.bits)).bind fun e proper => .pure proper

theorem pinned_splits (m : Memory) {v : Value} (proper : v.expr.Proper) (concrete : UInt64) :
    Returns (m.pinned v concrete) Expr.Splits :=
  (Expr.constant_proper concrete m.bits).bind fun _ constant e made =>
    (Expr.apply_proper proper constant .eq e made).splits

/-- A store produces one constraint, which can be taken apart. -/
theorem storeAt_splits {address : Value} (proper : address.expr.Proper) (value : Expr) :
    Ensures (storeAt address value) (fun constraints => ∃ c, constraints = [c] ∧ c.Splits)
      (fun _ => True) := by
  unfold storeAt
  refine (Ensures.trivial _).bind fun _ _ => ?_
  split
  · exact Ensures.bind (.throw True.intro) fun _ (no : False) => no.elim
  refine (Ensures.trivial _).bind fun m _ => ?_
  refine (On.ensures_lift (m.sized_proper proper)).bind fun v proper => ?_
  refine (Ensures.trivial _).bind fun found _ => (Ensures.trivial _).bind fun _ _ => ?_
  refine (On.ensures_lift (Session.make_splits (m.pinned_splits proper found.first))).bind fun c splits => ?_
  exact .pure ⟨c, rfl, splits⟩

theorem readCases_splits {v : Value} (proper : v.expr.Proper) (tag : Tag) (name : Var) (count : Nat)
    (concretes : List UInt64) :
    Ensures (readCases v (.var tag name) count concretes) (fun constraints => ∀ c ∈ constraints, c.Splits)
      (fun _ => True) := by
  induction concretes with
  | nil => exact .pure (List.forall_mem_nil _)
  | cons concrete rest ih =>
      unfold readCases
      refine (Ensures.trivial _).bind fun value _ => (Ensures.trivial _).bind fun m _ => ?_
      have here : Returns (do
          let same ← Expr.apply .eq (.var tag name) value
          let place ← m.pinned v concrete
          Expr.all [same, place]) Expr.Splits :=
        (Expr.Splits.apply_eq_var tag name value).bind fun same sameSplits =>
          (m.pinned_splits proper concrete).bind fun place placeSplits =>
            Expr.Splits.all (List.forall_mem_cons.mpr
              ⟨sameSplits, List.forall_mem_singleton.mpr placeSplits⟩)
      refine (On.ensures_lift (Session.make_splits here)).bind fun c splits => ?_
      exact ih.bind fun constraints each => .pure (List.forall_mem_cons.mpr ⟨splits, each⟩)

/-- A load produces one constraint, which can be taken apart. -/
theorem loadFrom_splits {address : Value} (proper : address.expr.Proper) (width : UInt64) :
    Ensures (loadFrom address width) (fun loaded => ∃ c, loaded.2 = [c] ∧ c.Splits) (fun _ => True) := by
  unfold loadFrom
  refine (Ensures.trivial _).bind fun _ _ => ?_
  split
  · exact Ensures.bind (.throw True.intro) fun _ (no : False) => no.elim
  refine (Ensures.trivial _).bind fun m _ => ?_
  refine (On.ensures_lift (m.sized_proper proper)).bind fun v proper => ?_
  refine (Ensures.trivial _).bind fun found _ => ?_
  split
  · refine (Ensures.trivial _).bind fun value _ => ?_
    refine (On.ensures_lift (Session.make_splits (m.pinned_splits proper found.first))).bind fun c splits => ?_
    exact .pure ⟨c, rfl, splits⟩
  · refine (Ensures.trivial _).bind fun name _ => ?_
    refine (On.ensures_lift (Session.named_ensures name width)).bind ?_
    rintro _ ⟨tag, rfl⟩
    refine (readCases_splits proper tag ⟨name, width⟩ _ found.toList).bind fun constraints each => ?_
    refine (Ensures.trivial _).bind fun _ _ => ?_
    refine (On.ensures_lift (Session.make_splits (Expr.Splits.any each))).bind fun c splits => ?_
    exact .pure ⟨c, rfl, splits⟩

end Memory

end SymbolicMemory
