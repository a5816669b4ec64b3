import SymbolicMemory.Proofs.Building
import SymbolicMemory.Proofs.Cutting

/-! # What no rule simplifies any further

A building function folds constants, drops neutral operands and moves constants to one side. What
is left is a node over operands to which none of its rules applies. For every operator the operands
of such a node are described, by shape alone; making the node anew over them gives it back, and
whatever a building function returns has no other nodes of its own making. Rules hand over to rules,
so this is shown for any property of nodes that holds of masked constants and of such nodes.
-/

namespace SymbolicMemory

/-- Whatever is returned, if anything, has a property. -/
def Returns {ε α : Type} (x : Except ε α) (property : α → Prop) : Prop := ∀ a, x = .ok a → property a

namespace Returns

variable {ε α β : Type} {property : α → Prop}

theorem ok {a : α} (here : property a) : Returns (.ok a : Except ε α) property := by
  rintro _ ⟨⟩
  exact here

theorem error (e : ε) : Returns (.error e : Except ε α) property := nofun

theorem bind {x : Except ε α} {f : α → Except ε β} {after : β → Prop} (first : Returns x property)
    (rest : ∀ a, property a → Returns (f a) after) : Returns (x >>= f) after := by
  intro b done
  cases result : x with
  | error e =>
      rw [result] at done
      cases done
  | ok a =>
      rw [result] at done
      exact rest a (first a result) b done

theorem map {x : Except ε α} {f : α → β} {after : β → Prop} (first : Returns x property)
    (rest : ∀ a, property a → after (f a)) : Returns (x.map f) after := by
  intro b done
  cases result : x with
  | error e =>
      rw [result] at done
      cases done
  | ok a =>
      rw [result] at done
      cases done
      exact rest a (first a result)

theorem trivial (x : Except ε α) : Returns x fun _ => True := fun _ _ => True.intro

theorem foldlM {f : α → β → Except ε α} {each : β → Prop}
    (step : ∀ a b, property a → each b → Returns (f a b) property) {bs : List β} (all : ∀ b ∈ bs, each b) {a : α}
    (start : property a) : Returns (bs.foldlM f a) property := by
  induction bs generalizing a with
  | nil => exact .ok start
  | cons b rest ih =>
      obtain ⟨here, later⟩ := List.forall_mem_cons.mp all
      rw [List.foldlM_cons]
      exact (step a b start here).bind fun _ => ih later

end Returns

namespace Word

variable {a b : Word}

theorem ofBool_masked (b : Bool) : (ofBool b).Masked := by
  cases b <;> decide

theorem one_bit_cases (masked : a.Masked) (one : a.width = 1) : a = ofBool false ∨ a = ofBool true := by
  obtain ⟨value, width⟩ := a
  obtain rfl : width = 1 := one
  have small : value.toNat < 2 := one_bit masked rfl
  have bit : value.toNat = 0 ∨ value.toNat = 1 := by omega
  rcases bit with zero | one
  · obtain rfl : value = 0 := UInt64.toNat_inj.mp zero
    exact .inl rfl
  · obtain rfl : value = 1 := UInt64.toNat_inj.mp one
    exact .inr rfl

theorem make_masked (value width : UInt64) : Returns (make value width) Masked := by
  intro w made
  unfold make at made
  split at made
  · next bounds =>
    cases made
    refine ⟨bounds.1, bounds.2, ?_⟩
    rw [toNat_and_mask value bounds.2]
    exact Nat.mod_lt _ (Nat.two_pow_pos _)
  · cases made

theorem make_sized (value width : UInt64) : Returns (make value width) fun w => w.Masked ∧ w.width = width :=
  fun w made => ⟨make_masked _ _ w made, width_of_make made⟩

theorem eq_masked (a b : Word) : Returns (a.eq b) Masked := by
  unfold Word.eq
  split
  · exact .ok (ofBool_masked _)
  · exact .error _

/-- Folding masked words gives a masked word, also if their widths differ. -/
theorem fold_masked (op : Op) (ha : a.Masked) (hb : b.Masked) :
    Returns (fold op a b) fun folded => (folded.resolve a b).Masked := by
  have word : ∀ {x : Except Fault Word}, Returns x Masked →
      Returns (x.map Folded.word) fun folded => (folded.resolve a b).Masked :=
    fun masked => masked.map fun _ here => here
  cases op with
  | add =>
      simp only [fold]
      split
      · exact .ok hb
      split
      · exact word (make_masked _ _)
      · exact word (make_masked _ _)
  | sub =>
      simp only [fold]
      split
      · exact word (make_masked _ _)
      · exact word (make_masked _ _)
  | mul =>
      simp only [fold]
      split
      · exact word (make_masked _ _)
      split
      · exact .ok hb
      split
      · exact .ok ha
      · exact word (make_masked _ _)
  | udiv =>
      refine word ?_
      unfold udiv
      split
      · exact make_masked _ _
      · exact make_masked _ _
  | urem =>
      simp only [fold]
      split
      · exact .ok ha
      · next nonzero =>
        rw [urem, if_neg nonzero]
        exact word (make_masked _ _)
  | xor =>
      simp only [fold]
      split
      · exact .ok hb
      · exact word (make_masked _ _)
  | shl =>
      refine word ?_
      unfold shl
      split
      · exact make_masked _ _
      · exact make_masked _ _
  | lshr =>
      refine word ?_
      unfold lshr
      split
      · exact make_masked _ _
      · exact make_masked _ _
  | and | or => exact word (make_masked _ _)
  | eq => exact word (eq_masked a b)
  | ne => exact (Returns.trivial _).map fun _ _ => ofBool_masked _
  | ult | ule | ugt | uge => exact .ok (ofBool_masked _)
  | unassigned code free => exact .error _

theorem binary_masked (op : Op) (ha : a.Masked) (hb : b.Masked) : Returns (binary op a b) Masked := by
  unfold binary
  split
  · exact (fold_masked op ha hb).map fun _ masked => masked
  · exact .error _

end Word

namespace Expr

/-- Every node has a property. -/
def Every (P : Expr → Prop) (e : Expr) : Prop := ∀ n ∈ e.walk (fun _ => true), P n

section Every

variable {P : Expr → Prop} {tag : Tag}

@[simp] theorem every_const {w : Word} : (const tag w).Every P ↔ P (const tag w) := by
  simp [Every, walk]

@[simp] theorem every_var {v : Var} : (var tag v).Every P ↔ P (var tag v) := by
  simp [Every, walk]

@[simp] theorem every_concat {msb lsb : Expr} :
    (concat tag msb lsb).Every P ↔ P (concat tag msb lsb) ∧ msb.Every P ∧ lsb.Every P := by
  simp [Every, walk, or_imp, forall_and]

@[simp] theorem every_extract {source : Expr} {offset width : UInt64} :
    (extract tag source offset width).Every P ↔ P (extract tag source offset width) ∧ source.Every P := by
  simp [Every, walk]

@[simp] theorem every_not {source : Expr} : (not tag source).Every P ↔ P (not tag source) ∧ source.Every P := by
  simp [Every, walk]

@[simp] theorem every_zext {source : Expr} {width : UInt64} :
    (zext tag source width).Every P ↔ P (zext tag source width) ∧ source.Every P := by
  simp [Every, walk]

@[simp] theorem every_binary {op : Op} {lhs rhs : Expr} :
    (binary tag op lhs rhs).Every P ↔ P (binary tag op lhs rhs) ∧ lhs.Every P ∧ rhs.Every P := by
  simp [Every, walk, or_imp, forall_and]

end Every

/-- Whether an expression is a sum with a constant in front. -/
def isOffset : Expr → Bool
  | binary _ .add lhs _ => lhs.isConst
  | _ => false

/-- Whether an equality with a constant has nothing to simplify in an expression. -/
def withstands (c : Word) : Expr → Bool
  | const .. => false
  | binary _ .eq lhs _ => !c.isTrue && !(c.isFalse && lhs.isFalse)
  | binary _ .add lhs _ => !lhs.isConst
  | zext .. => false
  | _ => true

/-- No rule for an operator applies to its operands. -/
def Irreducible (op : Op) (lhs rhs : Expr) : Prop :=
  (lhs.isConst && rhs.isConst) = false ∧
  match op with
  | .add => lhs.width ≠ 1 ∧ rhs.isConst = false ∧ ∀ c ∈ lhs.word?, c.value ≠ 0 ∧ rhs.isOffset = false
  | .sub => lhs.width ≠ 1 ∧ rhs.isConst = false ∧ lhs.alike rhs = false
  | .mul => lhs.width ≠ 1 ∧ rhs.isConst = false ∧ ∀ c ∈ lhs.word?, c.value ≠ 1 ∧ c.value ≠ 0
  | .udiv | .urem => True
  | .and | .or => lhs.isConst = false ∧ ∀ c ∈ rhs.word?, c.isAllOnes = false ∧ c.value ≠ 0
  | .xor => rhs.isConst = false ∧ ∀ c ∈ lhs.word?, c.value ≠ 0
  | .shl | .lshr => ∀ c ∈ rhs.word?, c.value ≠ 0
  | .eq => rhs.isConst = false ∧ (∀ c ∈ lhs.word?, rhs.withstands c = true) ∧
      (lhs.isConst = false → lhs.alike rhs = false)
  | .ult => lhs.alike rhs = false
  | .ule => (∀ c ∈ lhs.word?, c.value ≠ 0) ∧ (∀ c ∈ rhs.word?, c.isAllOnes = false) ∧ lhs.alike rhs = false
  | .ne | .ugt | .uge | .unassigned .. => False

theorem eq_const_of_isConst {e : Expr} (constant : e.isConst = true) : ∃ tag c, e = const tag c := by
  obtain ⟨c, word⟩ := Option.isSome_iff_exists.mp constant
  obtain ⟨tag, rfl⟩ := eq_const_of_word? word
  exact ⟨tag, c, rfl⟩

theorem isConst_of_ne {e : Expr} (other : ∀ tag c, e = const tag c → False) : e.isConst = false := by
  cases constant : e.isConst with
  | false => rfl
  | true =>
      obtain ⟨tag, c, rfl⟩ := eq_const_of_isConst constant
      exact (other tag c rfl).elim

theorem isOffset_of_ne {e : Expr} (other : ∀ tag tag' y z, e = binary tag .add (const tag' y) z → False) :
    e.isOffset = false := by
  unfold isOffset
  split
  · next tag lhs rhs => exact isConst_of_ne fun tag' y same => other tag tag' y rhs (same ▸ rfl)
  · rfl

section Rebuilding

variable {lhs rhs : Expr}

theorem constFirst_of_last (last : rhs.isConst = false) : constFirst lhs rhs = (lhs, rhs) := by
  simp [constFirst, last]

theorem constLast_of_first (first : lhs.isConst = false) : constLast lhs rhs = (lhs, rhs) := by
  simp [constLast, first]

theorem addConst_of_offset {tag : Tag} {c : Word} (nonzero : c.value ≠ 0) (open_ : rhs.isConst = false)
    (offset : rhs.isOffset = false) : addConst tag c rhs = .ok (binary none .add (const tag c) rhs) := by
  unfold addConst
  rw [if_neg nonzero]
  split
  · cases open_
  · cases offset
  · rfl

theorem eqConst_of_withstands {tag : Tag} {c : Word} (withstands : rhs.withstands c = true) :
    eqConst tag c rhs = .ok (binary none .eq (const tag c) rhs) := by
  unfold eqConst
  split
  · cases withstands
  · simp only [Expr.withstands, Bool.and_eq_true, Bool.not_eq_true'] at withstands
    rw [if_neg (by simp [withstands.1]), if_neg (by simp [withstands.2])]
  · cases withstands
  · cases withstands
  · rfl

/-- What no rule applies to is made as it stands. -/
theorem combine_irreducible {op : Op} (irreducible : Irreducible op lhs rhs) :
    combine op lhs rhs = .ok (binary none op lhs rhs) := by
  obtain ⟨apart, rule⟩ := irreducible
  unfold combine
  split
  · cases apart
  · next other =>
    cases op with
    | add =>
        obtain ⟨wide, open_, rule⟩ := rule
        simp only [addOf, constFirst_of_last open_, if_neg wide]
        cases lhs with
        | const tag c => exact addConst_of_offset (rule c rfl).1 open_ (rule c rfl).2
        | var | concat | extract | not | zext | binary => rfl
    | sub =>
        obtain ⟨wide, open_, differ⟩ := rule
        simp only [subOf, differ, if_neg wide, Bool.false_eq_true, if_false]
        cases rhs with
        | const tag c => cases open_
        | var | concat | extract | not | zext | binary => rfl
    | mul =>
        obtain ⟨wide, open_, rule⟩ := rule
        simp only [mulOf, constFirst_of_last open_, if_neg wide]
        cases lhs with
        | const tag c => simp only [if_neg (rule c rfl).1, if_neg (rule c rfl).2]
        | var | concat | extract | not | zext | binary => rfl
    | udiv | urem => rfl
    | and =>
        simp only [andOf, constLast_of_first rule.1]
        cases rhs with
        | const tag c => simp [rule.2 c rfl]
        | var | concat | extract | not | zext | binary => rfl
    | or =>
        simp only [orOf, constLast_of_first rule.1]
        cases rhs with
        | const tag c => simp [rule.2 c rfl]
        | var | concat | extract | not | zext | binary => rfl
    | xor =>
        simp only [xorOf, constFirst_of_last rule.1]
        cases lhs with
        | const tag c => simp [rule.2 c rfl]
        | var | concat | extract | not | zext | binary => rfl
    | shl | lshr =>
        cases rhs with
        | const tag c => simp [shiftOf, rule c rfl]
        | var | concat | extract | not | zext | binary => rfl
    | eq =>
        obtain ⟨open_, withstands, differ⟩ := rule
        simp only [eqOf, constFirst_of_last open_]
        cases lhs with
        | const tag c => exact eqConst_of_withstands (withstands c rfl)
        | var | concat | extract | not | zext | binary => simp [differ rfl]
    | ult => simp [ultOf, rule]
    | ule =>
        obtain ⟨low, high, differ⟩ := rule
        have notLow : lhs.word?.any (·.value == 0) = false := by
          cases word : lhs.word? with
          | none => rfl
          | some c => simpa using low c word
        have notHigh : rhs.word?.any Word.isAllOnes = false := by
          cases word : rhs.word? with
          | none => rfl
          | some c => simpa using high c word
        simp [uleOf, notLow, notHigh, differ]
    | ne | ugt | uge | unassigned => exact rule.elim

end Rebuilding

/-- A property of nodes that constants have exactly if they are masked, and new nodes over operands
    that no rule applies to. -/
structure Closed (P : Expr → Prop) : Prop where
  const_iff : ∀ {tag : Tag} {w : Word}, P (const tag w) ↔ w.Masked
  node : ∀ {op : Op} {lhs rhs : Expr}, lhs.width = rhs.width → Irreducible op lhs rhs → lhs.Every P →
    rhs.Every P → P (binary none op lhs rhs)

/-- Operands of one width, not both constant, all of whose nodes have a property. -/
structure Ready (P : Expr → Prop) (lhs rhs : Expr) : Prop where
  left : lhs.Every P
  right : rhs.Every P
  same : lhs.width = rhs.width
  apart : (lhs.isConst && rhs.isConst) = false

section Chain

variable {P : Expr → Prop} {lhs rhs : Expr}

theorem Ready.symm (ready : Ready P lhs rhs) : Ready P rhs lhs :=
  ⟨ready.right, ready.left, ready.same.symm, by rw [Bool.and_comm, ready.apart]⟩

theorem constFirst_ready (ready : Ready P lhs rhs) :
    ∃ l r, constFirst lhs rhs = (l, r) ∧ Ready P l r ∧ r.isConst = false := by
  by_cases swapped : rhs.isConst = true
  · have open_ : lhs.isConst = false := by simpa [swapped] using ready.apart
    exact ⟨rhs, lhs, by simp [constFirst, swapped, open_], ready.symm, open_⟩
  · exact ⟨lhs, rhs, by simp [constFirst, swapped], ready, by simpa using swapped⟩

theorem constLast_ready (ready : Ready P lhs rhs) :
    ∃ l r, constLast lhs rhs = (l, r) ∧ Ready P l r ∧ l.isConst = false := by
  by_cases swapped : lhs.isConst = true
  · have open_ : rhs.isConst = false := by simpa [swapped] using ready.apart
    exact ⟨rhs, lhs, by simp [constLast, swapped, open_], ready.symm, open_⟩
  · exact ⟨lhs, rhs, by simp [constLast, swapped], ready, by simpa using swapped⟩

variable (closed : Closed P)

include closed

theorem Closed.masked {tag : Tag} {w : Word} (every : (const tag w).Every P) : w.Masked :=
  closed.const_iff.mp (every_const.mp every)

theorem Closed.const {w : Word} (tag : Tag) (masked : w.Masked) : (const tag w).Every P :=
  every_const.mpr (closed.const_iff.mpr masked)

theorem Closed.ofBool (b : Bool) : (ofBool b).Every P := closed.const none (Word.ofBool_masked b)

theorem Ready.node (ready : Ready P lhs rhs) {op : Op} (irreducible : Irreducible op lhs rhs) :
    (binary none op lhs rhs).Every P :=
  every_binary.mpr ⟨closed.node ready.same irreducible ready.left ready.right, ready.left, ready.right⟩

theorem xorOf_every (ready : Ready P lhs rhs) : (xorOf lhs rhs).Every P := by
  obtain ⟨l, r, order, ready, open_⟩ := constFirst_ready ready
  unfold xorOf
  rw [order]
  cases l with
  | const tag c =>
      dsimp only
      split
      · exact ready.right
      · next nonzero => exact ready.node closed ⟨ready.apart, open_, by simpa [word?] using nonzero⟩
  | var | concat | extract | not | zext | binary =>
      exact ready.node closed ⟨ready.apart, open_, by simp [word?]⟩

theorem andOf_every (ready : Ready P lhs rhs) : (andOf lhs rhs).Every P := by
  obtain ⟨l, r, order, ready, open_⟩ := constLast_ready ready
  unfold andOf
  rw [order]
  cases r with
  | const tag c =>
      dsimp only
      split
      · exact ready.left
      split
      · exact ready.right
      · next full zero => exact ready.node closed ⟨ready.apart, open_, by simp_all [word?]⟩
  | var | concat | extract | not | zext | binary =>
      exact ready.node closed ⟨ready.apart, open_, by simp [word?]⟩

theorem orOf_every (ready : Ready P lhs rhs) : (orOf lhs rhs).Every P := by
  obtain ⟨l, r, order, ready, open_⟩ := constLast_ready ready
  unfold orOf
  rw [order]
  cases r with
  | const tag c =>
      dsimp only
      split
      · exact ready.right
      split
      · exact ready.left
      · next full zero => exact ready.node closed ⟨ready.apart, open_, by simp_all [word?]⟩
  | var | concat | extract | not | zext | binary =>
      exact ready.node closed ⟨ready.apart, open_, by simp [word?]⟩

omit closed in
theorem checkWidths_same (op : Op) (l r : UInt64) : Returns (checkWidths op l r) fun _ => l = r := by
  unfold checkWidths
  split
  · next same => exact .ok same
  · exact .error _

/-- Sums with a constant are flattened, until a node is made that has no constant to take in. -/
theorem addConst_every (tag : Tag) {c : Word} (masked : c.Masked) (every : rhs.Every P)
    (same : c.width = rhs.width) (wide : c.width ≠ 1) : Returns (addConst tag c rhs) (Every P) := by
  fun_induction addConst tag c rhs with
  | case1 => exact .ok every
  | case2 => exact (Word.make_masked _ _).map fun _ masked => closed.const none masked
  | case3 tag c _ tag' tag'' y z ih =>
      refine (Word.make_sized _ _).bind ?_
      rintro sum ⟨masked, width⟩
      refine (checkWidths_same _ _ _).bind fun _ same => ?_
      exact ih sum masked (every_binary.mp every).2.2 same (width ▸ wide)
  | case4 tag c nonzero e notConst notOffset =>
      have open_ := isConst_of_ne notConst
      have ready : Ready P (.const tag c) e := ⟨closed.const tag masked, every, same, by simp [open_]⟩
      refine .ok (ready.node closed ⟨ready.apart, wide, open_, ?_⟩)
      rintro _ ⟨⟩
      exact ⟨nonzero, isOffset_of_ne notOffset⟩

/-- Equalities with a constant move it through sums and zero extensions to a node that withstands. -/
theorem eqConst_every (tag : Tag) {c : Word} (masked : c.Masked) (every : rhs.Every P)
    (same : c.width = rhs.width) : Returns (eqConst tag c rhs) (Every P) := by
  have node : ∀ {tag : Tag} {c : Word} {e : Expr}, c.Masked → e.Every P → c.width = e.width →
      e.isConst = false → e.withstands c = true → (binary none .eq (.const tag c) e).Every P := by
    intro tag c e masked every same open_ withstands
    have ready : Ready P (.const tag c) e := ⟨closed.const tag masked, every, same, by simp [open_]⟩
    refine ready.node closed ⟨ready.apart, open_, ?_, fun other => by cases other⟩
    rintro _ ⟨⟩
    exact withstands
  fun_induction eqConst tag c rhs with
  | case1 => exact (Word.eq_masked _ _).map fun _ masked => closed.const none masked
  | case2 => exact .ok every
  | case3 => exact .ok (every_binary.mp every).2.2
  | case4 tag c tag' l r notTrue notFalse =>
      refine .ok (node masked every same rfl ?_)
      simp only [withstands, Bool.and_eq_true, Bool.not_eq_true']
      exact ⟨eq_false_of_ne_true notTrue, eq_false_of_ne_true notFalse⟩
  | case5 tag c tag' tag'' y z ih =>
      obtain ⟨_, constant, inner⟩ := every_binary.mp every
      have folded := (Word.fold_masked .sub masked (closed.masked constant)).map fun _ masked => masked
      refine folded.bind fun rest masked => (checkWidths_same _ _ _).bind fun _ same => ?_
      exact ih rest masked inner same
  | case6 tag c tag' source width ih =>
      refine (Word.make_sized _ _).bind ?_
      rintro cut ⟨masked, width⟩
      refine (Returns.trivial _).bind fun back _ => ?_
      split
      · exact ih cut masked (every_zext.mp every).2 width
      · -- the constant has bits that the extension fills with zeros
        exact .ok (closed.ofBool false)
  | case7 tag c e notConst notEq notOffset notZext =>
      refine .ok (node masked every same (isConst_of_ne notConst) ?_)
      unfold withstands
      split
      · exact (notConst _ _ rfl).elim
      · exact (notEq _ _ _ rfl).elim
      · next tag' l r =>
        rw [isConst_of_ne fun tag'' y same => notOffset tag' tag'' y r (same ▸ rfl)]
        rfl
      · exact (notZext _ _ _ rfl).elim
      · rfl

theorem addOf_every (ready : Ready P lhs rhs) : Returns (addOf lhs rhs) (Every P) := by
  obtain ⟨l, r, order, ready, open_⟩ := constFirst_ready ready
  unfold addOf
  rw [order]
  dsimp only
  split
  · exact .ok (xorOf_every closed ready)
  · next wide =>
    cases l with
    | const tag c => exact addConst_every closed tag (closed.masked ready.left) ready.right ready.same wide
    | var | concat | extract | not | zext | binary =>
        exact .ok (ready.node closed ⟨ready.apart, wide, open_, by simp [word?]⟩)

theorem subOf_every (ready : Ready P lhs rhs) : Returns (subOf lhs rhs) (Every P) := by
  unfold subOf
  split
  · exact (Word.make_masked _ _).map fun _ masked => closed.const none masked
  split
  · exact .ok (xorOf_every closed ready)
  · next differ wide =>
    cases rhs with
    | const tag c =>
        refine (Word.make_sized _ _).bind ?_
        rintro zero ⟨_, zeroWidth⟩
        refine (Word.make_sized _ _).bind ?_
        rintro negated ⟨masked, width⟩
        have same : negated.width = lhs.width := width.trans (zeroWidth.trans ready.same.symm)
        exact addConst_every closed none masked ready.left same (same ▸ wide)
    | var | concat | extract | not | zext | binary =>
        exact .ok (ready.node closed ⟨ready.apart, wide, rfl, by simpa using differ⟩)

theorem mulOf_every (ready : Ready P lhs rhs) : (mulOf lhs rhs).Every P := by
  obtain ⟨l, r, order, ready, open_⟩ := constFirst_ready ready
  unfold mulOf
  rw [order]
  dsimp only
  split
  · exact andOf_every closed ready
  · next wide =>
    cases l with
    | const tag c =>
        dsimp only
        split
        · exact ready.right
        split
        · exact ready.left
        · next one zero => exact ready.node closed ⟨ready.apart, wide, open_, by simp_all [word?]⟩
    | var | concat | extract | not | zext | binary =>
        exact ready.node closed ⟨ready.apart, wide, open_, by simp [word?]⟩

theorem shiftOf_every (ready : Ready P lhs rhs) {op : Op} (shift : op = .shl ∨ op = .lshr) :
    (shiftOf op lhs rhs).Every P := by
  have node : (∀ c ∈ rhs.word?, c.value ≠ 0) → (binary none op lhs rhs).Every P := by
    intro nonzero
    rcases shift with rfl | rfl
    · exact ready.node closed ⟨ready.apart, nonzero⟩
    · exact ready.node closed ⟨ready.apart, nonzero⟩
  cases rhs with
  | const tag c =>
      unfold shiftOf
      dsimp only
      split
      · exact ready.left
      · next nonzero => exact node (by simpa [word?] using nonzero)
  | var | concat | extract | not | zext | binary => exact node (by simp [word?])

theorem eqOf_every (ready : Ready P lhs rhs) : Returns (eqOf lhs rhs) (Every P) := by
  obtain ⟨l, r, order, ready, open_⟩ := constFirst_ready ready
  unfold eqOf
  rw [order]
  cases l with
  | const tag c => exact eqConst_every closed tag (closed.masked ready.left) ready.right ready.same
  | var | concat | extract | not | zext | binary =>
      dsimp only
      split
      · exact .ok (closed.ofBool true)
      · next differ =>
        exact .ok (ready.node closed ⟨ready.apart, open_, by simp [word?], fun _ => by simpa using differ⟩)

theorem ultOf_every (ready : Ready P lhs rhs) : (ultOf lhs rhs).Every P := by
  unfold ultOf
  split
  · exact closed.ofBool false
  · next differ => exact ready.node closed ⟨ready.apart, by simpa using differ⟩

theorem uleOf_every (ready : Ready P lhs rhs) : (uleOf lhs rhs).Every P := by
  unfold uleOf
  split
  · exact closed.ofBool true
  · next differ =>
    simp only [Bool.or_eq_true, not_or, Bool.not_eq_true] at differ
    refine ready.node closed ⟨ready.apart, fun c word => ?_, fun c word => ?_, differ.2⟩
    · simpa [Option.mem_def.mp word] using differ.1.1
    · simpa [Option.mem_def.mp word] using differ.1.2

/-- An operator returns an operand, a constant, or a node to which no rule applies. -/
theorem apply_every (left : lhs.Every P) (right : rhs.Every P) (op : Op) :
    Returns (apply op lhs rhs) (Every P) := by
  unfold apply
  refine (checkWidths_same _ _ _).bind fun _ same => ?_
  unfold combine
  split
  · next tag a tag' b =>
    refine (Word.fold_masked op (closed.masked left) (closed.masked right)).map fun folded masked => ?_
    cases folded with
    | lhs => exact left
    | rhs => exact right
    | word w => exact closed.const none masked
  · next other =>
    have apart : (lhs.isConst && rhs.isConst) = false := by
      refine eq_false_of_ne_true fun both => ?_
      obtain ⟨first, second⟩ := Bool.and_eq_true_iff.mp both
      obtain ⟨tag, a, rfl⟩ := eq_const_of_isConst first
      obtain ⟨tag', b, rfl⟩ := eq_const_of_isConst second
      exact other tag a tag' b rfl rfl
    have ready : Ready P lhs rhs := ⟨left, right, same, apart⟩
    cases op with
    | add => exact addOf_every closed ready
    | sub => exact subOf_every closed ready
    | mul => exact .ok (mulOf_every closed ready)
    | udiv | urem => exact .ok (ready.node closed ⟨apart, trivial⟩)
    | and => exact .ok (andOf_every closed ready)
    | or => exact .ok (orOf_every closed ready)
    | xor => exact .ok (xorOf_every closed ready)
    | shl => exact .ok (shiftOf_every closed ready (.inl rfl))
    | lshr => exact .ok (shiftOf_every closed ready (.inr rfl))
    | eq => exact eqOf_every closed ready
    | ne =>
        -- made as an equality of the equality with false
        refine (eqOf_every closed ready).bind fun equal every => (checkWidths_same _ _ _).bind fun _ same => ?_
        exact eqConst_every closed none (Word.ofBool_masked false) every same
    | ult => exact .ok (ultOf_every closed ready)
    | ule => exact .ok (uleOf_every closed ready)
    | ugt => exact .ok (ultOf_every closed ready.symm)
    | uge => exact .ok (uleOf_every closed ready.symm)
    | unassigned => exact .error _

end Chain

section Lists

variable {P : Expr → Prop} {es : List Expr} (each : ∀ e ∈ es, P e)

include each

theorem all_returns (truth : P (ofBool true)) (closed : ∀ lhs rhs, P lhs → P rhs → Returns (apply .and lhs rhs) P) :
    Returns (all es) P :=
  .foldlM closed each truth

theorem any_returns (falsity : P (ofBool false)) (closed : ∀ lhs rhs, P lhs → P rhs → Returns (apply .or lhs rhs) P) :
    Returns (any es) P := by
  cases es with
  | nil => exact .ok falsity
  | cons e rest =>
      obtain ⟨here, later⟩ := List.forall_mem_cons.mp each
      exact .foldlM closed later here

end Lists

end Expr

end SymbolicMemory
