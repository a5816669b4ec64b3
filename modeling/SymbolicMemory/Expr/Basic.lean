import SymbolicMemory.Word

/-! # Expressions

An expression is a bit vector built from constants and named variables. Every node
carries a tag that tells where it was made. Nodes that were made apart differ even
if they look alike, so equality of expressions is identity, and `erase` forgets the
tags to leave the bare shape.
-/

namespace SymbolicMemory

/-- The mark of a node. A node that has just been made carries none until it is stamped. -/
abbrev Tag := Option Nat

/-- A named bit vector of unknown content. -/
structure Var where
  name : String
  width : UInt64
  deriving DecidableEq, Repr

/-- A symbolic bit vector. -/
inductive Expr where
  /-- A known word. -/
  | const (tag : Tag) (word : Word)
  /-- A variable. -/
  | var (tag : Tag) (var : Var)
  /-- The bits of `msb` above those of `lsb`. -/
  | concat (tag : Tag) (msb lsb : Expr)
  /-- `width` bits of `source` from bit `offset` on. -/
  | extract (tag : Tag) (source : Expr) (offset width : UInt64)
  /-- Every bit flipped. -/
  | not (tag : Tag) (source : Expr)
  /-- Extension by zeros to `width` bits. -/
  | zext (tag : Tag) (source : Expr) (width : UInt64)
  /-- An operator on two operands. -/
  | binary (tag : Tag) (op : Op) (lhs rhs : Expr)
  deriving DecidableEq, Repr

namespace Expr

/-- Decides whether two expressions are the same node. Parts that are one object are not looked
    into, so an expression that uses a part many times is no more work than one that uses it
    once. -/
def decideSame (a b : Expr) : Decidable (a = b) :=
  withPtrEqDecEq a b fun _ =>
    match a, b with
    | concat t x y, concat t' x' y' =>
      if ht : t = t' then
        match decideSame x x' with
        | isTrue hx =>
          match decideSame y y' with
          | isTrue hy => isTrue (by rw [ht, hx, hy])
          | isFalse hy => isFalse fun h => hy (by injection h)
        | isFalse hx => isFalse fun h => hx (by injection h)
      else isFalse fun h => ht (by injection h)
    | extract t x i n, extract t' x' i' n' =>
      if ht : t = t' ∧ i = i' ∧ n = n' then
        match decideSame x x' with
        | isTrue hx => isTrue (by rw [ht.1, hx, ht.2.1, ht.2.2])
        | isFalse hx => isFalse fun h => hx (by injection h)
      else isFalse fun h => ht (by injection h with h₁ _ h₂ h₃; exact ⟨h₁, h₂, h₃⟩)
    | not t x, not t' x' =>
      if ht : t = t' then
        match decideSame x x' with
        | isTrue hx => isTrue (by rw [ht, hx])
        | isFalse hx => isFalse fun h => hx (by injection h)
      else isFalse fun h => ht (by injection h)
    | zext t x n, zext t' x' n' =>
      if ht : t = t' ∧ n = n' then
        match decideSame x x' with
        | isTrue hx => isTrue (by rw [ht.1, hx, ht.2])
        | isFalse hx => isFalse fun h => hx (by injection h)
      else isFalse fun h => ht (by injection h with h₁ _ h₂; exact ⟨h₁, h₂⟩)
    | binary t op x y, binary t' op' x' y' =>
      if ht : t = t' ∧ op = op' then
        match decideSame x x' with
        | isTrue hx =>
          match decideSame y y' with
          | isTrue hy => isTrue (by rw [ht.1, ht.2, hx, hy])
          | isFalse hy => isFalse fun h => hy (by injection h)
        | isFalse hx => isFalse fun h => hx (by injection h)
      else isFalse fun h => ht (by injection h with h₁ h₂; exact ⟨h₁, h₂⟩)
    | a, b => decEq a b

instance : DecidableEq Expr := decideSame

/-- The number of bits, counted modulo 2^64. -/
def width : Expr → UInt64
  | const _ w => w.width
  | var _ v => v.width
  | concat _ msb lsb => msb.width + lsb.width
  | extract _ _ _ width => width
  | not _ source => source.width
  | zext _ _ width => width
  | binary _ op lhs _ => if op.isCompare then 1 else lhs.width

/-- The word of a constant. -/
def word? : Expr → Option Word
  | const _ w => some w
  | _ => none

/-- Whether the expression is a constant. -/
def isConst (e : Expr) : Bool := e.word?.isSome

/-- Whether the expression is the one-bit constant that holds. -/
def isTrue (e : Expr) : Bool := e.word?.any Word.isTrue

/-- Whether the expression is the one-bit constant that does not hold. -/
def isFalse (e : Expr) : Bool := e.word?.any Word.isFalse

/-- The expression without its tags. Two expressions have one shape when these are equal. -/
def erase : Expr → Expr
  | const _ w => const none w
  | var _ v => var none v
  | concat _ msb lsb => concat none msb.erase lsb.erase
  | extract _ source offset width => extract none source.erase offset width
  | not _ source => not none source.erase
  | zext _ source width => zext none source.erase width
  | binary _ op lhs rhs => binary none op lhs.erase rhs.erase

/-- The printed form. Names are shown as they are. -/
def text : Expr → String
  | const _ w => "(const " ++ Text.decimal w.value ++ " " ++ Text.decimal w.width ++ ")"
  | var _ v => "(var " ++ v.name ++ " " ++ Text.decimal v.width ++ ")"
  | concat _ msb lsb => "(concat " ++ msb.text ++ " " ++ lsb.text ++ ")"
  | extract _ source offset width =>
    "(extract " ++ source.text ++ " " ++ Text.decimal offset ++ " " ++ Text.decimal width ++ ")"
  | not _ source => "(not " ++ source.text ++ ")"
  | zext _ source width => "(zext " ++ source.text ++ " " ++ Text.decimal width ++ ")"
  | binary _ op lhs rhs => "(" ++ op.name ++ " " ++ lhs.text ++ " " ++ rhs.text ++ ")"

/-- The kinds of nodes, in the order in which they sort. -/
inductive Kind where
  | const
  | var
  | concat
  | extract
  | not
  | zext
  | binary
  deriving DecidableEq, Repr

/-- The kind of the outermost node. -/
def kind : Expr → Kind
  | const .. => .const
  | var .. => .var
  | concat .. => .concat
  | extract .. => .extract
  | not .. => .not
  | zext .. => .zext
  | binary .. => .binary

/-- The nodes met from the root on, each before its operands and the left ones first. The
    operands of a node that fails `descend` are passed over. -/
def walk (descend : Expr → Bool) : Expr → List Expr
  | e@(const ..) => [e]
  | e@(var ..) => [e]
  | e@(concat _ msb lsb) =>
    e :: if descend e then msb.walk descend ++ lsb.walk descend else []
  | e@(extract _ source _ _) => e :: if descend e then source.walk descend else []
  | e@(not _ source) => e :: if descend e then source.walk descend else []
  | e@(zext _ source _) => e :: if descend e then source.walk descend else []
  | e@(binary _ _ lhs rhs) =>
    e :: if descend e then lhs.walk descend ++ rhs.walk descend else []

/-- The operands of a chain of one-bit disjunctions. -/
def disjuncts : Expr → List Expr
  | e@(binary _ .or lhs rhs) => if lhs.width = 1 then lhs.disjuncts ++ rhs.disjuncts else [e]
  | e => [e]

/-- The operands of a chain of one-bit conjunctions. -/
def conjuncts : Expr → List Expr
  | e@(binary _ .and lhs rhs) => if lhs.width = 1 then lhs.conjuncts ++ rhs.conjuncts else [e]
  | e => [e]

end Expr

end SymbolicMemory
