import SymbolicMemory.Expr.Basic

/-! # The order of expressions

Expressions are compared by shape: first by kind, then by their parts. Tags play no
part, so two expressions compare equal exactly when they have one shape.
-/

namespace SymbolicMemory

/-- The place of a kind of node in the order. -/
def Expr.Kind.rank : Expr.Kind → Nat
  | .const => 1
  | .var => 2
  | .concat => 3
  | .extract => 4
  | .not => 5
  | .zext => 6
  | .binary => 7

/-- Narrower words first, then by value. -/
def Word.order (a b : Word) : Ordering :=
  (compare a.width b.width).then (compare a.value b.value)

/-- By name, code point for code point, then by width. -/
def Var.order (a b : Var) : Ordering :=
  (compare a.name b.name).then (compare a.width b.width)

/-- The order of two expressions by shape. A node is never looked into to compare it with
    itself. -/
def Expr.order (a b : Expr) : Ordering :=
  if a = b then .eq
  else match a, b with
    | .const _ a, .const _ b => a.order b
    | .var _ a, .var _ b => a.order b
    | .concat _ a b, .concat _ c d => (a.order c).then (b.order d)
    | .extract _ a i n, .extract _ b j m =>
      ((compare i j).then (compare n m)).then (a.order b)
    | .not _ a, .not _ b => a.order b
    | .zext _ a n, .zext _ b m => (compare n m).then (a.order b)
    | .binary _ op a b, .binary _ op' c d =>
      (compare op.code op'.code).then ((a.order c).then (b.order d))
    | a, b => compare a.kind.rank b.kind.rank

/-- Whether two expressions have one shape. -/
def Expr.alike (a b : Expr) : Bool := a.order b == .eq

end SymbolicMemory
