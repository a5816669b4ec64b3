import SymbolicMemory.Expr.Basic

/-! # Stamping new nodes -/

namespace SymbolicMemory.Expr

/-- Tags every new node, operands first, with numbers from `next` on, and returns the next
    free number. Nodes that have a tag are old, and so is everything below them. -/
def stamp : Expr → (next : Nat) → Expr × Nat
  | const none w, next => (const (some next) w, next + 1)
  | var none v, next => (var (some next) v, next + 1)
  | concat none msb lsb, next =>
    let (msb, next) := msb.stamp next
    let (lsb, next) := lsb.stamp next
    (concat (some next) msb lsb, next + 1)
  | extract none source offset width, next =>
    let (source, next) := source.stamp next
    (extract (some next) source offset width, next + 1)
  | not none source, next =>
    let (source, next) := source.stamp next
    (not (some next) source, next + 1)
  | zext none source width, next =>
    let (source, next) := source.stamp next
    (zext (some next) source width, next + 1)
  | binary none op lhs rhs, next =>
    let (lhs, next) := lhs.stamp next
    let (rhs, next) := rhs.stamp next
    (binary (some next) op lhs rhs, next + 1)
  | e, next => (e, next)

end SymbolicMemory.Expr
