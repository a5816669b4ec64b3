import SymbolicMemory.Error

/-! # Evaluation

`eval` gives an expression its value under an assignment, and reports the first
variable from the left that has none. `evalPartial` works under a partial assignment
and answers as soon as the value no longer depends on the variables that are open.
-/

namespace SymbolicMemory

/-- Values for some variables, by name. -/
abbrev Assignment := String → Option UInt64

namespace Assignment

/-- No variable has a value. -/
def empty : Assignment := fun _ => none

/-- Gives one variable a value. -/
def set (a : Assignment) (name : String) (value : UInt64) : Assignment :=
  fun n => if n = name then some value else a n

/-- Gives listed variables their values. Both lists must have one length, and no variable
    stands twice. -/
def ofLists (vars : List Var) (values : List UInt64) : Except Fault Assignment :=
  if vars.length ≠ values.length then .error (.assignmentSizes vars.length values.length)
  else (vars.zip values).foldlM
    (fun a (v, value) =>
      if (a v.name).isSome then .error (.assignedTwice v.name) else .ok (a.set v.name value))
    empty

end Assignment

namespace Expr

/-- The value under an assignment. -/
def eval (a : Assignment) : Expr → Except Failure Word
  | const _ w => .ok w
  | var _ v =>
    match a v.name with
    | some value => Failure.ofFault (Word.make value v.width)
    | none => .error (.error (.unboundVariable v.name))
  | concat _ msb lsb => do
    let high ← msb.eval a
    let low ← lsb.eval a
    Failure.ofFault (high.concat low)
  | extract _ source offset width => do
    let w ← source.eval a
    Failure.ofFault (w.extract offset width)
  | not _ source => do
    let w ← source.eval a
    Failure.ofFault w.not
  | zext _ source width => do
    let w ← source.eval a
    Failure.ofFault (w.resize width)
  | binary _ op lhs rhs => do
    let left ← lhs.eval a
    let right ← rhs.eval a
    Failure.ofFault (Word.binary op left right)

/-- Whether an operand decides a one-bit conjunction or disjunction with left side `lhs`
    alone. -/
def decides (op : Op) (lhs : Expr) (operand : Word) : Bool :=
  match op with
  | .and => operand.isFalse && lhs.width == 1
  | .or => operand.isTrue && lhs.width == 1
  | _ => false

/-- The value under a partial assignment, if it can be told. Either operand may decide a
    one-bit conjunction or disjunction alone. -/
def evalPartial (a : Assignment) : Expr → Except Fault (Option Word)
  | const _ w => .ok (some w)
  | var _ v =>
    match a v.name with
    | some value => (Word.make value v.width).map some
    | none => .ok none
  | concat _ msb lsb =>
    match msb.evalPartial a with
    | .error fault => .error fault
    | .ok none => .ok none
    | .ok (some high) =>
      match lsb.evalPartial a with
      | .error fault => .error fault
      | .ok none => .ok none
      | .ok (some low) => (high.concat low).map some
  | extract _ source offset width =>
    match source.evalPartial a with
    | .error fault => .error fault
    | .ok none => .ok none
    | .ok (some w) => (w.extract offset width).map some
  | not _ source =>
    match source.evalPartial a with
    | .error fault => .error fault
    | .ok none => .ok none
    | .ok (some w) => w.not.map some
  | zext _ source width =>
    match source.evalPartial a with
    | .error fault => .error fault
    | .ok none => .ok none
    | .ok (some w) => (w.resize width).map some
  | binary _ op lhs rhs =>
    match lhs.evalPartial a with
    | .error fault => .error fault
    | .ok left =>
      if left.any (decides op lhs) then .ok left
      else match rhs.evalPartial a with
        | .error fault => .error fault
        | .ok right =>
          if right.any (decides op lhs) then .ok right
          else match left, right with
            | some l, some r => (Word.binary op l r).map some
            | _, _ => .ok none

end Expr

end SymbolicMemory
