import SymbolicMemory.Expr.Build
import SymbolicMemory.Expr.Eval
import SymbolicMemory.Expr.Vars
import SymbolicMemory.Session

/-! # Values under constraints

A value is an expression together with the constraints it stands under and the
solver that answers questions about it. The questions are whether it can be
anything at all, whether it can be only one thing, and what is the least, the
greatest, or any of the things it can be.
-/

namespace SymbolicMemory

/-- An expression under constraints. -/
structure Value where
  solver : Option Solver
  constraints : List Expr
  expr : Expr

namespace Value

def width (v : Value) : UInt64 := v.expr.width

/-- Whether the expression is not a constant. -/
def isSymbolic (v : Value) : Bool := !v.expr.isConst

/-- The value under further constraints. -/
def under (v : Value) (constraints : List Expr) : Value :=
  { v with constraints := v.constraints ++ constraints }

/-- Another expression in the same situation. -/
def withExpr (v : Value) (expr : Expr) : Value := { v with expr := expr }

/-- Whether the constraints have a solution. A constant that fails settles it, and without
    variables no solver is needed. -/
def isSatisfiable (v : Value) : Run Bool := do
  if v.constraints.any Expr.isFalse then return false
  match v.solver with
  | none =>
    let vars ← Session.check (Vars.find v.constraints)
    if vars.isEmpty then return true else throw (.error .constraintsNeedSolver)
  | some solver =>
    return (← Session.ask "solve" fun calls => solver.solve calls v.constraints []).isSome

/-- What the expression is in some solution of the constraints and of `extra`, if there is one. -/
def solve (v : Value) (extra : List Expr) : Run (Option UInt64) := do
  match v.solver with
  | none => throw (.error .valueNeedsSolver)
  | some solver =>
    let constraints := v.constraints ++ extra
    let vars ← Session.check (Vars.find (v.expr :: constraints))
    match ← Session.ask "solve" fun calls => solver.solve calls constraints vars with
    | none => return none
    | some values =>
      let a ← Session.check (Assignment.ofLists vars values)
      match v.expr.eval a with
      | .ok w => return some w.value
      | .error failure => throw failure

/-- One thing that the expression can be. -/
def any (v : Value) : Run UInt64 := do
  match v.expr with
  | .const _ w => return w.value
  | _ =>
    match ← v.solve [] with
    | some value => return value
    | none => throw (.error .unsat)

/-- The constraint that the expression compares to a constant as `op` says. -/
def compared (v : Value) (op : Op) (value : UInt64) : Run Expr :=
  Session.check do
    let c ← Expr.constant value v.width
    Expr.apply op v.expr c

/-- Whether the expression can be one thing only. -/
def isUnique (v : Value) : Run Bool := do
  if !v.isSymbolic then return true
  let value ← v.any
  let other ← v.compared .ne value
  return (← v.solve [other]).isNone

/-- The value halfway between two, rounded down. -/
def middle (lo hi : UInt64) : UInt64 := lo + (hi - lo) / 2

theorem middle_toNat {lo hi : UInt64} (h : lo < hi) :
    (middle lo hi).toNat = lo.toNat + (hi.toNat - lo.toNat) / 2 := by
  have hlt := UInt64.lt_iff_toNat_lt.mp h
  have hhi := hi.toNat_lt
  rw [middle, UInt64.toNat_add, UInt64.toNat_div, UInt64.toNat_sub_of_le _ _ (UInt64.le_of_lt h)]
  simp only [UInt64.reduceToNat]
  omega

theorem middle_succ_toNat {lo hi : UInt64} (h : lo < hi) :
    (middle lo hi + 1).toNat = (middle lo hi).toNat + 1 := by
  have hlt := UInt64.lt_iff_toNat_lt.mp h
  have hhi := hi.toNat_lt
  have hmid := middle_toNat h
  rw [UInt64.toNat_add]
  simp only [UInt64.reduceToNat]
  omega

/-- What the expression is in some solution in which it compares to `bound` as `op` says. -/
def probe (v : Value) (op : Op) (bound : UInt64) : Run (Option UInt64) := do
  v.solve [← v.compared op bound]

/-- Narrows down where the least value lies between `lo` and `hi`, one question at a time. The
    answers of a sound solver end this; against one that keeps answering out of range it may go
    on for ever, and then there is no outcome. -/
def leastFrom? (v : Value) (lo hi : UInt64) (session : Session) :
    Option (EStateM.Result Failure Session UInt64) :=
  if lo < hi then
    match v.probe .ule (middle lo hi) session with
    | .ok (some value) session => v |>.leastFrom? lo value session
    | .ok none session => v |>.leastFrom? (middle lo hi + 1) hi session
    | .error e session => some (.error e session)
  else some (.ok lo session)
partial_fixpoint

/-- The least value, known to lie between `lo` and `hi`. -/
def leastFrom (v : Value) (lo hi : UInt64) : Run UInt64 := fun session =>
  (v.leastFrom? lo hi session).getD (.error (.fault .endlessSearch) session)

/-- The least unsigned value of the expression. -/
def min (v : Value) : Run UInt64 := do
  let known ← v.any
  if v.isSymbolic then v.leastFrom 0 known else return known

/-- Narrows down where the greatest value lies between `lo` and `hi`, as `leastFrom?` does for
    the least. -/
def greatestFrom? (v : Value) (lo hi : UInt64) (session : Session) :
    Option (EStateM.Result Failure Session UInt64) :=
  if lo < hi then
    match v.probe .uge (middle lo hi + 1) session with
    | .ok (some value) session => v |>.greatestFrom? value hi session
    | .ok none session => v |>.greatestFrom? lo (middle lo hi) session
    | .error e session => some (.error e session)
  else some (.ok hi session)
partial_fixpoint

/-- The greatest value, known to lie between `lo` and `hi`. -/
def greatestFrom (v : Value) (lo hi : UInt64) : Run UInt64 := fun session =>
  (v.greatestFrom? lo hi session).getD (.error (.fault .endlessSearch) session)

/-- The greatest unsigned value of the expression. -/
def max (v : Value) : Run UInt64 := do
  let known ← v.any
  if v.isSymbolic then v.greatestFrom known (mask v.width) else return known

/-- Up to `count` values, found one by one by ruling out those already seen. -/
def othersThan (v : Value) : (count : Nat) → (ruledOut : List Expr) → Run (List UInt64)
  | 0, _ => return []
  | count + 1, ruledOut => do
    match ← v.solve ruledOut with
    | none => return []
    | some value =>
      let other ← v.compared .ne value
      return value :: (← othersThan v count (ruledOut ++ [other]))

/-- Up to `limit` distinct values of the expression. -/
def anyN (v : Value) (limit : Int) : Run (List UInt64) := do
  match v.expr with
  | .const _ w => return [w.value]
  | _ =>
    if limit ≤ 0 then return []
    match v.solver.bind Solver.enumerate with
    | some enumerate =>
      Session.ask "enumerate" fun calls => enumerate calls v.constraints v.expr limit
    | none => v.othersThan limit.toNat []

end Value

end SymbolicMemory
