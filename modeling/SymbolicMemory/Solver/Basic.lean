import SymbolicMemory.Error

/-! # Solvers

A solver decides whether constraints have a solution. How it does so is open: every
answer may also depend on how many calls came before, which covers solvers that
keep a state of their own, fail at times, or answer wrongly.
-/

namespace SymbolicMemory

/-- A decision procedure for lists of one-bit constraints. -/
structure Solver where
  /-- A value for each listed variable if the constraints have a solution, else none. The
      first argument counts the calls made before. -/
  solve : (calls : Nat) → (constraints : List Expr) → (vars : List Var) →
    Except Failure (Option (List UInt64))
  /-- Distinct values of an expression under the constraints, at most as many as the limit
      says. Not every solver offers this. -/
  enumerate : Option ((calls : Nat) → (constraints : List Expr) → Expr → (limit : Int) →
    Except Failure (List UInt64)) := none

namespace Solver

/-- The solver without its enumeration. -/
def withoutEnumerate (s : Solver) : Solver := { s with enumerate := none }

/-- A solver that passes its first `after` calls on and answers every later one with an error. -/
def failingAfter (s : Solver) (after : Nat) (error : Error) : Solver where
  solve calls constraints vars :=
    if calls < after then s.solve calls constraints vars else .error (.error error)
  enumerate := s.enumerate.map fun enumerate calls constraints expr limit =>
    if calls < after then enumerate calls constraints expr limit else .error (.error error)

end Solver

end SymbolicMemory
