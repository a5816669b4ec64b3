import Std.Data.TreeSet
import SymbolicMemory.Expr.Eval
import SymbolicMemory.Expr.Vars
import SymbolicMemory.Solver.Basic

/-! # Exhaustive search

A solver that tries values. Each variable has a domain, which is its bound or, for
narrow variables, everything that fits its width. Variables are given values one
after the other, and a branch is left as soon as a constraint is known to fail.
The number of values tried in one call is limited.
-/

namespace SymbolicMemory

/-- An inclusive range of values. -/
structure Range where
  lo : UInt64
  hi : UInt64
  ordered : lo ≤ hi

namespace Range

/-- The range between two values, given in either order. -/
def between (a b : UInt64) : Range :=
  if h : b < a then ⟨b, a, UInt64.le_of_lt h⟩ else ⟨a, b, UInt64.not_lt.mp h⟩

/-- Everything that fits a width. -/
def full (width : UInt64) : Range :=
  ⟨0, mask width, by simp⟩

/-- The number of steps from the low end to the high end. -/
def span (r : Range) : UInt64 := r.hi - r.lo

end Range

/-- The settings of an exhaustive search. -/
structure Exhaustive where
  /-- Ranges set for variables, by name. -/
  bounds : String → Option Range := fun _ => none
  /-- How many values may be tried in one call; the default if not positive. -/
  maxAssignments : Int := Int.pow 2 22

namespace Exhaustive

/-- How many values are tried in one call unless set otherwise. -/
def defaultBudget : Nat := Nat.pow 2 22

/-- The widest variable that is searched without a bound. -/
def maxFreeWidth : UInt64 := 16

/-- Sets the range of a variable, in place of an earlier one. -/
def bound (s : Exhaustive) (name : String) (lo hi : UInt64) : Exhaustive :=
  { s with bounds := fun n => if n = name then some (.between lo hi) else s.bounds n }

/-- How many values may be tried in one call. -/
def budget (s : Exhaustive) : Nat :=
  if s.maxAssignments ≤ 0 then defaultBudget else s.maxAssignments.toNat

/-- The values tried for a variable. -/
def domain (s : Exhaustive) (v : Var) : Range :=
  (s.bounds v.name).getD (.full v.width)

/-- Whether a variable has a range of its own. -/
def isBounded (s : Exhaustive) (v : Var) : Bool := (s.bounds v.name).isSome

/-- Whether a variable may be searched at all. -/
def isSearchable (s : Exhaustive) (v : Var) : Bool := s.isBounded v || v.width ≤ maxFreeWidth

/-- Bounded variables come first, then those with fewer values. -/
def comesFirst (s : Exhaustive) (u v : Var) : Bool :=
  if s.isBounded u = s.isBounded v then (s.domain u).span ≤ (s.domain v).span else s.isBounded u

/-- Variables in the order in which they are tried. -/
def inOrder (s : Exhaustive) (vars : List Var) : List Var := vars.mergeSort s.comesFirst

/-- A search keeps count of the values that it may still try. -/
abbrev Search (α : Type) := EStateM Failure Nat α

/-- Runs a search with its full budget. -/
def Search.run {α : Type} (s : Exhaustive) (x : Search α) : Except Failure α :=
  match EStateM.run x s.budget with
  | .ok a _ => .ok a
  | .error e _ => .error e

/-- Takes one value off the budget. -/
def spend (s : Exhaustive) : Search Unit := fun left =>
  match left with
  | 0 =>
    .error (.error (.within ("exceeded " ++ s.budget.repr ++ " assignments") .solverResourceLimit)) 0
  | left + 1 => .ok () left

/-- Whether a sweep over values goes on, with what it has gathered. -/
inductive Sweep (β : Type) where
  | done (gathered : β)
  | more (gathered : β)

/-- Tries `x` and the next `count` values in turn until one of them ends the sweep. -/
def sweep {β : Type} (s : Exhaustive) (visit : UInt64 → β → Search (Sweep β)) :
    (count : Nat) → (x : UInt64) → β → Search (Sweep β)
  | 0, x, gathered => do
    s.spend
    visit x gathered
  | count + 1, x, gathered => do
    s.spend
    match ← visit x gathered with
    | .done gathered => return .done gathered
    | .more gathered => sweep s visit count (x + 1) gathered

/-- Tries the values of a variable, which must be searchable, in ascending order. -/
def sweepVar {β : Type} (s : Exhaustive) (v : Var) (visit : UInt64 → β → Search (Sweep β))
    (gathered : β) : Search (Sweep β) :=
  if s.isSearchable v then s.sweep visit (s.domain v).span.toNat (s.domain v).lo gathered
  else throw (.error (.within ("unbounded variable: " ++ v.name) .solverResourceLimit))

/-- The constraints that are still undecided, or none if one is known to fail. -/
def undecided (a : Assignment) : List Expr → Except Fault (Option (List Expr))
  | [] => .ok (some [])
  | c :: rest =>
    match c.evalPartial a with
    | .error fault => .error fault
    | .ok none => (undecided a rest).map (Option.map (c :: ·))
    | .ok (some w) => if w.isFalse then .ok none else undecided a rest

/-- Whether a variable occurs in some constraint. -/
def uses (constraints : List Expr) (v : Var) : Bool :=
  constraints.any fun c => c.occurrences.any fun u => u.name == v.name

/-- Extends an assignment until every pending constraint is decided, by values for the open
    variables of `vars` in turn. Variables that no pending constraint uses stay open. -/
def branch (s : Exhaustive) : (vars : List Var) → (pending : List Expr) → Assignment →
    Search (Option Assignment)
  | [], _, _ => throw (.fault .noOpenVariable)
  | v :: rest, pending, a =>
    if (a v.name).isNone && uses pending v then do
      let outcome ← s.sweepVar v (fun x _ =>
        let a := a.set v.name x
        match undecided a pending with
        | .error fault => throw (.fault fault)
        | .ok none => return .more none
        | .ok (some []) => return .done (some a)
        | .ok (some pending) => do
          match ← branch s rest pending a with
          | none => return .more none
          | some a => return .done (some a)) none
      match outcome with
      | .done found => return found
      | .more _ => return none
    else branch s rest pending a

/-- Extends an assignment to one that decides every constraint and fails none. -/
def search (s : Exhaustive) (vars : List Var) (constraints : List Expr) (a : Assignment) :
    Search (Option Assignment) :=
  match undecided a constraints with
  | .error fault => throw (.fault fault)
  | .ok none => return none
  | .ok (some []) => return some a
  | .ok (some pending) => s.branch vars pending a

/-- A value for each listed variable under which the constraints hold, or none if there is no
    solution. Variables that do not matter take the low end of their domain. -/
def solve (s : Exhaustive) (constraints : List Expr) (vars : List Var) :
    Except Failure (Option (List UInt64)) := do
  let all ← Failure.ofFault (Vars.find constraints)
  let found ← (s.search (s.inOrder all) constraints .empty).run s
  return found.map fun a => vars.map fun v => (a v.name).getD (s.domain v).lo

/-- Gathers the values that `e` takes over those assignments of `projected`, its variables,
    that leave the constraints satisfiable. -/
def project (s : Exhaustive) (vars : List Var) (constraints : List Expr) (e : Expr) (limit : Nat) :
    (projected : List Var) → (pending : List Expr) → Assignment → Std.TreeSet UInt64 →
    Search (Sweep (Std.TreeSet UInt64))
  | projected, pending, a, found =>
    match undecided a pending with
    | .error fault => throw (.fault fault)
    | .ok none => return .more found
    | .ok (some pending) =>
      match projected with
      | v :: rest =>
        s.sweepVar v (fun x found => project s vars constraints e limit rest pending (a.set v.name x) found)
          found
      | [] =>
        match e.evalPartial a with
        | .error fault => throw (.fault fault)
        | .ok none => throw (.fault (.openProjection e.text))
        | .ok (some w) =>
          if found.contains w.value then return .more found
          else do
            match ← s.search vars constraints a with
            | none => return .more found
            | some _ =>
              let found := found.insert w.value
              return if found.size < limit then .more found else .done found

/-- Up to `limit` values of an expression under the constraints, in ascending order. -/
def enumerate (s : Exhaustive) (constraints : List Expr) (e : Expr) (limit : Int) :
    Except Failure (List UInt64) :=
  if limit ≤ 0 then .ok []
  else do
    let all ← Failure.ofFault (Vars.find (e :: constraints))
    let projected ← Failure.ofFault (Vars.find [e])
    let outcome ← (s.project (s.inOrder all) constraints e limit.toNat (s.inOrder projected)
      constraints .empty ∅).run s
    match outcome with
    | .done found => return found.toList
    | .more found => return found.toList

/-- The search as a solver. -/
def solver (s : Exhaustive) : Solver where
  solve _ constraints vars := s.solve constraints vars
  enumerate := some fun _ constraints e limit => s.enumerate constraints e limit

end Exhaustive

end SymbolicMemory
