import SymbolicMemory.Expr.Basic

/-! # The variables of expressions -/

namespace SymbolicMemory

/-- The variable nodes of an expression from left to right. -/
def Expr.occurrences : Expr → List Var
  | const .. => []
  | var _ v => [v]
  | concat _ msb lsb => msb.occurrences ++ lsb.occurrences
  | extract _ source _ _ => source.occurrences
  | not _ source => source.occurrences
  | zext _ source _ => source.occurrences
  | binary _ _ lhs rhs => lhs.occurrences ++ rhs.occurrences

namespace Vars

/-- Adds a variable to a list in ascending order of names, unless it is there already. One
    name at two widths is a fault. -/
def insert (v : Var) : List Var → Except Fault (List Var)
  | [] => .ok [v]
  | u :: rest =>
    match compare v.name u.name with
    | .lt => .ok (v :: u :: rest)
    | .eq =>
      if u.width = v.width then .ok (u :: rest)
      else .error (.variableWidths v.name u.width v.width)
    | .gt => (insert v rest).map (u :: ·)

/-- The variables of some expressions, each once, in ascending order of names. -/
def find (es : List Expr) : Except Fault (List Var) :=
  (es.flatMap Expr.occurrences).foldlM (fun found v => insert v found) []

end Vars

end SymbolicMemory
