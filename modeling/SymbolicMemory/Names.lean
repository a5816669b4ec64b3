import SymbolicMemory.Text.Numeral

/-! # Fresh names

A supply hands out names for fresh variables. Memories that branch from one another
share a supply, so no two of them name two things alike.
-/

namespace SymbolicMemory

/-- The numbers next in turn, modulo 2^64. -/
structure Names where
  /-- For variables that stand for bytes. -/
  vars : UInt64 := 0
  /-- For variables that stand for a value loaded from one of several addresses. -/
  addrs : UInt64 := 0
  deriving DecidableEq, Repr

namespace Names

/-- A name for a byte variable, and the supply after it. -/
def nextVar (names : Names) (id : String) : String × Names :=
  (id ++ "_" ++ Text.decimal names.vars, { names with vars := names.vars + 1 })

/-- A name for a loaded value, and the supply after it. -/
def nextAddr (names : Names) (id : String) : String × Names :=
  (id ++ "_addr_" ++ Text.decimal names.addrs, { names with addrs := names.addrs + 1 })

end Names

/-- Which supply of a session a memory draws on. -/
inductive Supply where
  /-- The one that belongs to the session. -/
  | own
  /-- The one used where none is named. -/
  | standard
  deriving DecidableEq, Repr

end SymbolicMemory
