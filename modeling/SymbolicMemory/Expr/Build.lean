import SymbolicMemory.Expr.Order
import SymbolicMemory.Expr.Slice

/-! # Building expressions

Expressions are built through functions that check widths and simplify on the way:
constants are folded and moved to one side, neutral operands vanish, and sums with
constants are flattened. Each either returns an operand as it is, or makes new
nodes, which carry no tag yet.
-/

namespace SymbolicMemory

namespace Expr

/-- A constant, masked to its width. -/
def constant (value width : UInt64) : Except Fault Expr :=
  (Word.make value width).map (const none)

/-- A one-bit constant. -/
def ofBool (b : Bool) : Expr := const none (Word.ofBool b)

/-- A one-byte constant. -/
def ofByte (b : UInt8) : Expr := const none ⟨b.toUInt64, 8⟩

/-- A variable of 1 to 64 bits. -/
def named (name : String) (width : UInt64) : Except Fault Expr :=
  if 0 < width ∧ width ≤ 64 then .ok (var none ⟨name, width⟩) else .error (.variableWidth width)

/-- Two operands with a constant, if there is exactly one, put first. -/
def constFirst (lhs rhs : Expr) : Expr × Expr :=
  if !lhs.isConst && rhs.isConst then (rhs, lhs) else (lhs, rhs)

/-- Two operands with a constant, if there is exactly one, put last. -/
def constLast (lhs rhs : Expr) : Expr × Expr :=
  if lhs.isConst && !rhs.isConst then (rhs, lhs) else (lhs, rhs)

/-- Both operands of an operator must have one width. -/
def checkWidths (op : Op) (lhs rhs : UInt64) : Except Fault Unit :=
  if lhs = rhs then .ok () else .error (.operandWidths op lhs rhs)

/-- The outcome of folding two constants, as the operand itself or a new node. -/
def folded (lhs rhs : Expr) : Word.Folded → Expr
  | .lhs => lhs
  | .rhs => rhs
  | .word w => const none w

/-- `c + e` for a constant `c`: nothing for zero, and `c + (y + z)` becomes `(c + y) + z`. -/
def addConst (tag : Tag) (c : Word) (e : Expr) : Except Fault Expr :=
  if c.value = 0 then .ok e
  else match e with
    | const _ b => (c.add b).map (const none)
    | binary _ .add (const _ y) z => do
      let sum ← c.add y
      checkWidths .add sum.width z.width
      addConst none sum z
    | e => .ok (binary none .add (const tag c) e)

/-- `lhs ^ rhs` for operands that are not both constant. -/
def xorOf (lhs rhs : Expr) : Expr :=
  match constFirst lhs rhs with
  | (const tag c, rhs) => if c.value = 0 then rhs else binary none .xor (const tag c) rhs
  | (lhs, rhs) => binary none .xor lhs rhs

/-- `lhs & rhs` for operands that are not both constant. -/
def andOf (lhs rhs : Expr) : Expr :=
  match constLast lhs rhs with
  | (lhs, const tag c) =>
    if c.isAllOnes then lhs
    else if c.value = 0 then const tag c
    else binary none .and lhs (const tag c)
  | (lhs, rhs) => binary none .and lhs rhs

/-- `lhs | rhs` for operands that are not both constant. -/
def orOf (lhs rhs : Expr) : Expr :=
  match constLast lhs rhs with
  | (lhs, const tag c) =>
    if c.isAllOnes then const tag c
    else if c.value = 0 then lhs
    else binary none .or lhs (const tag c)
  | (lhs, rhs) => binary none .or lhs rhs

/-- `lhs + rhs` for operands that are not both constant; exclusive or on one bit. -/
def addOf (lhs rhs : Expr) : Except Fault Expr :=
  match constFirst lhs rhs with
  | (lhs, rhs) =>
    if lhs.width = 1 then .ok (xorOf lhs rhs)
    else match lhs with
      | const tag c => addConst tag c rhs
      | lhs => .ok (binary none .add lhs rhs)

/-- `lhs - rhs` for operands that are not both constant. Taking a constant away is adding
    its complement to zero. -/
def subOf (lhs rhs : Expr) : Except Fault Expr :=
  if lhs.alike rhs then constant 0 lhs.width
  else if lhs.width = 1 then .ok (xorOf lhs rhs)
  else match rhs with
    | const _ c => do
      let zero ← Word.make 0 c.width
      addConst none (← zero.sub c) lhs
    | rhs => .ok (binary none .sub lhs rhs)

/-- `lhs * rhs` for operands that are not both constant; conjunction on one bit. -/
def mulOf (lhs rhs : Expr) : Expr :=
  match constFirst lhs rhs with
  | (lhs, rhs) =>
    if lhs.width = 1 then andOf lhs rhs
    else match lhs with
      | const tag c =>
        if c.value = 1 then rhs
        else if c.value = 0 then const tag c
        else binary none .mul (const tag c) rhs
      | lhs => binary none .mul lhs rhs

/-- A shift of operands that are not both constant. -/
def shiftOf (op : Op) (lhs rhs : Expr) : Expr :=
  match rhs with
  | const tag c => if c.value = 0 then lhs else binary none op lhs (const tag c)
  | rhs => binary none op lhs rhs

/-- `c = e` for a constant `c`. A true equality is left alone, a false negation cancels,
    `c = y + z` becomes `c - y = z`, and a zero extension is compared below itself. -/
def eqConst (tag : Tag) (c : Word) : Expr → Except Fault Expr
  | const _ b => (c.eq b).map (const none)
  | e@(binary _ .eq lhs rhs) =>
    if c.isTrue then .ok e
    else if c.isFalse && lhs.isFalse then .ok rhs
    else .ok (binary none .eq (const tag c) e)
  | binary _ .add (const _ y) z => do
    let rest ← (Word.fold .sub c y).map (Word.Folded.resolve c y)
    checkWidths .eq rest.width z.width
    eqConst none rest z
  | zext _ source _ => do
    let cut ← c.resize source.width
    if c = (← cut.resize c.width) then eqConst none cut source
    else .ok (ofBool false)
  | e => .ok (binary none .eq (const tag c) e)

/-- `lhs = rhs` for operands that are not both constant. -/
def eqOf (lhs rhs : Expr) : Except Fault Expr :=
  match constFirst lhs rhs with
  | (const tag c, rhs) => eqConst tag c rhs
  | (lhs, rhs) => .ok (if lhs.alike rhs then ofBool true else binary none .eq lhs rhs)

/-- `lhs < rhs` for operands that are not both constant. -/
def ultOf (lhs rhs : Expr) : Expr :=
  if lhs.alike rhs then ofBool false else binary none .ult lhs rhs

/-- `lhs ≤ rhs` for operands that are not both constant. -/
def uleOf (lhs rhs : Expr) : Expr :=
  if lhs.word?.any (·.value == 0) || rhs.word?.any Word.isAllOnes || lhs.alike rhs then ofBool true
  else binary none .ule lhs rhs

/-- An operator on two operands of one width. -/
def combine (op : Op) (lhs rhs : Expr) : Except Fault Expr :=
  match lhs, rhs with
  | const tag a, const tag' b => (Word.fold op a b).map (folded (const tag a) (const tag' b))
  | lhs, rhs =>
    match op with
    | .add => addOf lhs rhs
    | .sub => subOf lhs rhs
    | .mul => .ok (mulOf lhs rhs)
    | .udiv | .urem => .ok (binary none op lhs rhs)
    | .and => .ok (andOf lhs rhs)
    | .or => .ok (orOf lhs rhs)
    | .xor => .ok (xorOf lhs rhs)
    | .shl | .lshr => .ok (shiftOf op lhs rhs)
    | .eq => eqOf lhs rhs
    | .ne => do
      let equal ← eqOf lhs rhs
      checkWidths .eq 1 equal.width
      eqConst none (Word.ofBool false) equal
    | .ult => .ok (ultOf lhs rhs)
    | .ugt => .ok (ultOf rhs lhs)
    | .ule => .ok (uleOf lhs rhs)
    | .uge => .ok (uleOf rhs lhs)
    | .unassigned .. => .error .unassignedOp

/-- An operator on two operands, which must have one width. -/
def apply (op : Op) (lhs rhs : Expr) : Except Fault Expr := do
  checkWidths op lhs.width rhs.width
  combine op lhs rhs

/-- Every bit flipped; twice is none. -/
def complement : Expr → Except Fault Expr
  | const _ w => w.not.map (const none)
  | not _ source => .ok source
  | e => .ok (not none e)

/-- The value at another width: extended by zeros, or cut off. -/
def resize (e : Expr) (width : UInt64) : Except Fault Expr :=
  if width = e.width then .ok e
  else if width < e.width then e.slice 0 width
  else match e with
    | const _ w => (w.resize width).map (const none)
    | e => .ok (zext none e width)

/-- The conjunction of one-bit expressions, true for none. -/
def all (es : List Expr) : Except Fault Expr :=
  es.foldlM (apply .and) (ofBool true)

/-- The disjunction of one-bit expressions, false for none. -/
def any : List Expr → Except Fault Expr
  | [] => .ok (ofBool false)
  | e :: es => es.foldlM (apply .or) e

end Expr

end SymbolicMemory
