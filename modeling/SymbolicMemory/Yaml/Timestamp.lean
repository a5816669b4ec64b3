/-! # Points in time

A point in time is written as a date, or as a date and a time of day: with a zone
behind a letter `T`, or without one behind blanks. Only whether a text is one of
these matters here, not which point it is.
-/

namespace SymbolicMemory.Yaml.Timestamp

/-- Reads one digit, or two. -/
def shortNumber : List Char → Option (Nat × List Char)
  | a :: b :: rest =>
    if !a.isDigit then none
    else if b.isDigit then some (10 * digit a + digit b, rest)
    else some (digit a, b :: rest)
  | [a] => if a.isDigit then some (digit a, []) else none
  | [] => none
where
  digit (c : Char) : Nat := c.toNat - '0'.toNat

/-- Reads a certain character. -/
def expect (c : Char) : List Char → Option (List Char)
  | ch :: rest => if ch = c then some rest else none
  | [] => none

/-- The days of a month. -/
def daysIn (year month : Nat) : Nat :=
  if month = 2 then
    if year % 4 = 0 ∧ (year % 100 ≠ 0 ∨ year % 400 = 0) then 29 else 28
  else if month = 4 ∨ month = 6 ∨ month = 9 ∨ month = 11 then 30
  else 31

/-- Reads a date, whose year has four digits, and returns what follows. -/
def date (s : List Char) : Option (List Char) := do
  let digits := s.takeWhile Char.isDigit
  if digits.length ≠ 4 then none
  let year := digits.foldl (fun n c => 10 * n + (c.toNat - '0'.toNat)) 0
  let (month, s) ← shortNumber (← expect '-' (s.drop 4))
  let (day, s) ← shortNumber (← expect '-' s)
  if 1 ≤ month ∧ month ≤ 12 ∧ 1 ≤ day ∧ day ≤ daysIn year month then return s else none

/-- Passes over a fraction, if there is one. -/
def fraction : List Char → List Char
  | mark :: c :: rest =>
    if (mark = '.' ∨ mark = ',') ∧ c.isDigit then rest.dropWhile Char.isDigit else mark :: c :: rest
  | s => s

/-- Reads a time of day and returns what follows. -/
def clock (s : List Char) : Option (List Char) := do
  let (hour, s) ← shortNumber s
  let (minute, s) ← shortNumber (← expect ':' s)
  let (second, s) ← shortNumber (← expect ':' s)
  if hour < 24 ∧ minute < 60 ∧ second < 60 then return fraction s else none

/-- Whether a text is a zone: the letter for none, or an offset. -/
def isZone : List Char → Bool
  | ['Z'] => true
  | [sign, a, b, ':', c, d] =>
    (sign == '+' || sign == '-') && [a, b, c, d].all Char.isDigit &&
      (shortNumber [a, b]).any (·.1 ≤ 24) && (shortNumber [c, d]).any (·.1 ≤ 60)
  | _ => false

/-- Whether what follows a date makes a point in time of it. -/
def isRest : List Char → Bool
  | [] => true
  | c :: rest =>
    if c = 'T' ∨ c = 't' then (clock rest).any isZone
    else if c = ' ' then (clock (rest.dropWhile (· = ' '))).any List.isEmpty
    else false

/-- Whether a text is a point in time. -/
def isTimestamp (s : List Char) : Bool := (date s).any isRest

end SymbolicMemory.Yaml.Timestamp
