/-! Dates and moments as plain YAML scalars write them: `2001-12-14`, `2001-12-14T21:59:43.1-05:00` and
`2001-12-14 21:59:43.1`. -/
namespace WhileStack.Yaml

/-- One or two digits at the front. -/
def shortNumber? : List Char → Option (Nat × List Char)
  | a :: b :: cs =>
    if ¬ a.isDigit then none
    else if b.isDigit then some (10 * (a.toNat - 48) + (b.toNat - 48), cs)
    else some (a.toNat - 48, b :: cs)
  | [a] => if a.isDigit then some (a.toNat - 48, []) else none
  | [] => none

/-- Takes `c` off the front. -/
def expect? (c : Char) : List Char → Option (List Char)
  | d :: cs => if d = c then some cs else none
  | [] => none

def daysIn (year month : Nat) : Nat :=
  if month = 2 then
    if year % 4 = 0 ∧ (year % 100 ≠ 0 ∨ year % 400 = 0) then 29 else 28
  else if month = 4 ∨ month = 6 ∨ month = 9 ∨ month = 11 then 30
  else 31

/-- What follows a date of the calendar with a year of four digits. -/
def afterDate? (cs : List Char) : Option (List Char) := do
  let digits := cs.takeWhile Char.isDigit
  guard (digits.length = 4)
  let year := digits.foldl (fun n c => 10 * n + (c.toNat - 48)) 0
  let (month, cs) ← shortNumber? (← expect? '-' (cs.drop 4))
  let (day, cs) ← shortNumber? (← expect? '-' cs)
  guard (1 ≤ month ∧ month ≤ 12 ∧ 1 ≤ day ∧ day ≤ daysIn year month)
  return cs

/-- What follows a time of day; the seconds may have a fraction behind a point or a comma. -/
def afterClock? (cs : List Char) : Option (List Char) := do
  let (hour, cs) ← shortNumber? cs
  let (minute, cs) ← shortNumber? (← expect? ':' cs)
  let (second, cs) ← shortNumber? (← expect? ':' cs)
  guard (hour < 24 ∧ minute < 60 ∧ second < 60)
  match cs with
  | c :: d :: ds => return if (c = '.' ∨ c = ',') ∧ d.isDigit then ds.dropWhile Char.isDigit else cs
  | _ => return cs

/-- A zone: `Z`, or a sign with hours and minutes of two digits each. -/
def isZone : List Char → Bool
  | ['Z'] => true
  | [sign, h, h', ':', m, m'] =>
    (sign = '+' || sign = '-') && [h, h', m, m'].all Char.isDigit &&
      decide (10 * (h.toNat - 48) + (h'.toNat - 48) ≤ 24) && decide (10 * (m.toNat - 48) + (m'.toNat - 48) ≤ 60)
  | _ => false

def isTimestamp (cs : List Char) : Bool :=
  match afterDate? cs with
  | none => false
  | some [] => true
  | some (c :: rest) =>
    if c = 'T' ∨ c = 't' then (afterClock? rest).elim false isZone
    else c = ' ' && afterClock? (rest.dropWhile (· = ' ')) = some []

end WhileStack.Yaml
