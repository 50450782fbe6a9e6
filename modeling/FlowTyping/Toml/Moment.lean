import FlowTyping.Toml.Number

/-!
# Dates and times of day

A date `1979-05-27`, a time of day `07:32:00.5`, or a date followed by a time, which may name its
distance from universal time. A date has to exist in the calendar, and a minute may have one second
too many.
-/

namespace FlowTyping.Toml

open Text

/-- A number of exactly so many decimal digits within bounds, and the rest. -/
def fixedDigits? (count low high : Nat) (cs : List Char) : Option (Nat × List Char) :=
  if (cs.take count).length < count then none
  else (numeral? 10 (cs.take count)).bind fun n =>
    if low ≤ n ∧ n ≤ high then some (n, cs.drop count) else none

def isLeapYear (year : Nat) : Bool := year % 4 = 0 && (year % 100 ≠ 0 || year % 400 = 0)

def daysInMonth (year month : Nat) : Nat :=
  if month = 2 then (if isLeapYear year then 29 else 28)
  else if month ∈ [4, 6, 9, 11] then 30
  else 31

def afterDate? (cs : List Char) : Option (List Char) := do
  let (year, cs) ← fixedDigits? 4 0 9999 cs
  let (month, cs) ← fixedDigits? 2 1 12 (← afterWord? ['-'] cs)
  let (_, cs) ← fixedDigits? 2 1 (daysInMonth year month) (← afterWord? ['-'] cs)
  return cs

def afterMinute? (cs : List Char) : Option (List Char) := do
  let (_, cs) ← fixedDigits? 2 0 23 cs
  let (_, cs) ← fixedDigits? 2 0 59 (← afterWord? [':'] cs)
  return cs

/-- What follows a time of day, which may have a fraction of a second. -/
def afterTime? (cs : List Char) : Option (List Char) := do
  let cs ← afterMinute? cs
  let (_, cs) ← fixedDigits? 2 0 60 (← afterWord? [':'] cs)
  match cs with
  | '.' :: rest =>
    if (rest.takeWhile (·.isDigit)).isEmpty then none else some (rest.dropWhile (·.isDigit))
  | cs => some cs

/-- What follows a distance from universal time, if there is one. -/
def afterOffset? : List Char → Option (List Char)
  | [] => some []
  | c :: rest =>
    if c = 'Z' ∨ c = 'z' then some rest
    else if c = '+' ∨ c = '-' then afterMinute? rest
    else some (c :: rest)

/-- What follows a date, and a time after it if there is one. -/
def afterDateTime? (cs : List Char) : Option (List Char) := do
  let rest ← afterDate? cs
  match rest with
  | [] => some []
  | c :: time =>
    if c = 'T' ∨ c = 't' ∨ c = ' ' then
      some (((afterTime? time).bind afterOffset?).getD rest)
    else some rest

/-- The date or time at the start of a text, and the rest. -/
def moment? (cs : List Char) : Option (Toml × List Char) :=
  (afterDateTime? cs <|> afterTime? cs).map fun rest => (.moment (spelling cs rest), rest)

end FlowTyping.Toml
