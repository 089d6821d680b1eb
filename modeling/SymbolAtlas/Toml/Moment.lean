/-
TOML dates and times.
-/

namespace SymbolAtlas
namespace Toml
namespace Moment

/-- A number of exactly `n` decimal digits. -/
def fixed? (n : Nat) (s : List Char) : Option (Nat × List Char) :=
  let ds := s.take n
  if ds.length = n ∧ ds.all Char.isDigit then
    some (ds.foldl (fun k d => 10 * k + (d.toNat - '0'.toNat)) 0, s.drop n)
  else none

/-- Such a number between two bounds. -/
def between? (n lo hi : Nat) (s : List Char) : Option (Nat × List Char) :=
  (fixed? n s).filter fun r => decide (lo ≤ r.1) && decide (r.1 ≤ hi)

def mark? (c : Char) : List Char → Option (List Char)
  | d :: rest => if c = d then some rest else none
  | [] => none

def isLeapYear (year : Nat) : Bool :=
  year % 4 == 0 && (year % 100 != 0 || year % 400 == 0)

def daysIn (year month : Nat) : Nat :=
  if month = 2 then (if isLeapYear year then 29 else 28)
  else if month = 4 ∨ month = 6 ∨ month = 9 ∨ month = 11 then 30
  else 31

/-- The text behind a date. -/
def date? (s : List Char) : Option (List Char) := do
  let (year, s) ← fixed? 4 s
  let s ← mark? '-' s
  let (month, s) ← between? 2 1 12 s
  let s ← mark? '-' s
  let (_, s) ← between? 2 1 (daysIn year month) s
  return s

/-- The text behind a fraction of a second; a point needs digits behind it. -/
def fraction (s : List Char) : List Char :=
  match s with
  | '.' :: d :: rest => if d.isDigit then rest.dropWhile Char.isDigit else s
  | _ => s

/-- The text behind a time of day.  A minute may have a leap second. -/
def time? (s : List Char) : Option (List Char) := do
  let (_, s) ← between? 2 0 23 s
  let s ← mark? ':' s
  let (_, s) ← between? 2 0 59 s
  let s ← mark? ':' s
  let (_, s) ← between? 2 0 60 s
  return fraction s

/-- The text behind an offset from universal time. -/
def offset? : List Char → Option (List Char)
  | 'Z' :: rest => some rest
  | 'z' :: rest => some rest
  | c :: rest =>
    if c = '+' ∨ c = '-' then do
      let (_, s) ← between? 2 0 23 rest
      let s ← mark? ':' s
      let (_, s) ← between? 2 0 59 s
      return s
    else none
  | [] => none

def isTimeMark (c : Char) : Bool := c == 'T' || c == 't' || c == ' '

/-- The text behind a time that follows a date, with its offset if it has one. -/
def timeOfDate? : List Char → Option (List Char)
  | c :: rest =>
    if isTimeMark c then (time? rest).map fun s => (offset? s).getD s else none
  | [] => none

/-- The text behind a date, a time or both. -/
def read? (s : List Char) : Option (List Char) :=
  match date? s with
  | some rest => some ((timeOfDate? rest).getD rest)
  | none => time? s

end Moment
end Toml
end SymbolAtlas
