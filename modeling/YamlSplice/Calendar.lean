/-
  YamlSplice.Calendar — dates, and moments with an optional offset from universal time.

  Years run from 1 to 9999. Two moments without offset are the same if all their fields are; two
  with offsets if they name the same instant; one with and one without never are.
-/

import YamlSplice.Text.Basic

namespace YamlSplice

structure Date where
  year : Nat
  month : Nat
  day : Nat
  deriving DecidableEq, Repr

structure DateTime where
  date : Date
  hour : Nat
  minute : Nat
  second : Nat
  micro : Nat
  /-- Seconds east of universal time. -/
  offset : Option Int
  deriving DecidableEq, Repr

namespace Date

/-- Every fourth year is a leap year, but of the full centuries only every fourth. -/
def isLeap (year : Nat) : Bool := year % 4 == 0 && (year % 100 != 0 || year % 400 == 0)

/-- The number of days of a month; zero for no month. -/
def daysIn (year month : Nat) : Nat :=
  match month with
  | 1 | 3 | 5 | 7 | 8 | 10 | 12 => 31
  | 4 | 6 | 9 | 11 => 30
  | 2 => if isLeap year then 29 else 28
  | _ => 0

/-- The date of a year, a month and a day, if there is one. -/
def ofParts? (year month day : Nat) : Option Date :=
  if 1 ≤ year ∧ year ≤ 9999 ∧ 1 ≤ day ∧ day ≤ daysIn year month then some ⟨year, month, day⟩ else none

/-- Days since the day before 1 January of year 1. -/
def ordinal (d : Date) : Nat :=
  let before := d.year - 1
  let months := (List.range (d.month - 1)).foldl (fun n m => n + daysIn d.year (m + 1)) 0
  before * 365 + before / 4 - before / 100 + before / 400 + months + d.day

/-- Year, month and day with hyphens. -/
def isoText (d : Date) : Text :=
  Text.padded 4 d.year ++ '-' :: Text.padded 2 d.month ++ '-' :: Text.padded 2 d.day

end Date

namespace DateTime

/-- The moment with these fields, if they are in range; an offset is less than a day. -/
def ofParts? (date : Date) (hour minute second micro : Nat) (offset : Option Int) : Option DateTime :=
  if hour < 24 ∧ minute < 60 ∧ second < 60 ∧ micro < 1000000 ∧ (offset.all (·.natAbs < 86400)) = true
  then some ⟨date, hour, minute, second, micro, offset⟩
  else none

/-- Microseconds since the start of the calendar, in universal time. -/
def instant (t : DateTime) (offset : Int) : Int :=
  let seconds : Int := ((t.date.ordinal * 24 + t.hour) * 60 + t.minute) * 60 + t.second
  (seconds - offset) * 1000000 + t.micro

/-- The two name the same moment. -/
def same (s t : DateTime) : Bool :=
  match s.offset, t.offset with
  | none, none => s == t
  | some a, some b => s.instant a == t.instant b
  | _, _ => false

/-- Sign, hours and minutes of an offset, and its seconds if there are any. -/
def offsetText (offset : Int) : Text :=
  let n := offset.natAbs
  (if offset < 0 then '-' else '+') :: Text.padded 2 (n / 3600) ++ ':' :: Text.padded 2 (n / 60 % 60)
    ++ (if n % 60 = 0 then [] else ':' :: Text.padded 2 (n % 60))

/-- Date and time with `between` between them; microseconds and offset only if there are any. -/
def isoText (between : Char) (t : DateTime) : Text :=
  t.date.isoText ++ between :: Text.padded 2 t.hour ++ ':' :: Text.padded 2 t.minute
    ++ ':' :: Text.padded 2 t.second
    ++ (if t.micro = 0 then [] else '.' :: Text.padded 6 t.micro)
    ++ (t.offset.map offsetText).getD []

end DateTime
end YamlSplice
