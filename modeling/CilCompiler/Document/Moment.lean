import CilCompiler.Document.Number

/-!
# Dates and times of a document

* `Moment` is a date, a time of day, or both with an offset from universal time.
* `moment` reads one.
-/

namespace CilCompiler.Document

/-- A day of the Gregorian calendar. -/
structure Date where
  year : Nat
  month : Nat
  day : Nat
  deriving DecidableEq

/-- A time of day. Digits of the second's fraction after the ninth are dropped. -/
structure Time where
  hour : Nat
  minute : Nat
  second : Nat
  nanosecond : Nat
  deriving DecidableEq

inductive Moment
  | date (date : Date)
  | time (time : Time)
  /-- A date with a time, and how many minutes the clock is ahead, if that is known. -/
  | dateTime (date : Date) (time : Time) (offset : Option Int)
  deriving DecidableEq

/-! ## The calendar -/

def isLeapYear (year : Nat) : Bool :=
  year % 4 = 0 && (year % 100 ≠ 0 || year % 400 = 0)

def daysInMonth (year month : Nat) : Nat :=
  if month = 2 then if isLeapYear year then 29 else 28
  else if month ∈ [4, 6, 9, 11] then 30
  else 31

/-! ## Reading -/

/-- A number of exactly `width` decimal digits, from `least` to `most`. -/
def field (width least most : Nat) : Reader Nat := fun cs =>
  let taken := cs.take width
  let n := digitsValue 10 taken
  if taken.length = width ∧ taken.all Char.isDigit ∧ least ≤ n ∧ n ≤ most then
    .ok (n, cs.drop width)
  else .error ()

def date : Reader Date := do
  let year ← field 4 0 9999
  expect '-'
  let month ← field 2 1 12
  expect '-'
  let day ← field 2 1 (daysInMonth year month)
  return { year, month, day }

/-- The nanoseconds that the places behind the point give. -/
def nanoseconds (places : List Char) : Nat :=
  digitsValue 10 ((places ++ List.replicate 9 '0').take 9)

/-- The places behind the point of a second, if they come next. -/
def secondFraction : Reader Nat := do
  if ← accept '.' then
    match ← takeWhile Char.isDigit with
    | [] => refuse
    | places => return nanoseconds places
  else return 0

/-- A time of day. The second sixty is one that was put in. -/
def time : Reader Time := do
  let hour ← field 2 0 23
  expect ':'
  let minute ← field 2 0 59
  expect ':'
  let second ← field 2 0 60
  return { hour, minute, second, nanosecond := ← secondFraction }

/-- An offset from universal time, in minutes, if one comes next. -/
def offset : Reader (Option Int) := do
  match ← peek with
  | some 'Z' | some 'z' => do
    let _ ← next
    return some 0
  | some '+' | some '-' => do
    let negative ← sign
    let hours ← field 2 0 23
    expect ':'
    return some (signed negative (60 * hours + (← field 2 0 59)))
  | _ => return none

/-- The time that belongs to a date, behind what divides the two. -/
def timeOfDate : Reader (Time × Option Int) := do
  let divider ← next
  if divider ∈ ['T', 't', ' '] then return (← time, ← offset) else refuse

def dateMoment : Reader Moment := do
  let day ← date
  match ← optional timeOfDate with
  | some (t, ahead) => return .dateTime day t ahead
  | none => return .date day

def moment : Reader Moment := orElse dateMoment (Moment.time <$> time)

end CilCompiler.Document
