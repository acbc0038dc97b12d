import DocHarvest.Text.Basic

set_option autoImplicit false

namespace DocHarvest

structure Instant where
  milliseconds : Int
  deriving DecidableEq, Repr

namespace Instant

/-- Days from the start of 1970 to a day of the Gregorian calendar. Years are counted from March, so
that a leap day is the last day of its year; months past December run into later years. -/
def dayNumber (year month day : Int) : Int :=
  let months := year * 12 + (month - 1) - 2
  let y := months.fdiv 12
  let m := months.fmod 12
  365 * y + y.fdiv 4 - y.fdiv 100 + y.fdiv 400 + (153 * m + 2).fdiv 5 + day - 719469

/-- Years below one hundred count from 1900. -/
def ofDay (year month day : Int) : Instant :=
  ⟨dayNumber (if year < 100 then year + 1900 else year) month day * 86400000⟩

def plus (i : Instant) (hours minutes seconds milliseconds : Int) : Instant :=
  ⟨i.milliseconds + ((hours * 60 + minutes) * 60 + seconds) * 1000 + milliseconds⟩

def civil (n : Int) : Int × Int × Int :=
  let n := n + 719468
  let era := n.fdiv 146097
  let doe := n.fmod 146097
  let yoe := (doe - doe.fdiv 1460 + doe.fdiv 36524 - doe.fdiv 146096).fdiv 365
  let doy := doe - (365 * yoe + yoe.fdiv 4 - yoe.fdiv 100)
  let m := (5 * doy + 2).fdiv 153
  let day := doy - (153 * m + 2).fdiv 5 + 1
  let month := if m < 10 then m + 3 else m - 9
  (era * 400 + yoe + (if month ≤ 2 then 1 else 0), month, day)

def padded (width : Nat) (n : Int) : String :=
  let digits := toString n
  "".pushn '0' (width - digits.length) ++ digits

def weekdays : List String := ["Thu", "Fri", "Sat", "Sun", "Mon", "Tue", "Wed"]

def monthNames : List String :=
  ["Jan", "Feb", "Mar", "Apr", "May", "Jun", "Jul", "Aug", "Sep", "Oct", "Nov", "Dec"]

def text (i : Instant) : Text :=
  let seconds := i.milliseconds.fdiv 1000
  let day := seconds.fdiv 86400
  let time := seconds.fmod 86400
  let (year, month, dayOfMonth) := civil day
  let date := " ".intercalate [weekdays.getD (day.fmod 7).toNat "",
    monthNames.getD (month - 1).toNat "", padded 2 dayOfMonth, padded 4 year]
  let clock := ":".intercalate
    [padded 2 (time.fdiv 3600), padded 2 ((time.fdiv 60).fmod 60), padded 2 (time.fmod 60)]
  (date ++ " " ++ clock ++ " GMT+0000 (Coordinated Universal Time)").toList

end Instant

end DocHarvest
