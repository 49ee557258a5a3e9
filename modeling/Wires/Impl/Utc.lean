import Wires.Framework.Checked
import Mathlib.Data.Nat.Digits.Defs

/-!
# Times as text

`utc` of `wires/caller/inbox.rs`, and the `civil` it calls. A `none` is an
overflow.
-/

namespace Wires

open I64

/-- A year, a month and a day. -/
structure Civil where
  year : Int
  month : Int
  day : Int
deriving DecidableEq

/-- `civil`'s year of an era. -/
def yearOfEra (doe : Int) : Option Int := do
  div (← sub (← add (← sub doe (← div doe 1460)) (← div doe 36524)) (← div doe 146096)) 365

/-- `civil`'s day of a year. -/
def dayOfYear (doe yoe : Int) : Option Int := do
  sub doe (← sub (← add (← mul 365 yoe) (← div yoe 4)) (← div yoe 100))

/-- `civil`'s date, from the year and its day. -/
def monthAndDay (y doy : Int) : Option Civil := do
  let mp ← div (← add (← mul 5 doy) 2) 153
  let d ← add (← sub doy (← div (← add (← mul 153 mp) 2) 5)) 1
  let m ← if mp < 10 then add mp 3 else sub mp 9
  let year ← if m ≤ 2 then add y 1 else some y
  return ⟨year, m, d⟩

/-- `inbox::civil`: the date so many days after 1970-01-01. -/
def civil (days : Int) : Option Civil := do
  let z ← add days 719468
  let era ← divEuclid z 146097
  let doe ← remEuclid z 146097
  let yoe ← yearOfEra doe
  let y ← add yoe (← mul era 400)
  let doy ← dayOfYear doe yoe
  monthAndDay y doy

/-- An integer, with zeros up to a width. -/
def zeroPad (width : Nat) (i : Int) : List Char :=
  let sign := if i < 0 then ['-'] else []
  let digits := Nat.toDigits 10 i.natAbs
  sign ++ List.replicate (width - (sign.length + digits.length)) '0' ++ digits

/-- The format of `utc`. -/
def utcText (date : Civil) (hour minute second : Int) : String :=
  String.ofList (zeroPad 4 date.year ++ '-' :: zeroPad 2 date.month ++ '-' :: zeroPad 2 date.day ++
    ' ' :: zeroPad 2 hour ++ ':' :: zeroPad 2 minute ++ ':' :: zeroPad 2 second ++ ['Z'])

/-- `inbox::utc`: unix milliseconds as text. -/
def utc (ms : Int64) : Option String := do
  let secs ← divEuclid ms.toInt 1000
  let days ← divEuclid secs 86400
  let left ← remEuclid secs 86400
  let date ← civil days
  return utcText date (← div left 3600) (← div (← rem left 3600) 60) (← rem left 60)

example : utc 951782400000 = some "2000-02-29 00:00:00Z" := by decide +kernel

example : utc (-1000) = some "1969-12-31 23:59:59Z" := by decide +kernel

end Wires
