import Recurrence.Timestamp.Basic

/-! The written form of a timestamp: the shortest of no fraction, three, six or nine digits that is
exact, and the offset in hours and minutes. -/

namespace Recurrence

def padded (width n : Nat) : String := String.ofList ((Nat.toDigits 10 n).leftpad width '0')

/-- Four digits; a year that they cannot hold has a sign and more digits if it needs them. -/
def yearText (year : Int) : String :=
  if 0 ≤ year ∧ year ≤ 9999 then padded 4 year.natAbs
  else (if year < 0 then "-" else "+") ++ padded 4 year.natAbs

def Date.text (d : Date) : String :=
  yearText d.year ++ "-" ++ padded 2 d.month ++ "-" ++ padded 2 d.day

def fractionText (nanosecond : Nat) : String :=
  if nanosecond = 0 then ""
  else if nanosecond % 1000000 = 0 then "." ++ padded 3 (nanosecond / 1000000)
  else if nanosecond % 1000 = 0 then "." ++ padded 6 (nanosecond / 1000)
  else "." ++ padded 9 nanosecond

/-- A leap second has the number after that of the second it follows. -/
def Time.text (t : Time) : String :=
  padded 2 t.hour ++ ":" ++ padded 2 t.minute ++ ":" ++
    padded 2 (if t.leap then t.second + 1 else t.second) ++ fractionText t.nanosecond

def DateTime.text (t : DateTime) : String := t.date.text ++ "T" ++ t.time.text

/-- To the nearest minute, and away from zero from the middle. -/
def offsetText (seconds : Int) : String :=
  let minutes := (seconds.natAbs + 30) / 60
  (if seconds < 0 then "-" else "+") ++ padded 2 (minutes / 60) ++ ":" ++ padded 2 (minutes % 60)

def Timestamp.text (t : Timestamp) : String := t.clock.text ++ offsetText t.offset

end Recurrence
