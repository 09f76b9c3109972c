import Recurrence.Calendar.Date
import Recurrence.Calendar.Time

/-! A date with a time of day. It is a wall-clock reading, and an instant where the clock shows UTC;
`shift` moves it by whole seconds and keeps the part of the second and the leap second's mark. -/

namespace Recurrence

structure DateTime where
  date : Date
  time : Time
  deriving DecidableEq

namespace DateTime

/-- Seconds since the first moment of the year zero. -/
def seconds (t : DateTime) : Int := t.date.dayNumber * 86400 + t.time.secondOfDay

def shift (t : DateTime) (n : Int) : DateTime where
  date := .ofDayNumber ((t.seconds + n) / 86400)
  time := t.time.withSecondOfDay ((t.seconds + n) % 86400).toNat

theorem seconds_shift (t : DateTime) (n : Int) : (t.shift n).seconds = t.seconds + n := by
  simp only [seconds, shift, Date.dayNumber_ofDayNumber, Time.secondOfDay_withSecondOfDay]
  omega

def epoch : DateTime where
  date := ⟨1970, 1, 1, by decide⟩
  time := ⟨0, 0, 0, 0, false, by decide, by decide, by decide, by decide⟩

end DateTime

end Recurrence
