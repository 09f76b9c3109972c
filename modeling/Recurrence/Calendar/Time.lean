/-! The time of day, to the nanosecond. A leap second has no number of its own: it is kept as the
second before it with a mark, so every minute has sixty seconds. -/

namespace Recurrence

structure Time where
  hour : Nat
  minute : Nat
  second : Nat
  nanosecond : Nat
  /-- The instant lies in the leap second that follows `second`. -/
  leap : Bool
  hour_lt : hour < 24
  minute_lt : minute < 60
  second_lt : second < 60
  nanosecond_lt : nanosecond < 1000000000
  deriving DecidableEq

namespace Time

def of? (hour minute second nanosecond : Nat) (leap : Bool) : Option Time :=
  if h : hour < 24 ∧ minute < 60 ∧ second < 60 ∧ nanosecond < 1000000000 then
    some ⟨hour, minute, second, nanosecond, leap, h.1, h.2.1, h.2.2.1, h.2.2.2⟩
  else none

def secondOfDay (t : Time) : Nat := t.hour * 3600 + t.minute * 60 + t.second

/-- The same part of another second, counted from midnight and taken modulo the day. -/
def withSecondOfDay (t : Time) (n : Nat) : Time where
  hour := n / 3600 % 24
  minute := n / 60 % 60
  second := n % 60
  nanosecond := t.nanosecond
  leap := t.leap
  hour_lt := Nat.mod_lt _ (by decide)
  minute_lt := Nat.mod_lt _ (by decide)
  second_lt := Nat.mod_lt _ (by decide)
  nanosecond_lt := t.nanosecond_lt

theorem secondOfDay_withSecondOfDay (t : Time) (n : Nat) :
    (t.withSecondOfDay n).secondOfDay = n % 86400 := by
  simp only [secondOfDay, withSecondOfDay]
  omega

end Time

end Recurrence
