import Recurrence.Calendar.DateTime

/-! Time zones: how far the clocks of a place are ahead of UTC at each instant. A zone is known by
its offsets alone; here are three forms in which they can be given. Instants are given in seconds
since the first moment of the year zero. -/

namespace Recurrence

/-- How far the clocks of each zone that has a name are ahead of UTC at an instant. -/
abbrev ZoneTable := String → Option (DateTime → Int)

/-- From `instant` on the clocks are ahead by `offset`. -/
structure Change where
  instant : Int
  offset : Int

/-- An instant of every year: the first Sunday of a month on or after a day, and the seconds from
its beginning in UTC. -/
structure Turn where
  month : Nat
  day : Nat
  second : Int

def sundayFrom (n : Int) : Int := n + (1 - n) % 7

def Turn.instant (t : Turn) (year : Int) : Int :=
  sundayFrom (dayNumber year t.month t.day) * 86400 + t.second

inductive Zone
  | fixed (offset : Int)
  /-- The offset before the first of some changes, which come in order. -/
  | changing (initial : Int) (changes : List Change)
  /-- The offset outside and inside the summer time of each year, which lasts over the end of the
  year where it begins later in the year than it ends. -/
  | yearly (standard summer : Int) (begins ends : Turn)

namespace Zone

def change (year : Int) (month day hour minute second : Nat) (offset : Int) : Change :=
  ⟨dayNumber year month day * 86400 + (hour * 3600 + minute * 60 + second : Nat), offset⟩

def isSummer (begins ends : Int) (second : Int) : Bool :=
  if begins ≤ ends then begins ≤ second && second < ends
  else second < ends || begins ≤ second

def offsetAt (instant : DateTime) : Zone → Int
  | fixed offset => offset
  | changing initial changes =>
    changes.foldl (fun offset c => if c.instant ≤ instant.seconds then c.offset else offset)
      initial
  | yearly standard summer begins ends =>
    if isSummer (begins.instant instant.date.year) (ends.instant instant.date.year)
        instant.seconds then
      summer
    else standard

end Zone

end Recurrence
