import Recurrence.Calendar.DateTime

/-! The scales of time that a period can constrain: their names, the values each of them takes, and
the field of a date and time that those values are compared with. -/

namespace Recurrence

inductive Scale
  | year
  | month
  | week
  | yearDay
  | monthDay
  | weekday
  | hour
  | minute
  | second
  deriving DecidableEq

namespace Scale

def all : List Scale :=
  [year, month, week, yearDay, monthDay, weekday, hour, minute, second]

def name : Scale → String
  | year => "year"
  | month => "month"
  | week => "week"
  | yearDay => "yday"
  | monthDay => "mday"
  | weekday => "wday"
  | hour => "hour"
  | minute => "minute"
  | second => "second"

/-- The short name, read in place of `name`. -/
def code : Scale → String
  | year => "yr"
  | month => "mo"
  | week => "wk"
  | yearDay => "yd"
  | monthDay => "md"
  | weekday => "wd"
  | hour => "hr"
  | minute => "min"
  | second => "sec"

def label : Scale → String
  | yearDay => "year day"
  | monthDay => "day"
  | weekday => "weekday"
  | s => s.name

def named? (word : List Char) : Option Scale :=
  all.find? fun s => word == s.name.toList || word == s.code.toList

theorem named?_name (s : Scale) : named? s.name.toList = some s := by
  cases s <;> decide

/-- The least and the greatest value; a year may be any number. -/
def bounds : Scale → Option (Nat × Nat)
  | year => none
  | month => some (1, 12)
  | week => some (1, 5)
  | yearDay => some (1, 366)
  | monthDay => some (1, 31)
  | weekday => some (1, 7)
  | hour => some (0, 23)
  | minute | second => some (0, 59)

/-- Week 1 of a month is its first seven days, whatever their weekdays. -/
def field (t : DateTime) : Scale → Int
  | year => t.date.year
  | month => t.date.month
  | week => ((t.date.day - 1) / 7 + 1 : Nat)
  | yearDay => t.date.yearDay
  | monthDay => t.date.day
  | weekday => t.date.weekday
  | hour => t.time.hour
  | minute => t.time.minute
  | second => t.time.second

/-- The field that a written value stands for: a year below 100 is one of the century of the date,
and a century begins with a year that 100 divides. -/
def denote (t : DateTime) (value : Nat) : Scale → Int
  | year => if value < 100 then t.date.year / 100 * 100 + value else value
  | _ => value

theorem denote_of_ne_year {s : Scale} (hs : s ≠ .year) (t : DateTime) (value : Nat) :
    s.denote t value = value := by
  cases s with
  | year => exact absurd rfl hs
  | _ => rfl

theorem denote_year_of_lt {value : Nat} (h : value < 100) (t : DateTime) :
    year.denote t value = t.date.year / 100 * 100 + value := if_pos h

theorem denote_year_of_le {value : Nat} (h : 100 ≤ value) (t : DateTime) :
    year.denote t value = value := if_neg (Nat.not_lt.mpr h)

end Scale

end Recurrence
