/-! Dates of the Gregorian calendar, carried without end into the past and the future, with a year
zero. A date is its year, month and day, and also the number of days since the first day of the
year zero; `Date.ofDayNumber` goes back. -/

namespace Recurrence

def total : List Nat → Nat
  | [] => 0
  | size :: sizes => size + total sizes

def IsLeapYear (year : Int) : Prop := year % 4 = 0 ∧ (year % 100 ≠ 0 ∨ year % 400 = 0)

instance (year : Int) : Decidable (IsLeapYear year) :=
  inferInstanceAs (Decidable (_ ∧ _))

def monthLengths (year : Int) : List Nat :=
  [31, if IsLeapYear year then 29 else 28, 31, 30, 31, 30, 31, 31, 30, 31, 30, 31]

def yearLength (year : Int) : Nat := if IsLeapYear year then 366 else 365

theorem total_monthLengths (year : Int) : total (monthLengths year) = yearLength year := by
  unfold monthLengths yearLength
  split <;> rfl

/-- Zero for a month that does not exist. -/
def monthLength (year : Int) (month : Nat) : Nat := (0 :: monthLengths year).getD month 0

def daysBeforeMonth (year : Int) (month : Nat) : Nat := total ((0 :: monthLengths year).take month)

/-- Days from the first day of the year zero to the first day of the year. -/
def daysBeforeYear (year : Int) : Int :=
  365 * year + (year + 3) / 4 - (year + 99) / 100 + (year + 399) / 400

theorem daysBeforeYear_succ (year : Int) :
    daysBeforeYear (year + 1) = daysBeforeYear year + yearLength year := by
  unfold daysBeforeYear yearLength
  by_cases h : IsLeapYear year
  · rw [if_pos h]
    unfold IsLeapYear at h
    omega
  · rw [if_neg h]
    unfold IsLeapYear at h
    omega

def dayNumber (year : Int) (month day : Nat) : Int :=
  daysBeforeYear year + daysBeforeMonth year month + day - 1

def IsDate (year : Int) (month day : Nat) : Prop := 1 ≤ day ∧ day ≤ monthLength year month

instance (year : Int) (month day : Nat) : Decidable (IsDate year month day) :=
  inferInstanceAs (Decidable (_ ∧ _))

structure Date where
  year : Int
  month : Nat
  day : Nat
  valid : IsDate year month day
  deriving DecidableEq

namespace Date

def of? (year : Int) (month day : Nat) : Option Date :=
  if h : IsDate year month day then some ⟨year, month, day, h⟩ else none

/-- The day's number in its year, from 1. -/
def yearDay (d : Date) : Nat := daysBeforeMonth d.year d.month + d.day

def dayNumber (d : Date) : Int := Recurrence.dayNumber d.year d.month d.day

/-- Sunday is 1 and Saturday is 7; the year zero began on a Saturday. -/
def weekday (d : Date) : Nat := ((d.dayNumber + 6) % 7).toNat + 1

def weekdayName (d : Date) : String :=
  match d.weekday with
  | 1 => "Sunday"
  | 2 => "Monday"
  | 3 => "Tuesday"
  | 4 => "Wednesday"
  | 5 => "Thursday"
  | 6 => "Friday"
  | _ => "Saturday"

end Date

/-- The year of a day number: the average year is 146097 / 400 days long, and the estimate that
gives is at most one year off. -/
def yearOfDayNumber (n : Int) : Int :=
  let year := 400 * n / 146097
  if n < daysBeforeYear year then year - 1
  else if daysBeforeYear (year + 1) ≤ n then year + 1
  else year

theorem daysBeforeYear_yearOfDayNumber (n : Int) :
    daysBeforeYear (yearOfDayNumber n) ≤ n ∧ n < daysBeforeYear (yearOfDayNumber n + 1) := by
  unfold yearOfDayNumber
  simp only
  split
  · rw [Int.sub_add_cancel]
    refine ⟨?_, by assumption⟩
    unfold daysBeforeYear
    omega
  · split
    · refine ⟨by assumption, ?_⟩
      unfold daysBeforeYear
      omega
    · omega

/-- The position of the part that holds the unit numbered `n`, of parts with the given sizes laid
end to end, and the number of that unit within its part; both count from zero. -/
def locate : List Nat → Nat → Nat × Nat
  | [], n => (0, n)
  | size :: sizes, n =>
    if n < size then (0, n) else ((locate sizes (n - size)).1 + 1, (locate sizes (n - size)).2)

theorem locate_lt {sizes : List Nat} {n : Nat} (h : n < total sizes) :
    (locate sizes n).2 < sizes.getD (locate sizes n).1 0 := by
  induction sizes generalizing n with
  | nil => simp [total] at h
  | cons size sizes ih =>
    unfold locate
    split
    · simpa
    · have := ih (n := n - size) (by simp only [total] at h; omega)
      simpa using this

theorem total_take_locate (sizes : List Nat) (n : Nat) :
    total (sizes.take (locate sizes n).1) + (locate sizes n).2 = n := by
  induction sizes generalizing n with
  | nil => simp [locate, total]
  | cons size sizes ih =>
    unfold locate
    split
    · simp [total]
    · have := ih (n - size)
      simp only [List.take_succ_cons, total]
      omega

theorem isDate_locate {year n : Int} (h : daysBeforeYear year ≤ n)
    (h' : n < daysBeforeYear (year + 1)) :
    IsDate year ((locate (monthLengths year) (n - daysBeforeYear year).toNat).1 + 1)
      ((locate (monthLengths year) (n - daysBeforeYear year).toNat).2 + 1) := by
  rw [daysBeforeYear_succ] at h'
  have hn : (n - daysBeforeYear year).toNat < total (monthLengths year) := by
    rw [total_monthLengths]
    omega
  exact ⟨Nat.succ_pos _, locate_lt hn⟩

namespace Date

def ofDayNumber (n : Int) : Date :=
  let year := yearOfDayNumber n
  let found := locate (monthLengths year) (n - daysBeforeYear year).toNat
  ⟨year, found.1 + 1, found.2 + 1,
    isDate_locate (daysBeforeYear_yearOfDayNumber n).1 (daysBeforeYear_yearOfDayNumber n).2⟩

theorem dayNumber_ofDayNumber (n : Int) : (ofDayNumber n).dayNumber = n := by
  have ⟨h, _⟩ := daysBeforeYear_yearOfDayNumber n
  have := total_take_locate (monthLengths (yearOfDayNumber n))
    (n - daysBeforeYear (yearOfDayNumber n)).toNat
  simp only [dayNumber, Recurrence.dayNumber, daysBeforeMonth, ofDayNumber, List.take_succ_cons,
    total]
  omega

end Date

end Recurrence
