import Mathlib.Logic.Function.Iterate
import Recurrence.Calendar.DateTime

/-! The day after a date, found by carrying from day to month to year, and the day numbers: the
next day has the next number, and a date is the one its number stands for. -/

namespace Recurrence

theorem total_take_succ (sizes : List Nat) (n : Nat) :
    total (sizes.take (n + 1)) = total (sizes.take n) + sizes.getD n 0 := by
  induction sizes generalizing n with
  | nil => simp [total]
  | cons size sizes ih =>
    cases n with
    | zero => simp [total]
    | succ n =>
      have := ih n
      simp only [List.take_succ_cons, total, List.getD_cons_succ]
      omega

theorem daysBeforeMonth_succ (year : Int) (month : Nat) :
    daysBeforeMonth year (month + 1) = daysBeforeMonth year month + monthLength year month :=
  total_take_succ _ month

theorem daysBeforeMonth_one (year : Int) : daysBeforeMonth year 1 = 0 := rfl

theorem daysBeforeMonth_thirteen (year : Int) : daysBeforeMonth year 13 = yearLength year := by
  rw [← total_monthLengths]
  exact Nat.zero_add _

theorem monthLength_ge {year : Int} {month : Nat} (h : 1 ≤ month) (h' : month ≤ 12) :
    28 ≤ monthLength year month := by
  obtain rfl | rfl | rfl | rfl | rfl | rfl | rfl | rfl | rfl | rfl | rfl | rfl :
      month = 1 ∨ month = 2 ∨ month = 3 ∨ month = 4 ∨ month = 5 ∨ month = 6 ∨ month = 7 ∨
        month = 8 ∨ month = 9 ∨ month = 10 ∨ month = 11 ∨ month = 12 := by omega
  case inr.inl =>
    change 28 ≤ if IsLeapYear year then 29 else 28
    split <;> decide
  all_goals exact Nat.le_add_left 28 _

theorem monthLength_pos {year : Int} {month : Nat} (h : 1 ≤ month) (h' : month ≤ 12) :
    0 < monthLength year month := Nat.lt_of_lt_of_le (by decide) (monthLength_ge h h')

theorem monthLength_eq_zero {year : Int} {month : Nat} (h : 12 < month) :
    monthLength year month = 0 := by
  unfold monthLength
  rw [List.getD_eq_getElem?_getD, List.getElem?_eq_none (by simp [monthLengths]; omega)]
  rfl

theorem monthLength_le (year : Int) (month : Nat) : monthLength year month ≤ 31 := by
  have hlengths : ∀ length ∈ 0 :: monthLengths year, length ≤ 31 := by
    unfold monthLengths
    split <;> decide
  rw [monthLength, List.getD_eq_getElem?_getD]
  cases hfound : (0 :: monthLengths year)[month]? with
  | none => exact Nat.zero_le _
  | some length => exact hlengths length (List.mem_of_getElem? hfound)

theorem total_take_le (sizes : List Nat) (n : Nat) : total (sizes.take n) ≤ total sizes := by
  induction sizes generalizing n with
  | nil => simp
  | cons size sizes ih =>
    cases n with
    | zero => exact Nat.zero_le _
    | succ n => exact Nat.add_le_add_left (ih n) size

/-- The place of a unit, found back from the number that counts all units before it. -/
theorem locate_total_take {sizes : List Nat} {part n : Nat} (h : n < sizes.getD part 0) :
    locate sizes (total (sizes.take part) + n) = (part, n) := by
  induction sizes generalizing part with
  | nil => simp at h
  | cons size sizes ih =>
    cases part with
    | zero =>
      rw [List.getD_cons_zero] at h
      simp [locate, total, h]
    | succ part =>
      rw [List.getD_cons_succ] at h
      have hsub : total ((size :: sizes).take (part + 1)) + n - size
          = total (sizes.take part) + n := by
        simp only [List.take_succ_cons, total]
        omega
      have hge : ¬ total ((size :: sizes).take (part + 1)) + n < size := by
        simp only [List.take_succ_cons, total]
        omega
      rw [locate, if_neg hge, hsub, ih h]

theorem daysBeforeYear_mono {year year' : Int} (h : year ≤ year') :
    daysBeforeYear year ≤ daysBeforeYear year' := by
  obtain ⟨years, rfl⟩ := Int.le.dest h
  clear h
  induction years with
  | zero => simp
  | succ years ih =>
    rw [Int.natCast_succ, ← Int.add_assoc, daysBeforeYear_succ]
    omega

theorem yearOfDayNumber_eq {year n : Int} (h : daysBeforeYear year ≤ n)
    (h' : n < daysBeforeYear (year + 1)) : yearOfDayNumber n = year := by
  have ⟨hfound, hfound'⟩ := daysBeforeYear_yearOfDayNumber n
  rcases Int.lt_trichotomy (yearOfDayNumber n) year with hlt | heq | hgt
  · have : daysBeforeYear (yearOfDayNumber n + 1) ≤ daysBeforeYear year := daysBeforeYear_mono hlt
    omega
  · exact heq
  · have : daysBeforeYear (year + 1) ≤ daysBeforeYear (yearOfDayNumber n) := daysBeforeYear_mono hgt
    omega

namespace Date

variable {d d' : Date}

theorem month_bounds (d : Date) : 1 ≤ d.month ∧ d.month ≤ 12 := by
  have ⟨hday, hlength⟩ := d.valid
  constructor
  · apply Nat.pos_of_ne_zero
    intro hzero
    rw [hzero] at hlength
    have hnone : d.day ≤ 0 := hlength
    omega
  · apply Nat.le_of_not_lt
    intro hlate
    rw [monthLength_eq_zero hlate] at hlength
    omega

theorem isDate_newYear (year : Int) : IsDate year 1 1 :=
  ⟨Nat.le_refl _, monthLength_pos (Nat.le_refl _) (by decide)⟩

/-- Past the end of a month comes the first of the next, and past the end of December the first of
January. -/
def next (d : Date) : Date :=
  if h : IsDate d.year d.month (d.day + 1) then ⟨d.year, d.month, d.day + 1, h⟩
  else if h : IsDate d.year (d.month + 1) 1 then ⟨d.year, d.month + 1, 1, h⟩
  else ⟨d.year + 1, 1, 1, isDate_newYear _⟩

theorem dayNumber_next (d : Date) : d.next.dayNumber = d.dayNumber + 1 := by
  have ⟨_, hday⟩ := d.valid
  have ⟨_, hmonth⟩ := d.month_bounds
  unfold next
  split
  case isTrue =>
    simp only [dayNumber, Recurrence.dayNumber]
    omega
  case isFalse hlast =>
    have hlast : d.day = monthLength d.year d.month := by
      simp only [IsDate] at hlast
      omega
    have hsucc := daysBeforeMonth_succ d.year d.month
    split
    case isTrue =>
      simp only [dayNumber, Recurrence.dayNumber]
      omega
    case isFalse hdecember =>
      have hdecember : d.month = 12 := by
        have hlate : ¬ d.month + 1 ≤ 12 := fun hmonth =>
          hdecember ⟨Nat.le_refl _, monthLength_pos (by omega) hmonth⟩
        omega
      rw [hdecember, daysBeforeMonth_thirteen] at hsucc
      simp only [dayNumber, Recurrence.dayNumber, daysBeforeYear_succ, daysBeforeMonth_one]
      rw [hlast, hdecember]
      omega

theorem dayNumber_iterate_next (d : Date) (n : Nat) :
    (next^[n] d).dayNumber = d.dayNumber + n := by
  induction n with
  | zero => simp
  | succ n ih =>
    rw [Function.iterate_succ_apply', dayNumber_next, ih]
    omega

/-- A day counts at most as many days of its year as the year has. -/
theorem yearDay_le (d : Date) : d.yearDay ≤ yearLength d.year := by
  have ⟨_, hday⟩ := d.valid
  have hmonth := daysBeforeMonth_succ d.year d.month
  have hyear : daysBeforeMonth d.year (d.month + 1) ≤ yearLength d.year := by
    rw [← total_monthLengths, ← Nat.zero_add (total _)]
    exact total_take_le (0 :: monthLengths d.year) _
  unfold yearDay
  omega

theorem weekday_bounds (d : Date) : 1 ≤ d.weekday ∧ d.weekday ≤ 7 := by
  unfold weekday
  omega

theorem yearOfDayNumber_dayNumber (d : Date) : yearOfDayNumber d.dayNumber = d.year := by
  have ⟨hday, _⟩ := d.valid
  have hyear := d.yearDay_le
  unfold yearDay at hyear
  apply yearOfDayNumber_eq
  · simp only [dayNumber, Recurrence.dayNumber]
    omega
  · rw [daysBeforeYear_succ]
    simp only [dayNumber, Recurrence.dayNumber]
    omega

theorem ext (hyear : d.year = d'.year) (hmonth : d.month = d'.month) (hday : d.day = d'.day) :
    d = d' := by
  cases d
  cases d'
  cases hyear
  cases hmonth
  cases hday
  rfl

theorem ofDayNumber_dayNumber (d : Date) : ofDayNumber d.dayNumber = d := by
  have hyear := d.yearOfDayNumber_dayNumber
  have ⟨hday, hlength⟩ := d.valid
  obtain ⟨month, hmonth⟩ := Nat.exists_eq_add_of_le' d.month_bounds.1
  -- Months and days count from one, the parts and units that `locate` finds from zero.
  have hplace : (d.dayNumber - daysBeforeYear d.year).toNat
      = total ((monthLengths d.year).take month) + (d.day - 1) := by
    simp only [dayNumber, Recurrence.dayNumber, daysBeforeMonth, hmonth, List.take_succ_cons, total]
    omega
  have hlocate : locate (monthLengths d.year) (d.dayNumber - daysBeforeYear d.year).toNat
      = (month, d.day - 1) := by
    rw [hplace]
    apply locate_total_take
    rw [hmonth] at hlength
    have : monthLength d.year (month + 1) = (monthLengths d.year).getD month 0 := rfl
    omega
  apply ext
  · exact hyear
  · simp only [ofDayNumber, hyear, hlocate, hmonth]
  · simp only [ofDayNumber, hyear, hlocate]
    omega

theorem dayNumber_inj : d.dayNumber = d'.dayNumber ↔ d = d' := by
  constructor
  · intro h
    rw [← d.ofDayNumber_dayNumber, h, ofDayNumber_dayNumber]
  · exact congrArg dayNumber

/-- As many days later, in the numbers of the days. -/
theorem iterate_next_eq_iff {n : Nat} : next^[n] d = d' ↔ d'.dayNumber = d.dayNumber + n := by
  rw [← dayNumber_inj, dayNumber_iterate_next]
  exact eq_comm

end Date

end Recurrence
