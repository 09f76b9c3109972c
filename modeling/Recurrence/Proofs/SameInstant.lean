import Mathlib
import Recurrence.Proofs.CalendarDays
import Recurrence.Report

/-! One instant written at two offsets. The two wall clocks differ by the difference of the offsets,
which may carry over any number of midnights; the report is that of the instant. -/

namespace Recurrence

namespace Time

variable {t t' : Time}

theorem secondOfDay_lt (t : Time) : t.secondOfDay < 86400 := by
  have := t.hour_lt
  have := t.minute_lt
  have := t.second_lt
  unfold secondOfDay
  omega

theorem withSecondOfDay_eq (hpart : t.nanosecond = t'.nanosecond) (hleap : t.leap = t'.leap)
    (n : Nat) : t.withSecondOfDay n = t'.withSecondOfDay n := by
  simp only [withSecondOfDay, hpart, hleap]

theorem withSecondOfDay_secondOfDay (t : Time) : t.withSecondOfDay t.secondOfDay = t := by
  obtain ⟨hour, minute, second, nanosecond, leap, hhour, hminute, hsecond, hnanosecond⟩ := t
  simp only [withSecondOfDay, secondOfDay, mk.injEq, and_true]
  omega

end Time

namespace DateTime

variable {t t' : DateTime} {n n' : Int}

/-- A clock that shows `t` shows `t'` that many seconds later: every midnight in between has taken
it to the next date, and the part of the second and the leap second's mark have stayed. -/
def Passes (t t' : DateTime) (seconds : Int) : Prop :=
  (∃ midnights : Nat, t'.date = Date.next^[midnights] t.date ∧
    (t'.time.secondOfDay : Int) + 86400 * midnights = t.time.secondOfDay + seconds) ∧
  t'.time.nanosecond = t.time.nanosecond ∧ t'.time.leap = t.time.leap

theorem Passes.seconds_eq (h : t.Passes t' n) : t'.seconds = t.seconds + n := by
  obtain ⟨⟨midnights, hdate, htime⟩, -, -⟩ := h
  have hday := t.date.dayNumber_iterate_next midnights
  rw [← hdate] at hday
  unfold seconds
  omega

theorem passes_iff (hdate : t.date.dayNumber ≤ t'.date.dayNumber) :
    t.Passes t' n ↔ t'.seconds = t.seconds + n ∧ t'.time.nanosecond = t.time.nanosecond ∧
      t'.time.leap = t.time.leap := by
  constructor
  · exact fun h => ⟨h.seconds_eq, h.2⟩
  · rintro ⟨hseconds, hrest⟩
    -- There is a midnight between any date and the next.
    refine ⟨⟨(t'.date.dayNumber - t.date.dayNumber).toNat, ?_, ?_⟩, hrest⟩
    · apply Eq.symm
      rw [Date.iterate_next_eq_iff]
      omega
    · unfold seconds at hseconds
      omega

theorem shift_eq_shift_iff : t.shift n = t'.shift n' ↔
    t.seconds + n = t'.seconds + n' ∧ t.time.nanosecond = t'.time.nanosecond ∧
      t.time.leap = t'.time.leap := by
  constructor
  · intro h
    refine ⟨?_, congrArg (·.time.nanosecond) h, congrArg (·.time.leap) h⟩
    rw [← seconds_shift, ← seconds_shift, h]
  · rintro ⟨hseconds, hpart, hleap⟩
    simp only [shift, hseconds, Time.withSecondOfDay_eq hpart hleap]

theorem shift_zero (t : DateTime) : t.shift 0 = t := by
  have hsecond := t.time.secondOfDay_lt
  have hdate : (t.seconds + 0) / 86400 = t.date.dayNumber := by
    unfold seconds
    omega
  have htime : ((t.seconds + 0) % 86400).toNat = t.time.secondOfDay := by
    unfold seconds
    omega
  rw [shift, hdate, htime, Date.ofDayNumber_dayNumber, Time.withSecondOfDay_secondOfDay]

end DateTime

namespace Timestamp

variable {t t' : Timestamp}

/-- The clocks differ by the difference of their offsets. Dates are carried forwards only, so either
clock may be the one to start from. -/
def SameInstant (t t' : Timestamp) : Prop :=
  t.clock.Passes t'.clock (t'.offset - t.offset) ∨ t'.clock.Passes t.clock (t.offset - t'.offset)

theorem sameInstant_iff : t.SameInstant t' ↔ t.instant = t'.instant := by
  simp only [instant, DateTime.shift_eq_shift_iff]
  constructor
  · rintro (h | h)
    · have := h.seconds_eq
      exact ⟨by omega, h.2.1.symm, h.2.2.symm⟩
    · have := h.seconds_eq
      exact ⟨by omega, h.2⟩
  · rintro ⟨hseconds, hpart, hleap⟩
    rcases Int.le_total t.clock.date.dayNumber t'.clock.date.dayNumber with hle | hle
    · exact .inl ((DateTime.passes_iff hle).mpr ⟨by omega, hpart.symm, hleap.symm⟩)
    · exact .inr ((DateTime.passes_iff hle).mpr ⟨by omega, hpart, hleap⟩)

end Timestamp

theorem checkIn_congr {zones : ZoneTable} {datetime datetime' : String} {t t' : Timestamp}
    (h : Timestamp.parse datetime = .ok t) (h' : Timestamp.parse datetime' = .ok t')
    (hinstant : t.instant = t'.instant) (expression timezone : String) :
    checkIn zones expression datetime timezone = checkIn zones expression datetime' timezone := by
  cases hperiod : Period.parse expression with
  | error fault => rw [checkIn_of_fault hperiod, checkIn_of_fault hperiod]
  | ok period =>
    cases hzone : zones timezone with
    | none => rw [checkIn_of_no_zone hperiod h hzone, checkIn_of_no_zone hperiod h' hzone]
    | some offsetAt =>
      rw [checkIn_of_zone hperiod h hzone, checkIn_of_zone hperiod h' hzone, hinstant]

/-- Whatever zones there are, and whether or not the check succeeds. -/
theorem checkIn_eq_of_sameInstant {datetime datetime' : String} {t t' : Timestamp}
    (h : Timestamp.parse datetime = .ok t) (h' : Timestamp.parse datetime' = .ok t')
    (same : t.SameInstant t') (zones : ZoneTable) (expression timezone : String) :
    checkIn zones expression datetime timezone = checkIn zones expression datetime' timezone :=
  checkIn_congr h h' (Timestamp.sameInstant_iff.mp same) expression timezone

/-- A leap second that ends the year in UTC, when the next year has begun in Kathmandu. -/
theorem checkIn_eq_of_leap_second :
    ∃ utc kathmandu, Timestamp.parse "2016-12-31T23:59:60.5Z" = .ok utc ∧
      Timestamp.parse "2017-01-01T05:44:60.500+05:45" = .ok kathmandu ∧
      utc.SameInstant kathmandu ∧
      checkIn .named "hr\x7b5\x7d" "2016-12-31T23:59:60.5Z" "Asia/Kathmandu"
        = checkIn .named "hr\x7b5\x7d" "2017-01-01T05:44:60.500+05:45" "Asia/Kathmandu" := by
  let utc : Timestamp := ⟨⟨⟨2016, 12, 31, by decide⟩,
    ⟨23, 59, 59, 500000000, true, by decide, by decide, by decide, by decide⟩⟩, 0⟩
  let kathmandu : Timestamp := ⟨⟨⟨2017, 1, 1, by decide⟩,
    ⟨5, 44, 59, 500000000, true, by decide, by decide, by decide, by decide⟩⟩, 20700⟩
  have hutc : Timestamp.parse "2016-12-31T23:59:60.5Z" = .ok utc := by cbv
  have hkathmandu : Timestamp.parse "2017-01-01T05:44:60.500+05:45" = .ok kathmandu := by cbv
  have hdate : kathmandu.clock.date = Date.next^[1] utc.clock.date := by decide
  have same : utc.SameInstant kathmandu := .inl ⟨⟨1, hdate, by decide⟩, rfl, rfl⟩
  exact ⟨utc, kathmandu, hutc, hkathmandu, same,
    checkIn_eq_of_sameInstant hutc hkathmandu same .named "hr\x7b5\x7d" "Asia/Kathmandu"⟩

end Recurrence
