import Recurrence.Proofs.CalendarDays
import Recurrence.Proofs.Meaning

/-! The calendar comes back after four hundred years: leap years fall alike, and the days of a cycle
make whole weeks. A period that gives years within a century only cannot tell one cycle from
another. -/

namespace Recurrence

section Cycle

variable (year cycles : Int)

theorem isLeapYear_add_cycles : IsLeapYear (year + 400 * cycles) ↔ IsLeapYear year := by
  unfold IsLeapYear
  omega

theorem monthLengths_add_cycles : monthLengths (year + 400 * cycles) = monthLengths year := by
  simp only [monthLengths, isLeapYear_add_cycles]

theorem isDate_add_cycles {month day : Nat} :
    IsDate (year + 400 * cycles) month day ↔ IsDate year month day := by
  simp only [IsDate, monthLength, monthLengths_add_cycles]

theorem daysBeforeMonth_add_cycles (month : Nat) :
    daysBeforeMonth (year + 400 * cycles) month = daysBeforeMonth year month := by
  simp only [daysBeforeMonth, monthLengths_add_cycles]

theorem daysBeforeYear_add_cycles :
    daysBeforeYear (year + 400 * cycles) = daysBeforeYear year + 146097 * cycles := by
  unfold daysBeforeYear
  omega

end Cycle

namespace Date

def afterCycles (d : Date) (cycles : Int) : Date :=
  ⟨d.year + 400 * cycles, d.month, d.day, (isDate_add_cycles d.year cycles).mpr d.valid⟩

theorem of?_afterCycles (d : Date) (cycles : Int) :
    of? (d.year + 400 * cycles) d.month d.day = some (d.afterCycles cycles) :=
  dif_pos (d.afterCycles cycles).valid

theorem yearDay_afterCycles (d : Date) (cycles : Int) :
    (d.afterCycles cycles).yearDay = d.yearDay := by
  simp only [yearDay, afterCycles, daysBeforeMonth_add_cycles]

theorem dayNumber_afterCycles (d : Date) (cycles : Int) :
    (d.afterCycles cycles).dayNumber = d.dayNumber + 146097 * cycles := by
  simp only [dayNumber, Recurrence.dayNumber, afterCycles, daysBeforeYear_add_cycles,
    daysBeforeMonth_add_cycles]
  omega

/-- A cycle has 20871 weeks. -/
theorem weekday_afterCycles (d : Date) (cycles : Int) :
    (d.afterCycles cycles).weekday = d.weekday := by
  have hdays := d.dayNumber_afterCycles cycles
  have hweeks : ((d.afterCycles cycles).dayNumber + 6) % 7 = (d.dayNumber + 6) % 7 := by omega
  rw [weekday, hweeks, weekday]

end Date

def DateTime.afterCycles (t : DateTime) (cycles : Int) : DateTime :=
  ⟨t.date.afterCycles cycles, t.time⟩

namespace Scale

variable {s : Scale}

theorem field_afterCycles (hs : s ≠ .year) (t : DateTime) (cycles : Int) :
    s.field (t.afterCycles cycles) = s.field t := by
  cases s with
  | year => exact absurd rfl hs
  | yearDay => exact congrArg Int.ofNat (t.date.yearDay_afterCycles cycles)
  | weekday => exact congrArg Int.ofNat (t.date.weekday_afterCycles cycles)
  | _ => rfl

theorem denote_year_afterCycles {value : Nat} (h : value < 100) (t : DateTime) (cycles : Int) :
    year.denote (t.afterCycles cycles) value = year.denote t value + 400 * cycles := by
  have hyear : (t.afterCycles cycles).date.year = t.date.year + 400 * cycles := rfl
  rw [denote_year_of_lt h, denote_year_of_lt h, hyear]
  omega

end Scale

namespace Span

theorem covers_iff_of_moved {s : Scale} {t t' : DateTime} {r : Span} {distance : Int}
    (hfield : s.field t' = s.field t + distance)
    (hlow : s.denote t' r.low = s.denote t r.low + distance)
    (hhigh : s.denote t' r.high = s.denote t r.high + distance) : r.Covers s t' ↔ r.Covers s t := by
  unfold Covers
  simp only [hfield, hlow, hhigh, Int.add_le_add_iff_right]

theorem covers_afterCycles {s : Scale} {r : Span} (h : s = .year → r.low < 100 ∧ r.high < 100)
    (t : DateTime) (cycles : Int) : r.Covers s (t.afterCycles cycles) ↔ r.Covers s t := by
  by_cases hs : s = .year
  · obtain ⟨hlow, hhigh⟩ := h hs
    subst hs
    exact covers_iff_of_moved rfl (Scale.denote_year_afterCycles hlow t cycles)
      (Scale.denote_year_afterCycles hhigh t cycles)
  · have hvalue : ∀ value, s.denote (t.afterCycles cycles) value = s.denote t value := by
      intro value
      rw [Scale.denote_of_ne_year hs, Scale.denote_of_ne_year hs]
    unfold Covers
    rw [Scale.field_afterCycles hs, hvalue, hvalue]

end Span

namespace Period

/-- The date with the same month and day any number of cycles away exists, 29 February included, and
at each time of day the period holds on both dates or on neither. -/
theorem holdsAt_cycles_away {text : String} {p : Period} (h : parse text = .ok p)
    (hyears : ∀ r, p.HasSpan .year r → r.low < 100 ∧ r.high < 100) (t : DateTime) (cycles : Int) :
    ∃ d, Date.of? (t.date.year + 400 * cycles) t.date.month t.date.day = some d ∧
      ∃ inside, holdsAt text t = .ok inside ∧ holdsAt text ⟨d, t.time⟩ = .ok inside := by
  have hholds : p.holds (t.afterCycles cycles) = p.holds t := by
    apply holds_congr
    intro s r hr
    exact Span.covers_afterCycles (fun hs => hyears r (hs ▸ hr)) t cycles
  refine ⟨t.date.afterCycles cycles, t.date.of?_afterCycles cycles, p.holds t,
    holdsAt_of_parse h t, ?_⟩
  rw [← hholds]
  exact holdsAt_of_parse h (t.afterCycles cycles)

/-- The leap days of 2008 and of the year -392, in a span of years that wraps. -/
theorem holdsAt_cycles_away_of_leap_day :
    let period : Period := ⟨[.clauses [⟨.year, [⟨98, 8⟩]⟩, ⟨.weekday, [.single 6]⟩]]⟩
    let leapDay : DateTime := ⟨⟨2008, 2, 29, by decide⟩, DateTime.epoch.time⟩
    parse "yr \x7b98-8\x7d wd \x7bfri\x7d" = .ok period ∧
      (∀ r, period.HasSpan .year r → r.low < 100 ∧ r.high < 100) ∧
      holdsAt "yr \x7b98-8\x7d wd \x7bfri\x7d" leapDay = .ok true ∧
      ∃ d, Date.of? (-392) 2 29 = some d ∧
        holdsAt "yr \x7b98-8\x7d wd \x7bfri\x7d" ⟨d, leapDay.time⟩ = .ok true := by
  intro period leapDay
  have hparse : parse "yr \x7b98-8\x7d wd \x7bfri\x7d" = .ok period := rfl
  have hyears : ∀ r, period.HasSpan .year r → r.low < 100 ∧ r.high < 100 := by
    rintro r ⟨cs, hcs, c, hc, hs, hr⟩
    obtain rfl : cs = _ := SubPeriod.clauses.inj (List.mem_singleton.mp hcs)
    simp only [List.mem_cons, List.not_mem_nil, or_false] at hc
    rcases hc with rfl | rfl
    · obtain rfl := List.mem_singleton.mp hr
      decide
    · cases hs
  have hholds : holdsAt "yr \x7b98-8\x7d wd \x7bfri\x7d" leapDay = .ok true := by
    have hinside : period.holds leapDay = true := by decide
    rw [holdsAt_of_parse hparse, hinside]
  obtain ⟨d, hd, inside, hinside, haway⟩ := holdsAt_cycles_away hparse hyears leapDay (-6)
  cases hholds.symm.trans hinside
  exact ⟨hparse, hyears, hholds, d, hd, haway⟩

end Period

end Recurrence
