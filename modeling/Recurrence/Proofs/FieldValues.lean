import Recurrence.Proofs.CyclicSpans
import Recurrence.Proofs.WeekdaysOfMonth

/-! The bounds of a scale are the values that its field takes, no more and no fewer. Every year has
each of them at some time, but for the day 366 of a year, which only a leap year has. -/

namespace Recurrence

namespace Date

theorem exists_yearDay {year : Int} {n : Nat} (h : 1 ≤ n ∧ n ≤ yearLength year) :
    ∃ d : Date, d.year = year ∧ d.yearDay = n := by
  let d := ofDayNumber (daysBeforeYear year + n - 1)
  have hyear : d.year = year := by
    apply yearOfDayNumber_eq
    · omega
    · rw [daysBeforeYear_succ]
      omega
  have hnumber : d.dayNumber = daysBeforeYear year + n - 1 := dayNumber_ofDayNumber _
  refine ⟨d, hyear, ?_⟩
  simp only [dayNumber, Recurrence.dayNumber, hyear] at hnumber
  rw [yearDay, hyear]
  omega

theorem exists_month {month : Nat} (year : Int) (h : 1 ≤ month ∧ month ≤ 12) :
    ∃ d : Date, d.year = year ∧ d.month = month :=
  ⟨⟨year, month, 1, Nat.le_refl 1, monthLength_pos h.1 h.2⟩, rfl, rfl⟩

/-- A day of January. -/
theorem exists_day {day : Nat} (year : Int) (h : 1 ≤ day ∧ day ≤ 31) :
    ∃ d : Date, d.year = year ∧ d.day = day :=
  ⟨⟨year, 1, day, h⟩, rfl, rfl⟩

theorem exists_weekday {weekday : Nat} (year : Int) (h : 1 ≤ weekday ∧ weekday ≤ 7) :
    ∃ d : Date, d.year = year ∧ d.weekday = weekday := by
  have january : 1 ≤ 1 ∧ 1 ≤ 12 := by decide
  have ⟨hlength, _⟩ := Period.length_weekdaysOf_bounds year january h
  have hsome : 0 < (weekdaysOf year 1 weekday).length := by omega
  obtain ⟨d, hyear, -, hfirst⟩ := exists_getElem?_weekdaysOf hsome
  exact ⟨d, hyear, (mem_weekdaysOf.mp (List.mem_of_getElem? hfirst)).2⟩

end Date

/-- A span covers its first value, also where it wraps. -/
theorem Span.covers_of_field_eq_low {s : Scale} {t : DateTime} {r : Span}
    (h : s.field t = s.denote t r.low) : r.Covers s t := by
  unfold Covers
  rw [h]
  split
  · exact ⟨Int.le_refl _, by assumption⟩
  · exact .inl (Int.le_refl _)

namespace Scale

variable {s : Scale} {least greatest : Nat}

theorem exists_field_eq (h : s.bounds = some (least, greatest)) {value : Nat}
    (hvalue : least ≤ value ∧ value ≤ greatest) {year : Int}
    (hyear : s = .yearDay → value ≤ yearLength year) :
    ∃ t : DateTime, t.date.year = year ∧ t.time.leap = false ∧ s.field t = value := by
  let newYear : Date := ⟨year, 1, 1, Date.isDate_newYear year⟩
  let midnight := DateTime.epoch.time
  cases s with
  | year => cases h
  | month =>
    cases h
    obtain ⟨d, hd, hmonth⟩ := Date.exists_month year hvalue
    exact ⟨⟨d, midnight⟩, hd, rfl, by simp only [field, hmonth]⟩
  | week =>
    cases h
    -- The first day of the week: the fifth week begins on the 29th.
    have hfirst : 1 ≤ 7 * (value - 1) + 1 ∧ 7 * (value - 1) + 1 ≤ 31 := by omega
    obtain ⟨d, hd, hday⟩ := Date.exists_day year hfirst
    refine ⟨⟨d, midnight⟩, hd, rfl, ?_⟩
    simp only [field, hday]
    omega
  | yearDay =>
    cases h
    obtain ⟨d, hd, hday⟩ := Date.exists_yearDay ⟨hvalue.1, hyear rfl⟩
    exact ⟨⟨d, midnight⟩, hd, rfl, by simp only [field, hday]⟩
  | monthDay =>
    cases h
    obtain ⟨d, hd, hday⟩ := Date.exists_day year hvalue
    exact ⟨⟨d, midnight⟩, hd, rfl, by simp only [field, hday]⟩
  | weekday =>
    cases h
    obtain ⟨d, hd, hweekday⟩ := Date.exists_weekday year hvalue
    exact ⟨⟨d, midnight⟩, hd, rfl, by simp only [field, hweekday]⟩
  | hour =>
    cases h
    refine ⟨⟨newYear, midnight.withSecondOfDay (3600 * value)⟩, rfl, rfl, ?_⟩
    simp only [field, Time.withSecondOfDay]
    omega
  | minute =>
    cases h
    refine ⟨⟨newYear, midnight.withSecondOfDay (60 * value)⟩, rfl, rfl, ?_⟩
    simp only [field, Time.withSecondOfDay]
    omega
  | second =>
    cases h
    refine ⟨⟨newYear, midnight.withSecondOfDay value⟩, rfl, rfl, ?_⟩
    simp only [field, Time.withSecondOfDay]
    omega

theorem yearDay_field_le (t : DateTime) : yearDay.field t ≤ yearLength t.date.year :=
  Int.ofNat_le.mpr t.date.yearDay_le

theorem exists_field_eq_iff (h : s.bounds = some (least, greatest)) (year : Int) (value : Nat) :
    (∃ t : DateTime, t.date.year = year ∧ t.time.leap = false ∧ s.field t = value) ↔
      (least ≤ value ∧ value ≤ greatest) ∧ (s = .yearDay → value ≤ yearLength year) := by
  constructor
  · rintro ⟨t, rfl, -, hfield⟩
    have hwithin := field_within h t
    refine ⟨by omega, ?_⟩
    rintro rfl
    have := yearDay_field_le t
    omega
  · rintro ⟨hvalue, hyear⟩
    exact exists_field_eq h hvalue hyear

theorem le_greatest_of_bounds (h : s.bounds = some (least, greatest)) : least ≤ greatest := by
  have := field_within h .epoch
  omega

theorem holds_whole (h : s.bounds = some (least, greatest)) (t : DateTime) :
    (Clause.spanning s least greatest).holds t = true := by
  have := le_greatest_of_bounds h
  have := field_within h t
  rw [Clause.holds_spanning_iff_of_ne_year (ne_year_of_bounds h), spanned_iff]
  omega

end Scale

namespace Period

theorem holdsAt_whole {s : Scale} {least greatest : Nat} (h : s.bounds = some (least, greatest))
    {word : String} (hword : Scale.named? word.toList = some s) (t : DateTime) :
    holdsAt (word ++ " \x7b" ++ toString least ++ "-" ++ toString greatest ++ "\x7d") t =
      .ok true := by
  have hle := Scale.le_greatest_of_bounds h
  have hleast : s.Admits least := (Scale.admits_iff_of_bounds h).mpr ⟨Nat.le_refl _, hle⟩
  have hgreatest : s.Admits greatest := (Scale.admits_iff_of_bounds h).mpr ⟨hle, Nat.le_refl _⟩
  rw [holdsAt_range hword hleast hgreatest, Scale.holds_whole h]

/-- A clause that is read holds at some time: where the field is the first value of its first
span. -/
theorem exists_holdsAt_of_clause {s : Scale} {least greatest : Nat}
    (h : s.bounds = some (least, greatest)) {text : String} {c : Clause}
    (hparse : parse text = .ok ⟨[.clauses [c]]⟩) (hc : c.scale = s) {year : Int}
    (hyear : s = .yearDay → IsLeapYear year) :
    ∃ t : DateTime, t.date.year = year ∧ t.time.leap = false ∧ holdsAt text t = .ok true := by
  subst hc
  have hclause : c.WellFormed := by
    cases wellFormed_of_ofChars hparse _ (List.mem_singleton.mpr rfl) with
    | clauses _ _ hclauses => exact hclauses c (List.mem_singleton.mpr rfl)
  obtain ⟨r, hr⟩ := List.exists_mem_of_ne_nil _ hclause.spans_ne_nil
  have hlow := (Scale.admits_iff_of_bounds h).mp (hclause.admits r hr).1
  have hlast : c.scale = .yearDay → r.low ≤ yearLength year := by
    intro hs
    rw [hs] at h
    cases h
    rw [yearLength, if_pos (hyear hs)]
    exact hlow.2
  obtain ⟨t, ht, hleap, hfield⟩ := Scale.exists_field_eq h hlow hlast
  refine ⟨t, ht, hleap, ?_⟩
  have hcovers : r.Covers c.scale t := by
    apply Span.covers_of_field_eq_low
    rw [hfield, Scale.denote_of_ne_year (Scale.ne_year_of_bounds h)]
  have hholds : c.holds t = true := Clause.holds_iff.mpr ⟨r, hr, hcovers⟩
  rw [holdsAt_of_parse hparse]
  simp [holds, isUnconstrained, SubPeriod.holds, hholds]

end Period

namespace Scale

/-- The field of a scale with bounds never leaves them, whatever the time, so the text for all
values between the bounds holds always. In each year the field takes every value between them, the
366th day only in a leap year, and so each single clause that can be read holds at some time. -/
theorem field_values_eq_bounds {s : Scale} {least greatest : Nat}
    (h : s.bounds = some (least, greatest)) :
    (∀ t : DateTime, (least : Int) ≤ s.field t ∧ s.field t ≤ greatest) ∧
    (∀ word : String, named? word.toList = some s → ∀ t,
      Period.holdsAt (word ++ " \x7b" ++ toString least ++ "-" ++ toString greatest ++ "\x7d") t =
        .ok true) ∧
    (∀ (year : Int) (value : Nat),
      (∃ t : DateTime, t.date.year = year ∧ t.time.leap = false ∧ s.field t = value) ↔
        (least ≤ value ∧ value ≤ greatest) ∧ (s = .yearDay → value ≤ yearLength year)) ∧
    (∀ text c, Period.parse text = .ok ⟨[.clauses [c]]⟩ → c.scale = s →
      ∀ year, (s = .yearDay → IsLeapYear year) →
        ∃ t : DateTime, t.date.year = year ∧ t.time.leap = false ∧
          Period.holdsAt text t = .ok true) := by
  refine ⟨field_within h, ?_, exists_field_eq_iff h, ?_⟩
  · intro word hword t
    exact Period.holdsAt_whole h hword t
  · intro text c hparse hc year hyear
    exact Period.exists_holdsAt_of_clause h hparse hc hyear

/-- The last day of a leap year, which a common year does not have. -/
theorem field_values_eq_bounds_of_yearDay :
    yearDay.bounds = some (1, 366) ∧
      (∃ t : DateTime, t.date.year = 2024 ∧ t.time.leap = false ∧ yearDay.field t = 366) ∧
      (¬ ∃ t : DateTime, t.date.year = 2023 ∧ t.time.leap = false ∧ yearDay.field t = 366) ∧
      (∀ t, Period.holdsAt "yd \x7b1-366\x7d" t = .ok true) ∧
      Period.parse "yd\x7b366\x7d" = .ok ⟨[.clauses [⟨.yearDay, [.single 366]⟩]]⟩ ∧
      ∃ t : DateTime, t.date.year = -4 ∧ t.time.leap = false ∧
        Period.holdsAt "yd\x7b366\x7d" t = .ok true := by
  have hbounds : yearDay.bounds = some (1, 366) := rfl
  have hparse : Period.parse "yd\x7b366\x7d" =
      .ok ⟨[.clauses [⟨.yearDay, [.single 366]⟩]]⟩ := rfl
  obtain ⟨-, hwhole, hvalues, hclause⟩ := field_values_eq_bounds hbounds
  refine ⟨hbounds, ?_, ?_, hwhole "yd" rfl, hparse, ?_⟩
  · exact (hvalues 2024 366).mpr (by decide)
  · intro ht
    exact absurd ((hvalues 2023 366).mp ht) (by decide)
  · exact hclause _ _ hparse rfl (-4) fun _ => by decide

end Scale

end Recurrence
