import Recurrence.Proofs.CalendarDays
import Recurrence.Proofs.WrittenClauses

/-! The first, the second, up to the fifth of a weekday in a month. A week of a month is seven days
in a row, so each weekday comes once in each of the first four, and in the fifth if the month is
long enough. -/

namespace Recurrence

theorem isDate_of_mem_range' {year : Int} {month : Nat} :
    ∀ day ∈ List.range' 1 (monthLength year month), IsDate year month day := by
  intro day hday
  rw [List.mem_range'_1] at hday
  exact ⟨hday.1, by omega⟩

/-- The dates of a month in their order. -/
def datesOf (year : Int) (month : Nat) : List Date :=
  (List.range' 1 (monthLength year month)).pmap (Date.mk year month) isDate_of_mem_range'

/-- Those that fall on a weekday. -/
def weekdaysOf (year : Int) (month weekday : Nat) : List Date :=
  (datesOf year month).filter fun d => d.weekday = weekday

/-- Every seventh number. -/
theorem filter_mod_range' {first : Nat} (h : 1 ≤ first ∧ first ≤ 7) (n : Nat) :
    (List.range' 1 n).filter (fun day => day % 7 = first % 7) =
      (List.range ((n + 7 - first) / 7)).map fun i => first + 7 * i := by
  induction n with
  | zero =>
    have hnone : (0 + 7 - first) / 7 = 0 := by omega
    rw [hnone]
    rfl
  | succ n ih =>
    rw [List.range'_1_concat, List.filter_append, ih]
    by_cases hday : (1 + n) % 7 = first % 7
    · have hcount : (n + 1 + 7 - first) / 7 = (n + 7 - first) / 7 + 1 := by omega
      have hplace : 1 + n = first + 7 * ((n + 7 - first) / 7) := by omega
      rw [hcount, List.range_succ, List.map_append]
      simp [← hplace, hday]
    · have hcount : (n + 1 + 7 - first) / 7 = (n + 7 - first) / 7 := by omega
      rw [hcount]
      simp [hday]

section Month

variable {year : Int} {month : Nat}

theorem mem_datesOf {d : Date} : d ∈ datesOf year month ↔ d.year = year ∧ d.month = month := by
  rw [datesOf, List.mem_pmap]
  constructor
  · rintro ⟨day, _, rfl⟩
    exact ⟨rfl, rfl⟩
  · rintro ⟨rfl, rfl⟩
    have ⟨hday, hlength⟩ := d.valid
    exact ⟨d.day, List.mem_range'_1.mpr ⟨hday, by omega⟩, rfl⟩

theorem mem_weekdaysOf {weekday : Nat} {d : Date} : d ∈ weekdaysOf year month weekday ↔
    (d.year = year ∧ d.month = month) ∧ d.weekday = weekday := by
  simp [weekdaysOf, mem_datesOf]

theorem map_day_datesOf :
    (datesOf year month).map Date.day = List.range' 1 (monthLength year month) := by
  rw [datesOf, List.map_pmap, List.pmap_eq_map]
  exact List.map_id _

/-- The weekdays come round every seven days. -/
theorem exists_first_weekday (year : Int) (month : Nat) {weekday : Nat}
    (h : 1 ≤ weekday ∧ weekday ≤ 7) :
    ∃ first, (1 ≤ first ∧ first ≤ 7) ∧
      ∀ d ∈ datesOf year month, d.weekday = weekday ↔ d.day % 7 = first % 7 := by
  let before := daysBeforeYear year + daysBeforeMonth year month
  refine ⟨((weekday - (before + 7)) % 7).toNat + 1, by omega, ?_⟩
  intro d hd
  obtain ⟨rfl, rfl⟩ := mem_datesOf.mp hd
  have ⟨hday, _⟩ := d.valid
  have hbefore : before = daysBeforeYear d.year + daysBeforeMonth d.year d.month := rfl
  simp only [Date.weekday, Date.dayNumber, dayNumber, ← hbefore]
  omega

theorem map_day_weekdaysOf {weekday first : Nat} (hfirst : 1 ≤ first ∧ first ≤ 7)
    (h : ∀ d ∈ datesOf year month, d.weekday = weekday ↔ d.day % 7 = first % 7) :
    (weekdaysOf year month weekday).map Date.day =
      (List.range ((monthLength year month + 7 - first) / 7)).map fun i => first + 7 * i := by
  have hfilter : weekdaysOf year month weekday =
      (datesOf year month).filter ((fun day => day % 7 = first % 7) ∘ Date.day) := by
    apply List.filter_congr
    intro d hd
    simp [h d hd]
  rw [hfilter, ← List.filter_map, map_day_datesOf]
  exact filter_mod_range' hfirst _

theorem getElem?_weekdaysOf_iff {weekday first n : Nat} (hfirst : 1 ≤ first ∧ first ≤ 7)
    (h : ∀ d ∈ datesOf year month, d.weekday = weekday ↔ d.day % 7 = first % 7) {d : Date}
    (hd : d ∈ datesOf year month) :
    (weekdaysOf year month weekday)[n]? = some d ↔ d.day = first + 7 * n := by
  have hdays : ((weekdaysOf year month weekday)[n]?).map Date.day =
      ((List.range ((monthLength year month + 7 - first) / 7))[n]?).map fun i => first + 7 * i := by
    rw [← List.getElem?_map, map_day_weekdaysOf hfirst h, List.getElem?_map]
  constructor
  · intro hn
    rw [hn, Option.map_some] at hdays
    obtain ⟨i, hi, hday⟩ := Option.map_eq_some_iff.mp hdays.symm
    obtain ⟨_, rfl⟩ := List.getElem?_eq_some_iff.mp hi
    rw [← hday, List.getElem_range]
  · intro hday
    obtain ⟨rfl, rfl⟩ := mem_datesOf.mp hd
    have ⟨_, hlength⟩ := d.valid
    rw [List.getElem?_range (by omega), Option.map_some, ← hday] at hdays
    obtain ⟨d', hd', hsame⟩ := Option.map_eq_some_iff.mp hdays
    have ⟨⟨hyear, hmonth⟩, _⟩ := mem_weekdaysOf.mp (List.mem_of_getElem? hd')
    rw [hd', Date.ext hyear hmonth hsame]

theorem length_weekdaysOf {weekday first : Nat} (hfirst : 1 ≤ first ∧ first ≤ 7)
    (h : ∀ d ∈ datesOf year month, d.weekday = weekday ↔ d.day % 7 = first % 7) :
    (weekdaysOf year month weekday).length = (monthLength year month + 7 - first) / 7 := by
  simpa using congrArg List.length (map_day_weekdaysOf hfirst h)

theorem exists_getElem?_weekdaysOf {weekday n : Nat}
    (hn : n < (weekdaysOf year month weekday).length) :
    ∃ d : Date, d.year = year ∧ d.month = month ∧
      (weekdaysOf year month weekday)[n]? = some d := by
  have hd := List.getElem?_eq_getElem hn
  have ⟨⟨hyear, hmonth⟩, _⟩ := mem_weekdaysOf.mp (List.mem_of_getElem? hd)
  exact ⟨_, hyear, hmonth, hd⟩

end Month

/-- The `n`-th of a weekday in its month, as it is written. -/
def nthWeekday (n weekday : Nat) : String :=
  "wk \x7b" ++ toString n ++ "\x7d wd \x7b" ++ toString weekday ++ "\x7d"

namespace Period

theorem parse_nthWeekday {n weekday : Nat} (hn : Scale.week.Admits n)
    (hw : Scale.weekday.Admits weekday) :
    parse (nthWeekday n weekday) =
      .ok ⟨[.clauses [⟨.week, [.single n]⟩, ⟨.weekday, [.single weekday]⟩]]⟩ := by
  obtain ⟨ls, hweek, hls⟩ := writesClause_single (rfl : Scale.named? "wk".toList = _) hn
  obtain ⟨ls', hweekday, hls'⟩ := writesClause_single (rfl : Scale.named? "wd".toList = _) hw
  have hblank : Spells (' ' :: _) ls' := hweekday.blank (by decide)
  have hspells := hweek.append hblank (.of_wordBreak (.cons (by decide) _) _)
  have hchars := ofChars_of_spells hspells ((Many.nil.snoc hls).snoc hls') (by simp)
  have hscales : SubPeriod.ofClauses [⟨.week, [.single n]⟩, ⟨.weekday, [.single weekday]⟩] =
      .clauses [⟨.week, [.single n]⟩, ⟨.weekday, [.single weekday]⟩] := rfl
  simpa [parse, nthWeekday, Nat.toString_eq_repr, hscales] using hchars

theorem holds_week_weekday_iff {n weekday : Nat} {t : DateTime} :
    holds t ⟨[.clauses [⟨.week, [.single n]⟩, ⟨.weekday, [.single weekday]⟩]]⟩ = true ↔
      (t.date.day - 1) / 7 + 1 = n ∧ t.date.weekday = weekday := by
  have hspans : holds t ⟨[.clauses [⟨.week, [.single n]⟩, ⟨.weekday, [.single weekday]⟩]]⟩ =
      true ↔ (Span.single n).Covers .week t ∧ (Span.single weekday).Covers .weekday t := by
    simp [holds, isUnconstrained, SubPeriod.holds, Clause.holds_iff]
  rw [hspans, Span.covers_single_iff (by decide), Span.covers_single_iff (by decide)]
  simp only [Scale.field]
  omega

section Month

variable {year : Int} {month weekday : Nat}

/-- A date of the month is in its week `n` and falls on the weekday if it is the `n`-th to do so. -/
theorem holdsAt_nthWeekday (hw : 1 ≤ weekday ∧ weekday ≤ 7) {n : Nat} (hn : 1 ≤ n ∧ n ≤ 5)
    {d : Date} (hd : d ∈ datesOf year month) (time : Time) :
    holdsAt (nthWeekday n weekday) ⟨d, time⟩ =
      .ok (decide ((weekdaysOf year month weekday)[n - 1]? = some d)) := by
  obtain ⟨first, hfirst, hweekdays⟩ := exists_first_weekday year month hw
  have ⟨_, _⟩ := d.valid
  rw [holdsAt_of_parse (parse_nthWeekday hn hw), Except.ok.injEq, Bool.eq_iff_iff,
    holds_week_weekday_iff, decide_eq_true_iff, getElem?_weekdaysOf_iff hfirst hweekdays hd,
    hweekdays d hd]
  simp only
  omega

theorem length_weekdaysOf_bounds (year : Int) (hmonth : 1 ≤ month ∧ month ≤ 12)
    (hw : 1 ≤ weekday ∧ weekday ≤ 7) :
    4 ≤ (weekdaysOf year month weekday).length ∧ (weekdaysOf year month weekday).length ≤ 5 := by
  obtain ⟨first, hfirst, hweekdays⟩ := exists_first_weekday year month hw
  have hleast : 28 ≤ monthLength year month := monthLength_ge hmonth.1 hmonth.2
  have hgreatest := monthLength_le year month
  rw [length_weekdaysOf hfirst hweekdays]
  omega

/-- In every month the text for the `n`-th of a weekday holds on that day, whatever the time, and on
no other. There is one day for each `n` up to four, and a fifth in the months that have the weekday
five times. -/
theorem holdsAt_nthWeekday_of_month (year : Int) (hmonth : 1 ≤ month ∧ month ≤ 12)
    (hw : 1 ≤ weekday ∧ weekday ≤ 7) :
    (∀ n, 1 ≤ n ∧ n ≤ 5 → ∀ d : Date, d.year = year → d.month = month → ∀ time,
      holdsAt (nthWeekday n weekday) ⟨d, time⟩ =
        .ok (decide ((weekdaysOf year month weekday)[n - 1]? = some d))) ∧
    (∀ n, 1 ≤ n ∧ n ≤ 4 → ∃ d : Date, d.year = year ∧ d.month = month ∧
      ∀ d' : Date, d'.year = year → d'.month = month → ∀ time,
        holdsAt (nthWeekday n weekday) ⟨d', time⟩ = .ok (decide (d' = d))) ∧
    (∀ d d' : Date, d.year = year → d.month = month → d'.year = year → d'.month = month →
      ∀ time time', holdsAt (nthWeekday 5 weekday) ⟨d, time⟩ = .ok true →
        holdsAt (nthWeekday 5 weekday) ⟨d', time'⟩ = .ok true → d = d') ∧
    ((∃ d : Date, d.year = year ∧ d.month = month ∧
        ∃ time, holdsAt (nthWeekday 5 weekday) ⟨d, time⟩ = .ok true) ↔
      5 ≤ (weekdaysOf year month weekday).length) := by
  have hholds : ∀ n, 1 ≤ n ∧ n ≤ 5 → ∀ d : Date, d.year = year → d.month = month → ∀ time,
      holdsAt (nthWeekday n weekday) ⟨d, time⟩ =
        .ok (decide ((weekdaysOf year month weekday)[n - 1]? = some d)) :=
    fun n hn d hyear hmonth => holdsAt_nthWeekday hw hn (mem_datesOf.mpr ⟨hyear, hmonth⟩)
  have hfifth : ∀ d : Date, d.year = year → d.month = month → ∀ time,
      holdsAt (nthWeekday 5 weekday) ⟨d, time⟩ = .ok true ↔
        (weekdaysOf year month weekday)[4]? = some d := by
    intro d hyear hmonth time
    rw [hholds 5 (by decide) d hyear hmonth, Except.ok.injEq, decide_eq_true_iff]
  refine ⟨hholds, ?_, ?_, ?_⟩
  · intro n hn
    have hlength := length_weekdaysOf_bounds year hmonth hw
    have hlt : n - 1 < (weekdaysOf year month weekday).length := by omega
    obtain ⟨d, hyear, hmonth, hd⟩ := exists_getElem?_weekdaysOf hlt
    refine ⟨d, hyear, hmonth, ?_⟩
    intro d' hyear' hmonth' time
    rw [hholds n ⟨hn.1, by omega⟩ d' hyear' hmonth', hd]
    simp only [Option.some.injEq, eq_comm]
  · intro d d' hyear hmonth hyear' hmonth' time time' h h'
    rw [hfifth d hyear hmonth] at h
    rw [hfifth d' hyear' hmonth'] at h'
    exact Option.some.inj (h.symm.trans h')
  · constructor
    · rintro ⟨d, hyear, hmonth, time, h⟩
      rw [hfifth d hyear hmonth] at h
      exact (List.getElem?_eq_some_iff.mp h).1
    · intro hlength
      obtain ⟨d, hyear, hmonth, hd⟩ := exists_getElem?_weekdaysOf hlength
      exact ⟨d, hyear, hmonth, DateTime.epoch.time, (hfifth d hyear hmonth _).mpr hd⟩

end Month

/-- February 2024 has five Thursdays, and four Fridays. -/
theorem holdsAt_nthWeekday_of_month_of_leap_year :
    let d : Date := ⟨2024, 2, 29, by decide⟩
    (1 ≤ 2 ∧ 2 ≤ 12) ∧ (1 ≤ 5 ∧ 5 ≤ 7) ∧ (1 ≤ 6 ∧ 6 ≤ 7) ∧
      (weekdaysOf 2024 2 5).length = 5 ∧ (weekdaysOf 2024 2 6).length = 4 ∧
      (∀ time, holdsAt (nthWeekday 5 5) ⟨d, time⟩ = .ok true) ∧
      (∃ d : Date, d.year = 2024 ∧ d.month = 2 ∧
        ∃ time, holdsAt (nthWeekday 5 5) ⟨d, time⟩ = .ok true) ∧
      (∃ d : Date, d.year = 2024 ∧ d.month = 2 ∧
        ∀ d' : Date, d'.year = 2024 → d'.month = 2 → ∀ time,
          holdsAt (nthWeekday 4 6) ⟨d', time⟩ = .ok (decide (d' = d))) ∧
      ¬ ∃ d : Date, d.year = 2024 ∧ d.month = 2 ∧
        ∃ time, holdsAt (nthWeekday 5 6) ⟨d, time⟩ = .ok true := by
  intro d
  have hmonth : 1 ≤ 2 ∧ 2 ≤ 12 := by decide
  have hthursday : 1 ≤ 5 ∧ 5 ≤ 7 := by decide
  have hfriday : 1 ≤ 6 ∧ 6 ≤ 7 := by decide
  have hthursdays : (weekdaysOf 2024 2 5).length = 5 := by decide
  have hfridays : (weekdaysOf 2024 2 6).length = 4 := by decide
  have hlast : (weekdaysOf 2024 2 5)[4]? = some d := by decide
  obtain ⟨hholds, -, -, hfive⟩ := holdsAt_nthWeekday_of_month 2024 hmonth hthursday
  obtain ⟨-, hfour, -, hnofive⟩ := holdsAt_nthWeekday_of_month 2024 hmonth hfriday
  refine ⟨hmonth, hthursday, hfriday, hthursdays, hfridays, ?_, ?_, ?_, ?_⟩
  · intro time
    rw [hholds 5 (by decide) d rfl rfl time, hlast]
    simp
  · exact hfive.mpr (Nat.le_of_eq hthursdays.symm)
  · exact hfour 4 (by decide)
  · intro h
    have hlength := hnofive.mp h
    rw [hfridays] at hlength
    exact absurd hlength (by decide)

end Period

end Recurrence
