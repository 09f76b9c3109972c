import Mathlib
import Recurrence.Proofs.Meaning
import Recurrence.Proofs.RepeatedCheck

/-! A check in any table of zones: a zone enters it by one number, the offset at the instant, and
the rest is the evaluation of the period on the wall clock which that offset gives. -/

namespace Recurrence

def weekdayNames : List String :=
  ["Sunday", "Monday", "Tuesday", "Wednesday", "Thursday", "Friday", "Saturday"]

namespace Date

theorem getElem?_weekdayNames (d : Date) :
    weekdayNames[d.weekday - 1]? = some d.weekdayName := by
  have ⟨_, _⟩ := d.weekday_bounds
  obtain h | h | h | h | h | h | h : d.weekday = 1 ∨ d.weekday = 2 ∨ d.weekday = 3 ∨
      d.weekday = 4 ∨ d.weekday = 5 ∨ d.weekday = 6 ∨ d.weekday = 7 := by omega
  all_goals
    rw [weekdayName, h]
    rfl

theorem eq_weekdayName_iff {n : Nat} {name : String} (h : weekdayNames[n]? = some name)
    (d : Date) : name = d.weekdayName ↔ d.weekday = n + 1 := by
  have ⟨_, _⟩ := d.weekday_bounds
  have hname := d.getElem?_weekdayNames
  constructor
  · rintro rfl
    have hlt : n < weekdayNames.length := (List.getElem?_eq_some_iff.mp h).1
    have hplace : n = d.weekday - 1 :=
      (List.getElem?_inj hlt (by decide)).mp (h.trans hname.symm)
    omega
  · intro hn
    rw [hn, Nat.add_sub_cancel, h] at hname
    exact Option.some.inj hname

end Date

namespace Period

def onWeekday (value : Nat) : Period := ⟨[.clauses [⟨.weekday, [.single value]⟩]]⟩

theorem parse_weekdayName {n : Nat} {name : String} (h : weekdayNames[n]? = some name) :
    parse ("wd \x7b" ++ name ++ "\x7d") = .ok (onWeekday (n + 1)) := by
  have htext : ("wd \x7b" ++ name ++ "\x7d").toList =
      "wd \x7b".toList ++ name.toList ++ "\x7d".toList := by
    rw [String.toList_append, String.toList_append]
  have hn : n < 7 := (List.getElem?_eq_some_iff.mp h).1
  rw [parse, htext]
  obtain rfl | rfl | rfl | rfl | rfl | rfl | rfl :
    n = 0 ∨ n = 1 ∨ n = 2 ∨ n = 3 ∨ n = 4 ∨ n = 5 ∨ n = 6 := by omega
  all_goals
    cases h
    rfl

theorem holds_onWeekday {value : Nat} {t : DateTime} :
    (onWeekday value).holds t = true ↔ t.date.weekday = value := by
  have hcovers : (onWeekday value).holds t = true ↔ (Span.single value).Covers .weekday t := by
    simp [onWeekday, holds, isUnconstrained, SubPeriod.holds, Clause.holds_iff]
  rw [hcovers, Span.covers_single_iff (by decide), Scale.field]
  omega

end Period

/-- A check fails on the first of the three texts that is not valid and on nothing else. Otherwise
it evaluates the period where the clocks of the zone stand, at `t.instant` moved by the offset that
they have then, the canonical expression gives the same report, and the weekday is the one that the
clocks show. -/
theorem checkIn_outcome (zones : ZoneTable) (expression datetime timezone : String) :
    (∀ fault, checkIn zones expression datetime timezone = .error fault ↔
      (∃ f, Period.parse expression = .error f ∧ fault = .expression f) ∨
      (∃ period, Period.parse expression = .ok period) ∧
        ((∃ f, Timestamp.parse datetime = .error f ∧ fault = .datetime datetime f) ∨
        (∃ t, Timestamp.parse datetime = .ok t) ∧
          zones timezone = none ∧ fault = .timezone timezone)) ∧
    ∀ c, checkIn zones expression datetime timezone = .ok c →
      ∃ t offsetAt, Timestamp.parse datetime = .ok t ∧ zones timezone = some offsetAt ∧
        Period.holdsAt expression (t.instant.shift (offsetAt t.instant)) = .ok c.inside ∧
        checkIn zones c.expression datetime timezone = .ok c ∧
        c.weekday ∈ weekdayNames ∧
        ∀ name ∈ weekdayNames, ∃ c',
          checkIn zones ("wd \x7b" ++ name ++ "\x7d") datetime timezone = .ok c' ∧
            (c'.inside = true ↔ name = c.weekday) := by
  refine ⟨fun _ => checkIn_eq_error_iff, ?_⟩
  intro c h
  obtain ⟨period, t, offsetAt, hperiod, htimestamp, hzone, rfl⟩ := checkIn_eq_ok_iff.mp h
  let wallClock := t.instant.shift (offsetAt t.instant)
  refine ⟨t, offsetAt, htimestamp, hzone, Period.holdsAt_of_parse hperiod wallClock, ?_, ?_, ?_⟩
  · exact checkIn_of_zone (Period.parse_text_of_parse hperiod) htimestamp hzone
  · exact List.mem_of_getElem? wallClock.date.getElem?_weekdayNames
  · intro name hname
    obtain ⟨n, hn⟩ := List.mem_iff_getElem?.mp hname
    refine ⟨_, checkIn_of_zone (Period.parse_weekdayName hn) htimestamp hzone, ?_⟩
    change (Period.onWeekday (n + 1)).holds wallClock = true ↔ name = wallClock.date.weekdayName
    rw [Period.holds_onWeekday, Date.eq_weekdayName_iff hn]

/-- It is still Friday in New York. -/
theorem checkIn_outcome_of_day_before :
    ∃ c, check "hr\x7b22\x7d" "2026-02-21T03:00:00Z" "US/Eastern" = .ok c ∧
      c.weekday = "Friday" ∧ c.inside = true ∧
      check c.expression "2026-02-21T03:00:00Z" "US/Eastern" = .ok c ∧
      (∃ c', check ("wd \x7b" ++ "Friday" ++ "\x7d") "2026-02-21T03:00:00Z" "US/Eastern" =
        .ok c' ∧ c'.inside = true) ∧
      ∃ c', check ("wd \x7b" ++ "Saturday" ++ "\x7d") "2026-02-21T03:00:00Z" "US/Eastern" =
        .ok c' ∧ c'.inside = false := by
  let early : Timestamp := ⟨⟨⟨2026, 2, 21, by decide⟩,
    ⟨3, 0, 0, 0, false, by decide, by decide, by decide, by decide⟩⟩, 0⟩
  have htimestamp : Timestamp.parse "2026-02-21T03:00:00Z" = .ok early := by cbv
  let period : Period := ⟨[.clauses [⟨.hour, [.single 22]⟩]]⟩
  have hperiod : Period.parse "hr\x7b22\x7d" = .ok period := rfl
  have hzone : ZoneTable.named "US/Eastern" = some fun instant => Zone.newYork.offsetAt instant :=
    rfl
  let c := Report.ofInstant period early.instant "US/Eastern"
    (Zone.newYork.offsetAt early.instant)
  have hcheck : check "hr\x7b22\x7d" "2026-02-21T03:00:00Z" "US/Eastern" = .ok c :=
    checkIn_eq_ok_iff.mpr ⟨period, early, _, hperiod, htimestamp, hzone, rfl⟩
  have hfriday : c.weekday = "Friday" := by decide +kernel
  have hlate : c.inside = true := by decide +kernel
  obtain ⟨-, -, -, -, -, hcanonical, -, hweekday⟩ := (checkIn_outcome _ _ _ _).2 _ hcheck
  rw [hfriday] at hweekday
  obtain ⟨friday, hread, hinside⟩ := hweekday "Friday" (by decide)
  obtain ⟨saturday, hread', hinside'⟩ := hweekday "Saturday" (by decide)
  have hfalse : saturday.inside = false := by simpa using hinside'
  refine ⟨c, hcheck, hfriday, hlate, hcanonical, ?_, ?_⟩
  · exact ⟨friday, hread, hinside.mpr rfl⟩
  · exact ⟨saturday, hread', hfalse⟩

end Recurrence
