import Mathlib
import Recurrence.Proofs.WallClock

/-! The wall clock of a report, read back as a timestamp. The form has no seconds for an offset, so
it stands for the instant exactly where the offset is in whole minutes. -/

namespace Recurrence

namespace Time

/-- The time that the form shows: a leap second inside a minute has the number of the second after
it. -/
def shown (t : Time) : Time :=
  if h : t.leap = true ∧ t.second ≠ 59 then
    ⟨t.hour, t.minute, t.second + 1, t.nanosecond, false, t.hour_lt, t.minute_lt,
      Nat.lt_of_le_of_ne t.second_lt fun he => h.2 (Nat.succ.inj he), t.nanosecond_lt⟩
  else t

theorem shown_of_leapEndsMinute {t : Time} (h : t.LeapEndsMinute) : t.shown = t :=
  dif_neg fun hinside => hinside.2 (h hinside.1)

theorem leap_shown {t : Time} (h : ¬ t.LeapEndsMinute) : t.leap = true ∧ t.shown.leap = false := by
  have hinside : t.leap = true ∧ t.second ≠ 59 := by
    unfold LeapEndsMinute at h
    push Not at h
    exact h
  refine ⟨hinside.1, ?_⟩
  rw [shown, dif_pos hinside]

theorem leapEndsMinute_shown (t : Time) : t.shown.LeapEndsMinute := by
  by_cases h : t.LeapEndsMinute
  · rwa [shown_of_leapEndsMinute h]
  · intro hleap
    rw [(leap_shown h).2] at hleap
    cases hleap

theorem text_shown (t : Time) : t.shown.text = t.text := by
  unfold shown
  split
  case isTrue hinside => simp [text, hinside.1]
  case isFalse => rfl

end Time

namespace DateTime

theorem shift_shift (t : DateTime) (m n : Int) : (t.shift m).shift n = t.shift (m + n) := by
  apply shift_eq_shift_iff.mpr
  refine ⟨?_, rfl, rfl⟩
  rw [seconds_shift]
  omega

end DateTime

namespace Timestamp

theorem instant_ofInstant (instant : DateTime) (offset : Int) :
    (ofInstant instant offset).instant = instant := by
  have hback : (ofInstant instant offset).instant = instant.shift (offset + -offset) :=
    instant.shift_shift offset (-offset)
  rw [hback, Int.add_right_neg, DateTime.shift_zero]

def shown (t : Timestamp) : Timestamp :=
  ⟨⟨t.clock.date, t.clock.time.shown⟩, wholeMinutes t.offset⟩

theorem natAbs_wholeMinutes_le (offset : Int) :
    (wholeMinutes offset).natAbs ≤ offset.natAbs + 30 := by
  unfold wholeMinutes
  split <;> omega

/-- What is read is what is shown, or nothing where the offset is a whole day once it is
rounded. -/
theorem eq_shown_of_ofChars_text {t t' : Timestamp}
    (hyear : 0 ≤ t.clock.date.year ∧ t.clock.date.year ≤ 9999) (hday : t.offset.natAbs < 86400)
    (h : ofChars t.text.toList = .ok t') : t' = t.shown := by
  have htext : t.text.toList =
      (DateTime.mk t.clock.date t.clock.time.shown).text.toList ++ (offsetText t.offset).toList := by
    rw [Timestamp.text, String.toList_append, DateTime.text, DateTime.text, Time.text_shown]
  have hclock := readDateTime_text (t := ⟨t.clock.date, t.clock.time.shown⟩) hyear
    t.clock.time.leapEndsMinute_shown (endsFraction_offsetText t.offset)
  have hle := natAbs_wholeMinutes_le t.offset
  have hoffset : readOffset (offsetText t.offset).toList = .ok (wholeMinutes t.offset, []) :=
    readOffset_text (by omega)
  rw [htext, ofChars_of_read hclock hoffset] at h
  split at h
  · cases h
  · cases h
    rfl

theorem emod_wholeMinutes (offset : Int) : wholeMinutes offset % 60 = 0 := by
  unfold wholeMinutes
  split <;> omega

theorem wholeMinutes_eq_of_instant_shown {instant : DateTime} {offset : Int}
    (h : (ofInstant instant offset).shown.instant = instant) : wholeMinutes offset = offset := by
  have hleap : (instant.shift offset).time.shown.leap = instant.time.leap :=
    congrArg (fun t : DateTime => t.time.leap) h
  -- A leap second inside a minute is shown as an ordinary second and would lose its mark.
  have hends : (instant.shift offset).time.LeapEndsMinute := by
    by_contra hinside
    obtain ⟨hmarked, hunmarked⟩ := Time.leap_shown hinside
    have hkept : (instant.shift offset).time.leap = instant.time.leap := rfl
    rw [hkept, ← hleap, hunmarked] at hmarked
    cases hmarked
  have hshown : (ofInstant instant offset).shown = ⟨instant.shift offset, wholeMinutes offset⟩ := by
    rw [shown, ofInstant, Time.shown_of_leapEndsMinute hends]
  have hmoved : instant.shift (offset + -wholeMinutes offset) = instant := by
    rw [← DateTime.shift_shift]
    rw [hshown] at h
    exact h
  have hseconds := instant.seconds_shift (offset + -wholeMinutes offset)
  rw [hmoved] at hseconds
  omega

theorem exists_parse_text_ofInstant_iff {instant : DateTime} {offset : Int}
    (hends : instant.time.LeapEndsMinute)
    (hyear : 0 ≤ (instant.shift offset).date.year ∧ (instant.shift offset).date.year ≤ 9999)
    (hday : offset.natAbs < 86400) :
    (∃ t, parse (ofInstant instant offset).text = .ok t ∧ t.instant = instant) ↔
      offset % 60 = 0 := by
  constructor
  · rintro ⟨t, hread, hinstant⟩
    obtain rfl := eq_shown_of_ofChars_text (t := ofInstant instant offset) hyear hday hread
    rw [← wholeMinutes_eq_of_instant_shown hinstant]
    exact emod_wholeMinutes offset
  · intro hminutes
    have hends' := DateTime.leapEndsMinute_shift hends hminutes
    exact ⟨_, ofChars_text_eq_self (t := ofInstant instant offset) hyear hends' hminutes hday,
      instant_ofInstant instant offset⟩

theorem text_utc_inj {instant instant' : DateTime} (hends : instant.time.LeapEndsMinute)
    (hends' : instant'.time.LeapEndsMinute)
    (hyear : 0 ≤ instant.date.year ∧ instant.date.year ≤ 9999)
    (h : (Timestamp.mk instant 0).text = (Timestamp.mk instant' 0).text) : instant = instant' := by
  have hread := parse_text_utc hends hyear
  by_cases hyear' : 0 ≤ instant'.date.year ∧ instant'.date.year ≤ 9999
  · rw [h, parse_text_utc hends' hyear'] at hread
    cases hread
    rfl
  · rw [h, parse_text_utc_of_signedYear hyear'] at hread
    cases hread

end Timestamp

namespace Zone

def offsets : Zone → List Int
  | fixed offset => [offset]
  | changing initial changes => initial :: changes.map Change.offset
  | yearly standard summer _ _ => [standard, summer]

theorem offsetAt_mem (instant : DateTime) (zone : Zone) :
    zone.offsetAt instant ∈ zone.offsets := by
  cases zone with
  | fixed offset => exact List.mem_cons_self
  | changing initial changes =>
    apply List.foldlRecOn changes _ List.mem_cons_self
    intro offset hoffset c hc
    split
    · exact List.mem_cons_of_mem _ (List.mem_map_of_mem hc)
    · exact hoffset
  | yearly standard summer begins ends =>
    simp only [offsetAt, offsets]
    split <;> simp

end Zone

namespace ZoneTable

def WithinDay (zones : ZoneTable) : Prop :=
  ∀ name offsetAt, zones name = some offsetAt → ∀ instant, (offsetAt instant).natAbs < 86400

theorem withinDay_named : named.WithinDay := by
  intro name offsetAt h instant
  obtain ⟨zone, hzone, rfl⟩ := Option.map_eq_some_iff.mp h
  have hcatalogue : (Zone.catalogue.all fun entry =>
      entry.2.offsets.all fun offset => offset.natAbs < 86400) = true := by decide
  obtain ⟨before, after, hentry, -⟩ := List.lookup_eq_some_iff.mp hzone
  have hmem : (name, zone) ∈ Zone.catalogue := by simp [hentry]
  have hzoneOffsets := List.all_eq_true.mp hcatalogue _ hmem
  have hoffset := List.all_eq_true.mp hzoneOffsets _ (Zone.offsetAt_mem instant zone)
  exact of_decide_eq_true hoffset

end ZoneTable

/-- Within the years of four digits, the wall clock of a report stands for the instant that was
checked, and gives the same report again, exactly where the offset of the zone has no seconds. -/
theorem checkIn_wallClock_iff {zones : ZoneTable} (hday : zones.WithinDay)
    {expression datetime timezone : String} {c : Report}
    (h : checkIn zones expression datetime timezone = .ok c) :
    ∃ t offsetAt, Timestamp.parse datetime = .ok t ∧ zones timezone = some offsetAt ∧
      (0 ≤ t.instant.date.year ∧ t.instant.date.year ≤ 9999 →
        0 ≤ (t.instant.shift (offsetAt t.instant)).date.year ∧
          (t.instant.shift (offsetAt t.instant)).date.year ≤ 9999 →
        (∃ u, Timestamp.parse c.utc = .ok u ∧
          ((∃ w, Timestamp.parse c.wallClock = .ok w ∧ w.instant = u.instant) ↔
            offsetAt t.instant % 60 = 0)) ∧
        (checkIn zones c.expression c.wallClock c.timezone = .ok c ↔
          offsetAt t.instant % 60 = 0)) := by
  obtain ⟨period, t, offsetAt, hperiod, htimestamp, hzone, rfl⟩ := checkIn_eq_ok_iff.mp h
  refine ⟨t, offsetAt, htimestamp, hzone, ?_⟩
  intro hyear hyear'
  have hends := Timestamp.leapEndsMinute_instant htimestamp
  have hread := Timestamp.exists_parse_text_ofInstant_iff hends hyear'
    (hday timezone offsetAt hzone t.instant)
  constructor
  · refine ⟨⟨t.instant, 0⟩, Timestamp.parse_text_utc hends hyear, ?_⟩
    rw [Timestamp.instant_utc]
    exact hread
  · rw [← hread]
    constructor
    · intro hagain
      obtain ⟨period', w, offsetAt', -, hw, -, hreport⟩ := checkIn_eq_ok_iff.mp hagain
      refine ⟨w, hw, ?_⟩
      have hutc := congrArg Report.utc hreport
      exact (Timestamp.text_utc_inj hends (Timestamp.leapEndsMinute_instant hw) hyear hutc).symm
    · rintro ⟨w, hw, hinstant⟩
      have hagain := checkIn_of_zone (Period.parse_text_of_parse hperiod) hw hzone
      rw [hinstant] at hagain
      exact hagain

/-- The first moment of Nepal's present offset, when the year had ended there and not in UTC. -/
theorem checkIn_wallClock_iff_of_whole_minutes :
    ZoneTable.named.WithinDay ∧
      ∃ c, check "always" "1985-12-31T18:30:00Z" "Asia/Kathmandu" = .ok c ∧
        c.wallClock = "1986-01-01T00:15:00+05:45" ∧
        (∃ u w, Timestamp.parse c.utc = .ok u ∧ Timestamp.parse c.wallClock = .ok w ∧
          w.instant = u.instant) ∧
        check c.expression c.wallClock c.timezone = .ok c := by
  let yearEnd : Timestamp := ⟨⟨⟨1985, 12, 31, by decide⟩,
    ⟨18, 30, 0, 0, false, by decide, by decide, by decide, by decide⟩⟩, 0⟩
  have htimestamp : Timestamp.parse "1985-12-31T18:30:00Z" = .ok yearEnd := by cbv
  have hperiod : Period.parse "always" = .ok ⟨[.always]⟩ := rfl
  have hzone : ZoneTable.named "Asia/Kathmandu" =
      some fun instant => Zone.kathmandu.offsetAt instant := rfl
  let c := Report.ofInstant ⟨[.always]⟩ yearEnd.instant "Asia/Kathmandu"
    (Zone.kathmandu.offsetAt yearEnd.instant)
  have hcheck : check "always" "1985-12-31T18:30:00Z" "Asia/Kathmandu" = .ok c :=
    checkIn_eq_ok_iff.mpr ⟨_, yearEnd, _, hperiod, htimestamp, hzone, rfl⟩
  obtain ⟨t, offsetAt, ht, hoffsetAt, hresult⟩ :=
    checkIn_wallClock_iff ZoneTable.withinDay_named hcheck
  cases htimestamp.symm.trans ht
  cases hzone.symm.trans hoffsetAt
  obtain ⟨⟨u, hu, hread⟩, hagain⟩ := hresult (by decide +kernel) (by decide +kernel)
  have hminutes : Zone.kathmandu.offsetAt yearEnd.instant % 60 = 0 := by decide +kernel
  obtain ⟨w, hw, hinstant⟩ := hread.mpr hminutes
  exact ⟨ZoneTable.withinDay_named, c, hcheck, by decide +kernel, ⟨u, w, hu, hw, hinstant⟩,
    hagain.mpr hminutes⟩

/-- Liberia's clocks were 44 minutes and 30 seconds behind UTC until 1972; the form says 45. -/
theorem wallClock_of_seconds_in_offset :
    ∃ c u w, check "always" "1950-01-01T00:00:00Z" "Africa/Monrovia" = .ok c ∧
      c.utc = "1950-01-01T00:00:00+00:00" ∧ c.wallClock = "1949-12-31T23:15:30-00:45" ∧
      Timestamp.parse c.utc = .ok u ∧ Timestamp.parse c.wallClock = .ok w ∧
      w.instant ≠ u.instant ∧ check c.expression c.wallClock c.timezone ≠ .ok c := by
  let newYear : Timestamp := ⟨⟨⟨1950, 1, 1, by decide⟩,
    ⟨0, 0, 0, 0, false, by decide, by decide, by decide, by decide⟩⟩, 0⟩
  let wallClock : Timestamp := ⟨⟨⟨1949, 12, 31, by decide⟩,
    ⟨23, 15, 30, 0, false, by decide, by decide, by decide, by decide⟩⟩, -2700⟩
  have hnewYear : Timestamp.parse "1950-01-01T00:00:00Z" = .ok newYear := by cbv
  have hutc : Timestamp.parse "1950-01-01T00:00:00+00:00" = .ok newYear := by cbv
  have hwallClock : Timestamp.parse "1949-12-31T23:15:30-00:45" = .ok wallClock := by cbv
  have hperiod : Period.parse "always" = .ok ⟨[.always]⟩ := rfl
  have hzone : ZoneTable.named "Africa/Monrovia" =
      some fun instant => Zone.monrovia.offsetAt instant := rfl
  let c := Report.ofInstant ⟨[.always]⟩ newYear.instant "Africa/Monrovia"
    (Zone.monrovia.offsetAt newYear.instant)
  let c' := Report.ofInstant ⟨[.always]⟩ wallClock.instant "Africa/Monrovia"
    (Zone.monrovia.offsetAt wallClock.instant)
  have hcheck : check "always" "1950-01-01T00:00:00Z" "Africa/Monrovia" = .ok c :=
    checkIn_eq_ok_iff.mpr ⟨_, newYear, _, hperiod, hnewYear, hzone, rfl⟩
  have hagain : check "always" "1949-12-31T23:15:30-00:45" "Africa/Monrovia" = .ok c' :=
    checkIn_eq_ok_iff.mpr ⟨_, wallClock, _, hperiod, hwallClock, hzone, rfl⟩
  have htext : c.wallClock = "1949-12-31T23:15:30-00:45" := by decide +kernel
  have htext' : c.utc = "1950-01-01T00:00:00+00:00" := by decide +kernel
  have hinstants : wallClock.instant ≠ newYear.instant := by decide +kernel
  have hreports : c'.utc ≠ c.utc := by decide +kernel
  refine ⟨c, newYear, wallClock, hcheck, htext', htext, htext'.symm ▸ hutc,
    htext.symm ▸ hwallClock, hinstants, ?_⟩
  have hexpression : c.expression = "always" := rfl
  have htimezone : c.timezone = "Africa/Monrovia" := rfl
  rw [htext, hexpression, htimezone, hagain]
  intro hsame
  exact hreports (congrArg Report.utc (Except.ok.inj hsame))

end Recurrence
