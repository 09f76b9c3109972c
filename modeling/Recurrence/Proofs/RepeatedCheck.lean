import Mathlib
import Recurrence.Proofs.PrintedForm
import Recurrence.Proofs.SameInstant
import Recurrence.Proofs.WrittenTimestamp

/-! A report checked again from its own texts. What a timestamp is read from keeps its leap second
at the end of a minute, also on the clock of UTC, so only the length of the year can stand in the
way. -/

namespace Recurrence

namespace Timestamp

theorem exists_of_bind {α β : Type} {first : Reader α} {next : α → Reader β} {text : List Char}
    {found : β × List Char} (h : (first >>= next) text = .ok found) :
    ∃ a rest, first text = .ok (a, rest) ∧ next a rest = .ok found := by
  change (first text >>= fun part => next part.1 part.2) = _ at h
  obtain ⟨⟨a, rest⟩, hfirst, hnext⟩ := ok_of_bind h
  exact ⟨a, rest, hfirst, hnext⟩

theorem leapEndsMinute_of_timeOf? {hour minute second nanosecond : Nat} {t : Time}
    (h : timeOf? hour minute second nanosecond = some t) : t.LeapEndsMinute := by
  intro hleap
  unfold timeOf? Time.of? at h
  split at h
  · split at h
    · cases h
      rfl
    · cases h
  · split at h
    · cases h
      cases hleap
    · cases h

theorem leapEndsMinute_of_readTime {text rest : List Char} {t : Time}
    (h : readTime text = .ok (t, rest)) : t.LeapEndsMinute := by
  unfold readTime at h
  obtain ⟨hour, _, -, h⟩ := exists_of_bind h
  obtain ⟨_, _, -, h⟩ := exists_of_bind h
  obtain ⟨minute, _, -, h⟩ := exists_of_bind h
  obtain ⟨_, _, -, h⟩ := exists_of_bind h
  obtain ⟨second, _, -, h⟩ := exists_of_bind h
  obtain ⟨nanosecond, _, -, h⟩ := exists_of_bind h
  cases htime : timeOf? hour minute second nanosecond with
  | none =>
    rw [htime] at h
    cases h
  | some time =>
    rw [htime] at h
    cases h
    exact leapEndsMinute_of_timeOf? htime

theorem emod_of_readShift {text rest : List Char} {seconds : Nat}
    (h : readShift text = .ok (seconds, rest)) : seconds % 60 = 0 := by
  unfold readShift at h
  obtain ⟨_, _, -, h⟩ := exists_of_bind h
  obtain ⟨hours, _, -, h⟩ := exists_of_bind h
  obtain ⟨_, _, -, h⟩ := exists_of_bind h
  obtain ⟨_, _, -, h⟩ := exists_of_bind h
  obtain ⟨minutes, _, -, h⟩ := exists_of_bind h
  split at h
  · cases h
  · cases h
    omega

theorem emod_of_readOffset {text rest : List Char} {offset : Int}
    (h : readOffset text = .ok (offset, rest)) : offset % 60 = 0 := by
  cases text with
  | nil => cases h
  | cons c text =>
    rw [readOffset] at h
    split at h
    · cases h
      rfl
    · split at h
      · rename_i sign _
        obtain ⟨⟨seconds, left⟩, hshift, h⟩ := ok_of_bind h
        have hseconds : (60 : Int) ∣ seconds := by
          have := emod_of_readShift hshift
          omega
        cases h
        exact Int.emod_eq_zero_of_dvd (hseconds.mul_left sign)
      · cases h

theorem aligned_of_ofChars {text : List Char} {t : Timestamp} (h : ofChars text = .ok t) :
    t.clock.time.LeapEndsMinute ∧ t.offset % 60 = 0 := by
  unfold ofChars at h
  obtain ⟨⟨clock, left⟩, hclock, h⟩ := ok_of_bind h
  obtain ⟨⟨offset, trailing⟩, hoffset, h⟩ := ok_of_bind h
  have hvalue : t = ⟨clock, offset⟩ := by
    simp only at h
    split at h
    · cases h
    · split at h
      · cases h
      · cases h
        rfl
  subst hvalue
  refine ⟨?_, emod_of_readOffset hoffset⟩
  unfold readDateTime at hclock
  obtain ⟨_, _, -, hclock⟩ := exists_of_bind hclock
  obtain ⟨date, _, -, hclock⟩ := exists_of_bind hclock
  obtain ⟨_, _, -, hclock⟩ := exists_of_bind hclock
  obtain ⟨time, _, htime, hclock⟩ := exists_of_bind hclock
  cases hclock
  exact leapEndsMinute_of_readTime htime

end Timestamp

theorem DateTime.second_shift (t : DateTime) {n : Int} (h : n % 60 = 0) :
    (t.shift n).time.second = t.time.second := by
  have := t.time.second_lt
  simp only [shift, Time.withSecondOfDay, seconds, Time.secondOfDay]
  omega

theorem DateTime.leapEndsMinute_shift {t : DateTime} (h : t.time.LeapEndsMinute) {n : Int}
    (hn : n % 60 = 0) : (t.shift n).time.LeapEndsMinute := by
  intro hleap
  rw [t.second_shift hn]
  exact h hleap

theorem Timestamp.leapEndsMinute_instant {text : String} {t : Timestamp} (h : parse text = .ok t) :
    t.instant.time.LeapEndsMinute := by
  have ⟨hends, hoffset⟩ := aligned_of_ofChars h
  exact DateTime.leapEndsMinute_shift hends (by omega)

theorem Period.parse_text_of_parse {text : String} {p : Period} (h : parse text = .ok p) :
    parse p.text = .ok p := by
  have hwellFormed := wellFormed_of_ofChars h
  have hparse := ofChars_of_writes hwellFormed.writes
  rwa [hwellFormed.map_gathered] at hparse

namespace Timestamp

theorem parse_text_utc {instant : DateTime} (hends : instant.time.LeapEndsMinute)
    (hyear : 0 ≤ instant.date.year ∧ instant.date.year ≤ 9999) :
    parse (Timestamp.mk instant 0).text = .ok ⟨instant, 0⟩ :=
  ofChars_text_eq_self hyear hends rfl (Nat.zero_lt_succ _)

theorem parse_text_utc_of_signedYear {instant : DateTime}
    (hyear : ¬ (0 ≤ instant.date.year ∧ instant.date.year ≤ 9999)) :
    parse (Timestamp.mk instant 0).text = .error .invalid := ofChars_of_signedYear hyear

theorem instant_utc (instant : DateTime) : (Timestamp.mk instant 0).instant = instant :=
  instant.shift_zero

end Timestamp

theorem checkIn_texts_of_checkIn {zones : ZoneTable} {expression datetime timezone : String}
    {c : Report} (h : checkIn zones expression datetime timezone = .ok c) :
    ∃ t, Timestamp.parse datetime = .ok t ∧
      (checkIn zones c.expression c.utc c.timezone = .ok c ↔
        0 ≤ t.instant.date.year ∧ t.instant.date.year ≤ 9999) ∧
      (¬ (0 ≤ t.instant.date.year ∧ t.instant.date.year ≤ 9999) →
        checkIn zones c.expression c.utc c.timezone = .error (.datetime c.utc .invalid)) := by
  obtain ⟨period, t, offsetAt, hperiod, htimestamp, hzone, rfl⟩ := checkIn_eq_ok_iff.mp h
  have hexpression := Period.parse_text_of_parse hperiod
  refine ⟨t, htimestamp, ?_⟩
  by_cases hyear : 0 ≤ t.instant.date.year ∧ t.instant.date.year ≤ 9999
  · have hutc := Timestamp.parse_text_utc (Timestamp.leapEndsMinute_instant htimestamp) hyear
    have hcheck := checkIn_of_zone hexpression hutc hzone
    rw [Timestamp.instant_utc] at hcheck
    exact ⟨iff_of_true hcheck hyear, fun hlong => absurd hyear hlong⟩
  · have hutc := Timestamp.parse_text_utc_of_signedYear hyear
    have hcheck : checkIn zones period.text (Timestamp.mk t.instant 0).text timezone =
        .error (.datetime (Timestamp.mk t.instant 0).text .invalid) :=
      checkIn_of_timestampFault hexpression hutc
    refine ⟨iff_of_false ?_ hyear, fun _ => hcheck⟩
    intro hok
    cases hcheck.symm.trans hok

/-- A leap second with a fraction, and a year that only has five digits in UTC. -/
theorem checkIn_texts_of_year_end :
    (∃ c, checkIn .named "hr\x7b9-17\x7d" "2016-12-31T18:59:60.5-05:00" "Asia/Tokyo" = .ok c ∧
      c.utc = "2016-12-31T23:59:60.500+00:00" ∧
      checkIn .named c.expression c.utc c.timezone = .ok c) ∧
    ∃ c, checkIn .named "hr\x7b9-17\x7d" "9999-12-31T19:30:00-05:00" "Asia/Tokyo" = .ok c ∧
      c.utc = "+10000-01-01T00:30:00+00:00" ∧
      checkIn .named c.expression c.utc c.timezone = .error (.datetime c.utc .invalid) := by
  let period : Period := ⟨[.clauses [⟨.hour, [⟨9, 17⟩]⟩]]⟩
  have hperiod : Period.parse "hr\x7b9-17\x7d" = .ok period := rfl
  have hzone : ZoneTable.named "Asia/Tokyo" = some fun instant => Zone.tokyo.offsetAt instant := rfl
  constructor
  · let leapSecond : Timestamp := ⟨⟨⟨2016, 12, 31, by decide⟩,
      ⟨18, 59, 59, 500000000, true, by decide, by decide, by decide, by decide⟩⟩, -18000⟩
    have htimestamp : Timestamp.parse "2016-12-31T18:59:60.5-05:00" = .ok leapSecond := by cbv
    have hcheck := checkIn_of_zone hperiod htimestamp hzone
    obtain ⟨t, ht, hiff, -⟩ := checkIn_texts_of_checkIn hcheck
    cases htimestamp.symm.trans ht
    exact ⟨_, hcheck, by decide +kernel, hiff.mpr (by decide +kernel)⟩
  · let lateYear : Timestamp := ⟨⟨⟨9999, 12, 31, by decide⟩,
      ⟨19, 30, 0, 0, false, by decide, by decide, by decide, by decide⟩⟩, -18000⟩
    have htimestamp : Timestamp.parse "9999-12-31T19:30:00-05:00" = .ok lateYear := by cbv
    have hcheck := checkIn_of_zone hperiod htimestamp hzone
    obtain ⟨t, ht, -, hlong⟩ := checkIn_texts_of_checkIn hcheck
    cases htimestamp.symm.trans ht
    exact ⟨_, hcheck, by decide +kernel, hlong (by decide +kernel)⟩

end Recurrence
