import Recurrence.Proofs.CalendarDays
import Recurrence.Proofs.Meaning
import Recurrence.Proofs.WrittenClauses

/-! A scale with bounds is a cycle: behind its greatest value comes its least again. A span of the
scale is an arc of the cycle, from its first value upwards to its second, and a field lies on the
arc if it is no more steps away from the first value than the second is. -/

namespace Recurrence

/-- Between the two, or not strictly between them where `low` is the greater. -/
def Spanned (low high x : Int) : Prop :=
  if low ≤ high then low ≤ x ∧ x ≤ high else low ≤ x ∨ x ≤ high

theorem Span.covers_iff_spanned {s : Scale} {t : DateTime} {r : Span} :
    r.Covers s t ↔ Spanned (s.denote t r.low) (s.denote t r.high) (s.field t) := Iff.rfl

section Cycle

variable {least greatest low high x : Int}

theorem spanned_iff :
    Spanned low high x ↔ low ≤ x ∧ x ≤ high ∨ high < low ∧ (low ≤ x ∨ x ≤ high) := by
  unfold Spanned
  split <;> omega

/-- Steps from `low` upwards to `x`, which pass the end of the cycle if `x` is less. -/
theorem emod_of_within (hlow : least ≤ low ∧ low ≤ greatest) (hx : least ≤ x ∧ x ≤ greatest) :
    (x - low) % (greatest - least + 1) =
      if low ≤ x then x - low else x - low + (greatest - least + 1) := by
  by_cases h : low ≤ x
  · rw [if_pos h, Int.emod_eq_of_lt (by omega) (by omega)]
  · rw [if_neg h, ← Int.add_emod_right, Int.emod_eq_of_lt (by omega) (by omega)]

theorem spanned_iff_emod_le (hlow : least ≤ low ∧ low ≤ greatest)
    (hhigh : least ≤ high ∧ high ≤ greatest) (hx : least ≤ x ∧ x ≤ greatest) :
    Spanned low high x ↔
      (x - low) % (greatest - least + 1) ≤ (high - low) % (greatest - least + 1) := by
  rw [emod_of_within hlow hx, emod_of_within hlow hhigh, spanned_iff]
  split <;> split <;> omega

theorem spanned_union_iff (hlow : low ≤ greatest) (hhigh : least ≤ high)
    (hx : least ≤ x ∧ x ≤ greatest) (hwraps : high < low) :
    Spanned low high x ↔ Spanned low greatest x ∨ Spanned least high x := by
  simp only [spanned_iff]
  omega

end Cycle

/-- The value after another on a scale from `least` to `greatest`, where the cycle begins again. -/
def valueAfter (least greatest value : Nat) : Nat := if value = greatest then least else value + 1

def valueBefore (least greatest value : Nat) : Nat := if value = least then greatest else value - 1

/-- The opposite arc has what the arc leaves out, if it leaves out anything. -/
theorem spanned_opposite_iff {least greatest low high value : Nat} {x : Int}
    (hlow : least ≤ low ∧ low ≤ greatest) (hhigh : least ≤ high ∧ high ≤ greatest)
    (hx : (least : Int) ≤ x ∧ x ≤ greatest) (hvalue : least ≤ value ∧ value ≤ greatest)
    (hout : ¬ Spanned low high value) :
    Spanned (valueAfter least greatest high) (valueBefore least greatest low) x ↔
      ¬ Spanned low high x := by
  simp only [spanned_iff] at hout ⊢
  unfold valueAfter valueBefore
  split <;> split <;> omega

namespace Scale

variable {s : Scale} {least greatest : Nat}

theorem exists_bounds (hs : s ≠ .year) : ∃ least greatest, s.bounds = some (least, greatest) := by
  cases s with
  | year => exact absurd rfl hs
  | _ => exact ⟨_, _, rfl⟩

theorem ne_year_of_bounds (h : s.bounds = some (least, greatest)) : s ≠ .year := by
  rintro rfl
  cases h

theorem admits_iff_of_bounds (h : s.bounds = some (least, greatest)) {value : Nat} :
    s.Admits value ↔ least ≤ value ∧ value ≤ greatest := by
  simp only [Admits, h]

theorem field_within (h : s.bounds = some (least, greatest)) (t : DateTime) :
    (least : Int) ≤ s.field t ∧ s.field t ≤ greatest := by
  have ⟨_, _⟩ := t.date.valid
  cases s with
  | year => cases h
  | month =>
    cases h
    have := t.date.month_bounds
    simp only [field]
    omega
  | week =>
    cases h
    have := monthLength_le t.date.year t.date.month
    simp only [field]
    omega
  | yearDay =>
    cases h
    have := t.date.yearDay_le
    have : yearLength t.date.year ≤ 366 := by unfold yearLength; split <;> decide
    simp only [field, Date.yearDay] at *
    omega
  | monthDay =>
    cases h
    have := monthLength_le t.date.year t.date.month
    simp only [field]
    omega
  | weekday =>
    cases h
    have := t.date.weekday_bounds
    simp only [field]
    omega
  | hour =>
    cases h
    have := t.time.hour_lt
    simp only [field]
    omega
  | minute =>
    cases h
    have := t.time.minute_lt
    simp only [field]
    omega
  | second =>
    cases h
    have := t.time.second_lt
    simp only [field]
    omega

end Scale

namespace Clause

section Bounded

variable {s : Scale} {least greatest low high : Nat} {t : DateTime}

theorem holds_spanning_iff :
    (spanning s low high).holds t = true ↔
      Spanned (s.denote t low) (s.denote t high) (s.field t) := by
  simp [spanning, holds_iff, Span.covers_iff_spanned]

/-- Where a value is read as itself. -/
theorem holds_spanning_iff_of_ne_year (hs : s ≠ .year) :
    (spanning s low high).holds t = true ↔ Spanned low high (s.field t) := by
  rw [holds_spanning_iff, Scale.denote_of_ne_year hs, Scale.denote_of_ne_year hs]

theorem holds_spanning_eq_or (hbounds : s.bounds = some (least, greatest)) (hlow : low ≤ greatest)
    (hhigh : least ≤ high) (hwraps : high < low) : (spanning s low high).holds t =
      ((spanning s low greatest).holds t || (spanning s least high).holds t) := by
  have hs := Scale.ne_year_of_bounds hbounds
  rw [Bool.eq_iff_iff, Bool.or_eq_true, holds_spanning_iff_of_ne_year hs,
    holds_spanning_iff_of_ne_year hs, holds_spanning_iff_of_ne_year hs]
  exact spanned_union_iff (by omega) (by omega) (Scale.field_within hbounds t) (by omega)

theorem holds_spanning_opposite (hbounds : s.bounds = some (least, greatest))
    (hlow : least ≤ low ∧ low ≤ greatest) (hhigh : least ≤ high ∧ high ≤ greatest) {value : Nat}
    (hvalue : least ≤ value ∧ value ≤ greatest) (hout : ¬ Spanned low high value) :
    (spanning s (valueAfter least greatest high) (valueBefore least greatest low)).holds t =
      !(spanning s low high).holds t := by
  have hs := Scale.ne_year_of_bounds hbounds
  rw [Bool.eq_iff_iff, Bool.not_eq_true', ← Bool.not_eq_true, holds_spanning_iff_of_ne_year hs,
    holds_spanning_iff_of_ne_year hs]
  exact spanned_opposite_iff hlow hhigh (Scale.field_within hbounds t) hvalue hout

end Bounded

/-- On a scale with `n` values, all but the years, a span holds at a time whose field is no more
steps, modulo `n`, from the first value than the second is. A span that wraps holds where one of its
two parts does, and the opposite arc holds where the arc does not, unless this is the whole cycle. -/
theorem holds_spanning_iff_on_arc {s : Scale} (hs : s ≠ .year) :
    ∃ least greatest : Nat, s.bounds = some (least, greatest) ∧
      ∀ low high : Nat, least ≤ low ∧ low ≤ greatest → least ≤ high ∧ high ≤ greatest →
        ∀ t : DateTime, let n : Int := greatest - least + 1
          (∀ word : String, Scale.named? word.toList = some s →
            Period.holdsAt (word ++ " \x7b" ++ toString low ++ "-" ++ toString high ++ "\x7d") t =
              .ok ((spanning s low high).holds t)) ∧
          ((spanning s low high).holds t = true ↔
            (s.field t - low) % n ≤ (high - low : Int) % n) ∧
          (high < low → (spanning s low high).holds t =
            ((spanning s low greatest).holds t || (spanning s least high).holds t)) ∧
          ((∃ value : Nat, (least ≤ value ∧ value ≤ greatest) ∧
              ¬ (value - low : Int) % n ≤ (high - low : Int) % n) →
            (spanning s (valueAfter least greatest high) (valueBefore least greatest low)).holds t =
              !(spanning s low high).holds t) := by
  obtain ⟨least, greatest, hbounds⟩ := Scale.exists_bounds hs
  refine ⟨least, greatest, hbounds, ?_⟩
  intro low high hlow hhigh t n
  have harc : ∀ x : Int, least ≤ x ∧ x ≤ greatest →
      (Spanned low high x ↔ (x - low) % n ≤ (high - low : Int) % n) :=
    fun x hx => spanned_iff_emod_le (by omega) (by omega) hx
  have hadmits : ∀ {value}, least ≤ value ∧ value ≤ greatest → s.Admits value :=
    (Scale.admits_iff_of_bounds hbounds).mpr
  refine ⟨?_, ?_, ?_, ?_⟩
  · intro word hword
    exact Period.holdsAt_range hword (hadmits hlow) (hadmits hhigh) t
  · rw [holds_spanning_iff_of_ne_year hs, harc _ (Scale.field_within hbounds t)]
  · exact holds_spanning_eq_or hbounds hlow.2 hhigh.1
  · rintro ⟨value, hvalue, hout⟩
    rw [← harc value (by omega)] at hout
    exact holds_spanning_opposite hbounds hlow hhigh hvalue hout

/-- The hours from ten in the evening to two at night, and the others. -/
theorem holds_spanning_iff_on_arc_of_night :
    Scale.hour ≠ .year ∧ Scale.hour.bounds = some (0, 23) ∧
      Period.holdsAt ("hr" ++ " \x7b" ++ toString 22 ++ "-" ++ toString 2 ++ "\x7d") .epoch =
        .ok true ∧
      ((spanning .hour 22 2).holds .epoch = true ↔
        (Scale.hour.field .epoch - 22) % (23 - 0 + 1) ≤ (2 - 22) % (23 - 0 + 1)) ∧
      (spanning .hour 22 2).holds .epoch =
        ((spanning .hour 22 23).holds .epoch || (spanning .hour 0 2).holds .epoch) ∧
      (spanning .hour 3 21).holds .epoch = !(spanning .hour 22 2).holds .epoch := by
  have hs : Scale.hour ≠ .year := by decide
  obtain ⟨least, greatest, hbounds, h⟩ := holds_spanning_iff_on_arc hs
  obtain ⟨rfl, rfl⟩ : least = 0 ∧ greatest = 23 := by
    simpa [Scale.bounds, eq_comm] using hbounds
  obtain ⟨htext, harc, hunion, hopposite⟩ := h 22 2 (by decide) (by decide) .epoch
  have hinside : (spanning .hour 22 2).holds .epoch = true := by decide
  refine ⟨hs, hbounds, ?_, harc, hunion (by decide), hopposite ⟨12, by decide, by decide⟩⟩
  rw [htext "hr" rfl, hinside]

end Clause

end Recurrence
