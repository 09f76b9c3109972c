import Recurrence.Proofs.Meaning

/-! A span wraps where its first value is the greater one. For a year within a century and a full
year that is not settled by the values as they are written: `wraps` compares these, and a period is
held against the years that they stand for at the time. -/

namespace Recurrence

namespace Span

/-- What the span covers if it wraps where `wraps` says so. -/
def CoversAsWritten (s : Scale) (t : DateTime) (r : Span) : Prop :=
  if r.wraps then s.denote t r.low ≤ s.field t ∨ s.field t ≤ s.denote t r.high
  else s.denote t r.low ≤ s.field t ∧ s.field t ≤ s.denote t r.high

/-- Of two years both are within a century, or neither is. -/
def Uniform (s : Scale) (r : Span) : Prop := s = .year → (r.low < 100 ↔ r.high < 100)

theorem denote_lt_denote_iff {s : Scale} {r : Span} (h : r.Uniform s) (t : DateTime) :
    s.denote t r.high < s.denote t r.low ↔ r.high < r.low := by
  by_cases hs : s = .year
  · subst hs
    have hsame := h rfl
    by_cases hlow : r.low < 100
    · rw [Scale.denote_year_of_lt hlow, Scale.denote_year_of_lt (hsame.mp hlow)]
      omega
    · have hhigh : ¬ r.high < 100 := fun hlt => hlow (hsame.mpr hlt)
      rw [Scale.denote_year_of_le (Nat.not_lt.mp hlow),
        Scale.denote_year_of_le (Nat.not_lt.mp hhigh)]
      omega
  · rw [Scale.denote_of_ne_year hs, Scale.denote_of_ne_year hs]
    omega

theorem wraps_iff {r : Span} : r.wraps = true ↔ r.high < r.low := decide_eq_true_iff

/-- Where the order of the two values changes as they are read, what is covered is what it would be
as written only between the two of a span that wraps, and only strictly between those of one that
does not. -/
theorem covers_iff_coversAsWritten_iff {s : Scale} {t : DateTime} {r : Span} :
    (r.Covers s t ↔ r.CoversAsWritten s t) ↔
      (r.wraps = true ↔ s.denote t r.high < s.denote t r.low) ∨
        if r.wraps then s.denote t r.low ≤ s.field t ∧ s.field t ≤ s.denote t r.high
        else s.denote t r.high < s.field t ∧ s.field t < s.denote t r.low := by
  unfold Covers CoversAsWritten
  by_cases hw : r.wraps = true
  · simp only [if_pos hw, iff_true_left hw]
    by_cases hle : s.denote t r.low ≤ s.denote t r.high
    · rw [if_pos hle]
      omega
    · rw [if_neg hle]
      omega
  · simp only [if_neg hw, iff_false_left hw]
    by_cases hle : s.denote t r.low ≤ s.denote t r.high
    · rw [if_pos hle]
      omega
    · rw [if_neg hle]
      omega

/-- A span holds as `wraps` says if both values are years within a century or neither is, and on
every other scale. Otherwise it does where reading them keeps their order, and where their order
does not matter. A span up to a full year before `t` holds again from its first value on, if that is
a year within the century of `t` and a later one. -/
theorem holds_iff_coversAsWritten (s : Scale) (r : Span) (t : DateTime) :
    (r.Uniform s → (holds s t r = true ↔ r.CoversAsWritten s t)) ∧
    ((holds s t r = true ↔ r.CoversAsWritten s t) ↔
      (r.wraps = true ↔ s.denote t r.high < s.denote t r.low) ∨
        if r.wraps then s.denote t r.low ≤ s.field t ∧ s.field t ≤ s.denote t r.high
        else s.denote t r.high < s.field t ∧ s.field t < s.denote t r.low) ∧
    (100 ≤ r.high → r.high < t.date.year →
      (holds .year t r = true ↔
        r.high < Scale.year.denote t r.low ∧ Scale.year.denote t r.low ≤ t.date.year)) := by
  simp only [holds_iff]
  refine ⟨?_, covers_iff_coversAsWritten_iff, ?_⟩
  · intro huniform
    apply covers_iff_coversAsWritten_iff.mpr
    exact .inl (wraps_iff.trans (denote_lt_denote_iff huniform t).symm)
  · intro hhigh hyear
    have hfield : Scale.year.field t = t.date.year := rfl
    rw [Covers, hfield, Scale.denote_year_of_le hhigh]
    by_cases hle : Scale.year.denote t r.low ≤ r.high
    · rw [if_pos hle]
      omega
    · rw [if_neg hle]
      omega

/-- The years from 98 to 2 at the turn of a century, and from 50 to 1900 long afterwards. -/
theorem holds_iff_coversAsWritten_of_years :
    let t : DateTime := ⟨⟨2001, 1, 1, by decide⟩, DateTime.epoch.time⟩
    let t' : DateTime := ⟨⟨2049, 12, 31, by decide⟩, DateTime.epoch.time⟩
    Uniform .year ⟨98, 2⟩ ∧
      (holds .year t ⟨98, 2⟩ = true ↔ CoversAsWritten .year t ⟨98, 2⟩) ∧
      100 ≤ 1900 ∧ (1900 : Nat) < t'.date.year ∧
      (holds .year t' ⟨50, 1900⟩ = true ↔
        (1900 : Nat) < Scale.year.denote t' 50 ∧ Scale.year.denote t' 50 ≤ t'.date.year) := by
  intro t t'
  have huniform : Uniform .year ⟨98, 2⟩ := fun _ => by decide
  have hyear : (1900 : Nat) < t'.date.year := by decide
  exact ⟨huniform, (holds_iff_coversAsWritten _ _ t).1 huniform, by decide, hyear,
    (holds_iff_coversAsWritten .year ⟨50, 1900⟩ t').2.2 (by decide) hyear⟩

/-- From 50 to 1900 is a span that does not wrap, and 2060 lies in it. -/
theorem holds_of_mixed_years :
    let t : DateTime := ⟨⟨2060, 1, 1, by decide⟩, DateTime.epoch.time⟩
    Scale.year.valueOf ['5', '0'] = .ok 50 ∧ Scale.year.valueOf ['1', '9', '0', '0'] = .ok 1900 ∧
      wraps ⟨50, 1900⟩ = false ∧ holds .year t ⟨50, 1900⟩ = true ∧
      ¬ CoversAsWritten .year t ⟨50, 1900⟩ := by
  intro t
  refine ⟨rfl, rfl, rfl, by decide, ?_⟩
  have hyear : ¬ Scale.year.field t ≤ Scale.year.denote t 1900 := by decide
  exact fun h => hyear h.2

end Span

end Recurrence
