import Recurrence.Proofs.CyclicSpans

/-! Spans of years. Two years within a century are an arc of its hundred years, before the year zero
as well, and full years are compared as they are. The numbers that a span is evaluated with fit into
64 bits, each of them, where the year fits into 32. -/

namespace Recurrence

/-- A signed number of 64 bits, and nothing where the number is not one. -/
def signed64? (n : Int) : Option Int :=
  if -9223372036854775808 ≤ n ∧ n ≤ 9223372036854775807 then some n else none

/-- What `denote` is, if it and each number on the way to it have 64 bits. -/
def Scale.denote64? (t : DateTime) (value : Nat) : Scale → Option Int
  | .year =>
    if value < 100 then do
      let year ← signed64? t.date.year
      let century ← signed64? (year / 100)
      let first ← signed64? (century * 100)
      let place ← signed64? value
      signed64? (first + place)
    else signed64? value
  | _ => signed64? value

def Span.holds64? (s : Scale) (t : DateTime) (r : Span) : Option Bool := do
  let field ← signed64? (s.field t)
  let low ← s.denote64? t r.low
  let high ← s.denote64? t r.high
  return if low ≤ high then low ≤ field && field ≤ high else low ≤ field || field ≤ high

theorem signed64?_of_bounds {n : Int} (h : -9223372036854775808 ≤ n ∧ n ≤ 9223372036854775807) :
    signed64? n = some n := if_pos h

namespace Scale

variable {s : Scale} {t : DateTime}

theorem denote64?_eq_some (hyear : -2147483648 ≤ t.date.year ∧ t.date.year ≤ 2147483647)
    {value : Nat} (hvalue : value ≤ greatestNumber) :
    s.denote64? t value = some (s.denote t value) := by
  have hplain : signed64? value = some (value : Int) :=
    signed64?_of_bounds (by simp only [greatestNumber] at hvalue; omega)
  by_cases hs : s = .year
  · subst hs
    unfold denote64? denote
    by_cases hsmall : value < 100
    · have hfull : signed64? t.date.year = some t.date.year := signed64?_of_bounds (by omega)
      have hcentury : signed64? (t.date.year / 100) = some (t.date.year / 100) :=
        signed64?_of_bounds (by omega)
      have hfirst : signed64? (t.date.year / 100 * 100) = some (t.date.year / 100 * 100) :=
        signed64?_of_bounds (by omega)
      have hsum : signed64? (t.date.year / 100 * 100 + value) =
          some (t.date.year / 100 * 100 + value) := signed64?_of_bounds (by omega)
      simp [hsmall, hfull, hcentury, hfirst, hplain, hsum]
    · simp [hsmall, hplain]
  · rw [denote_of_ne_year hs]
    cases s with
    | year => exact absurd rfl hs
    | _ => exact hplain

theorem signed64?_field (hyear : -2147483648 ≤ t.date.year ∧ t.date.year ≤ 2147483647) :
    signed64? (s.field t) = some (s.field t) := by
  cases hbounds : s.bounds with
  | none =>
    cases s with
    | year => exact signed64?_of_bounds (by simp only [field]; omega)
    | _ => cases hbounds
  | some bounds =>
    obtain ⟨least, greatest⟩ := bounds
    have hgreatest : greatest ≤ 366 := by cases s <;> cases hbounds <;> decide
    have hfield := field_within hbounds t
    exact signed64?_of_bounds (by omega)

end Scale

theorem Span.holds64?_eq_some {s : Scale} {t : DateTime} {r : Span}
    (hyear : -2147483648 ≤ t.date.year ∧ t.date.year ≤ 2147483647)
    (hlow : r.low ≤ greatestNumber) (hhigh : r.high ≤ greatestNumber) :
    r.holds64? s t = some (r.holds s t) := by
  simp [holds64?, Scale.signed64?_field hyear, Scale.denote64?_eq_some hyear hlow,
    Scale.denote64?_eq_some hyear hhigh, holds]

namespace Clause

theorem holds_year_iff_of_lt {low high : Nat} (hlow : low < 100) (hhigh : high < 100)
    {t : DateTime} :
    (spanning .year low high).holds t = true ↔ Spanned low high (t.date.year % 100) := by
  rw [holds_spanning_iff, Scale.denote_year_of_lt hlow, Scale.denote_year_of_lt hhigh,
    Scale.field, spanned_iff, spanned_iff]
  omega

theorem holds_year_iff_of_le {low high : Nat} (hlow : 100 ≤ low) (hhigh : 100 ≤ high)
    {t : DateTime} :
    (spanning .year low high).holds t = true ↔ Spanned low high t.date.year := by
  rw [holds_spanning_iff, Scale.denote_year_of_le hlow, Scale.denote_year_of_le hhigh]
  rfl

/-- A span of years within a century holds by the remainder of the year, rounded downwards, on an
arc of a hundred years, so centuries do not differ. A span of full years holds by the year itself.
The evaluation has no number that needs more than 64 bits. -/
theorem holds_year_spanning_iff {low high : Nat} (hlow : low ≤ greatestNumber)
    (hhigh : high ≤ greatestNumber) (t : DateTime) :
    (∀ word : String, Scale.named? word.toList = some .year →
      Period.holdsAt (word ++ " \x7b" ++ toString low ++ "-" ++ toString high ++ "\x7d") t =
        .ok ((spanning .year low high).holds t)) ∧
    (low < 100 → high < 100 →
      ((spanning .year low high).holds t = true ↔
        (t.date.year % 100 - low) % 100 ≤ (high - low : Int) % 100) ∧
      ∀ (t' : DateTime) (centuries : Int), t'.date.year = t.date.year + 100 * centuries →
        (spanning .year low high).holds t' = (spanning .year low high).holds t) ∧
    (100 ≤ low → 100 ≤ high →
      ((spanning .year low high).holds t = true ↔
        if low ≤ high then low ≤ t.date.year ∧ t.date.year ≤ high
        else low ≤ t.date.year ∨ t.date.year ≤ high)) ∧
    (-2147483648 ≤ t.date.year ∧ t.date.year ≤ 2147483647 →
      Span.holds64? .year t ⟨low, high⟩ = some ((spanning .year low high).holds t)) := by
  refine ⟨?_, ?_, ?_, ?_⟩
  · intro word hword
    exact Period.holdsAt_range hword hlow hhigh t
  · intro hlow hhigh
    refine ⟨?_, ?_⟩
    · have harc : Spanned low high (t.date.year % 100) ↔
          (t.date.year % 100 - low) % (99 - 0 + 1) ≤ (high - low : Int) % (99 - 0 + 1) :=
        spanned_iff_emod_le (by omega) (by omega) (by omega)
      rw [holds_year_iff_of_lt hlow hhigh, harc]
      rfl
    · intro t' centuries hyear
      have hplace : t'.date.year % 100 = t.date.year % 100 := by omega
      rw [Bool.eq_iff_iff, holds_year_iff_of_lt hlow hhigh, holds_year_iff_of_lt hlow hhigh, hplace]
  · intro hlow hhigh
    rw [holds_year_iff_of_le hlow hhigh, Spanned]
    simp only [Int.ofNat_le]
  · intro hyear
    have hspan : (spanning .year low high).holds t = Span.holds .year t ⟨low, high⟩ := by
      simp [spanning, holds]
    rw [hspan, Span.holds64?_eq_some hyear hlow hhigh]

/-- The years from 98 to 2 in the year -1, which is the last of its century, and in 2099, and the
years from 1998 on and up to 1902 as full years. -/
theorem holds_year_spanning_iff_before_year_zero :
    let t : DateTime := ⟨⟨-1, 12, 31, by decide⟩, DateTime.epoch.time⟩
    let t' : DateTime := ⟨⟨2099, 1, 1, by decide⟩, DateTime.epoch.time⟩
    (98 ≤ greatestNumber ∧ 2 ≤ greatestNumber ∧ t'.date.year = t.date.year + 100 * 21 ∧
      Period.holdsAt ("yr" ++ " \x7b" ++ toString 98 ++ "-" ++ toString 2 ++ "\x7d") t = .ok true ∧
      ((spanning .year 98 2).holds t = true ↔
        (t.date.year % 100 - 98) % 100 ≤ (2 - 98 : Int) % 100) ∧
      (spanning .year 98 2).holds t' = true ∧
      (-2147483648 ≤ t.date.year ∧ t.date.year ≤ 2147483647) ∧
      Span.holds64? .year t ⟨98, 2⟩ = some true) ∧
    1998 ≤ greatestNumber ∧ 1902 ≤ greatestNumber ∧
      ((spanning .year 1998 1902).holds t = true ↔
        if 1998 ≤ 1902 then 1998 ≤ t.date.year ∧ t.date.year ≤ 1902
        else 1998 ≤ t.date.year ∨ t.date.year ≤ 1902) := by
  intro t t'
  have hinside : (spanning .year 98 2).holds t = true := by decide
  have hcenturies : t'.date.year = t.date.year + 100 * 21 := by decide
  have hyear : -2147483648 ≤ t.date.year ∧ t.date.year ≤ 2147483647 := by decide
  obtain ⟨htext, hplaces, -, h64⟩ :=
    holds_year_spanning_iff (by decide : 98 ≤ greatestNumber) (by decide : 2 ≤ greatestNumber) t
  obtain ⟨harc, hmoved⟩ := hplaces (by decide) (by decide)
  obtain ⟨-, -, hfull, -⟩ := holds_year_spanning_iff (by decide : 1998 ≤ greatestNumber)
    (by decide : 1902 ≤ greatestNumber) t
  rw [hinside] at h64
  refine ⟨⟨by decide, by decide, hcenturies, ?_, harc, ?_, hyear, h64 hyear⟩, by decide, by decide,
    hfull (by decide) (by decide)⟩
  · rw [htext "yr" rfl, hinside]
  · rw [hmoved t' 21 hcenturies, hinside]

end Clause

end Recurrence
