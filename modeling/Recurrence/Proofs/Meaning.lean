import Recurrence.Proofs.Gathering
import Recurrence.Proofs.GrammarReading

/-! What a written period says of a date and time, told from its alternatives as they are written:
a scale that is named must be met by one of its items, in whichever clause it stands. -/

namespace Recurrence

/-- The field lies between the two values as they are read at `t`, or outside of what lies between
them where the first is the greater. -/
def Span.Covers (s : Scale) (t : DateTime) (r : Span) : Prop :=
  if s.denote t r.low ≤ s.denote t r.high then
    s.denote t r.low ≤ s.field t ∧ s.field t ≤ s.denote t r.high
  else s.denote t r.low ≤ s.field t ∨ s.field t ≤ s.denote t r.high

theorem Span.holds_iff {s : Scale} {t : DateTime} {r : Span} :
    Span.holds s t r = true ↔ r.Covers s t := by
  unfold Span.holds Span.Covers
  by_cases h : s.denote t r.low ≤ s.denote t r.high <;> simp [h]

theorem Span.covers_single_iff {s : Scale} (hs : s ≠ .year) {t : DateTime} {value : Nat} :
    (single value).Covers s t ↔ s.field t = value := by
  simp only [Covers, single, Scale.denote_of_ne_year hs, Int.le_refl, if_true]
  omega

theorem Clause.holds_iff {c : Clause} {t : DateTime} :
    c.holds t = true ↔ ∃ r ∈ c.spans, r.Covers c.scale t := by
  simp only [Clause.holds, List.any_eq_true, Span.holds_iff]

namespace SubPeriod

theorem holds_gather_iff {cs : List Clause} {t : DateTime} :
    (gather [] cs).all (Clause.holds t) = true ↔
      ∀ s ∈ scales cs, ∃ r ∈ spansOn s cs, r.Covers s t := by
  rw [List.all_eq_true]
  constructor
  · intro h s hs
    obtain ⟨c, hc, rfl⟩ := exists_mem_gather hs
    rw [← spans_of_mem_gather hc]
    exact Clause.holds_iff.mp (h c hc)
  · intro h c hc
    rw [Clause.holds_iff, spans_of_mem_gather hc]
    exact h c.scale (scale_of_mem_gather hc)

theorem holds_gathered_iff {sub : SubPeriod} {t : DateTime} :
    sub.gathered.holds t = true ↔ sub = .always ∨ ∃ cs, sub = .clauses cs ∧
      ∀ s ∈ scales cs, ∃ c ∈ cs, c.scale = s ∧ ∃ r ∈ c.spans, r.Covers s t := by
  cases sub with
  | always => simp [gathered, holds]
  | never => simp [gathered, holds]
  | clauses cs =>
    have hcs : (gathered (.clauses cs)).holds t = (gather [] cs).all (Clause.holds t) := rfl
    rw [hcs, holds_gather_iff]
    simp only [mem_spansOn, reduceCtorEq, false_or, clauses.injEq, exists_eq_left']
    constructor
    · intro h s hs
      obtain ⟨r, ⟨c, hc, hcs, hr⟩, hcovers⟩ := h s hs
      exact ⟨c, hc, hcs, r, hr, hcovers⟩
    · intro h s hs
      obtain ⟨c, hc, hcs, r, hr, hcovers⟩ := h s hs
      exact ⟨r, ⟨c, hc, hcs, hr⟩, hcovers⟩

end SubPeriod

namespace Period

/-- A clause on the scale has the span. -/
def HasSpan (p : Period) (s : Scale) (r : Span) : Prop :=
  ∃ cs, .clauses cs ∈ p.subPeriods ∧ ∃ c ∈ cs, c.scale = s ∧ r ∈ c.spans

/-- A period can tell two times apart only by one of its spans. -/
theorem holds_congr {p : Period} {t t' : DateTime}
    (h : ∀ s r, p.HasSpan s r → (r.Covers s t ↔ r.Covers s t')) : p.holds t = p.holds t' := by
  have hclause : ∀ cs, .clauses cs ∈ p.subPeriods → ∀ c ∈ cs, c.holds t = c.holds t' := by
    intro cs hcs c hc
    rw [Bool.eq_iff_iff, Clause.holds_iff, Clause.holds_iff]
    apply exists_congr
    intro r
    exact and_congr_right fun hr => h c.scale r ⟨cs, hcs, c, hc, rfl, hr⟩
  have hsub : ∀ sub ∈ p.subPeriods, sub.holds t = sub.holds t' := by
    intro sub hsub
    cases sub with
    | always => rfl
    | never => rfl
    | clauses cs =>
      rw [SubPeriod.holds, SubPeriod.holds, Bool.eq_iff_iff, List.all_eq_true, List.all_eq_true]
      apply forall₂_congr
      intro c hc
      rw [hclause cs hsub c hc]
  have hany : p.subPeriods.any (SubPeriod.holds t) = p.subPeriods.any (SubPeriod.holds t') := by
    rw [Bool.eq_iff_iff, List.any_eq_true, List.any_eq_true]
    apply exists_congr
    intro sub
    apply and_congr_right
    intro hmem
    rw [hsub sub hmem]
  rw [holds, holds, hany]

theorem holdsAt_of_parse {text : String} {p : Period} (h : parse text = .ok p) (t : DateTime) :
    holdsAt text t = .ok (p.holds t) := by
  rw [holdsAt, h]
  rfl

theorem blank_iff_of_writes {text : List Char} {subs : List SubPeriod} (h : Writes text subs) :
    (∀ c ∈ text, isBlank c = true) ↔ subs = [] := by
  obtain ⟨ts, hscan, hsubs⟩ := h
  constructor
  · intro hblank
    have hts : ts = [] := hscan.tokens_eq.symm.trans (scans_nil_iff.mpr hblank).tokens_eq
    rcases hsubs with ⟨-, hnil⟩ | hsubs
    · exact hnil
    · exact absurd (by simp [hts]) hsubs.ne_nil.1
  · intro hnil
    rcases hsubs with ⟨rfl, -⟩ | hsubs
    · exact scans_nil_iff.mp hscan
    · exact absurd hnil hsubs.ne_nil.2

theorem holds_of_writes {text : List Char} {subs : List SubPeriod} (h : Writes text subs)
    (t : DateTime) :
    holds t ⟨subs.map SubPeriod.gathered⟩ = true ↔
      (∀ c ∈ text, isBlank c = true) ∨ ∃ sub ∈ subs, sub.gathered.holds t = true := by
  rw [blank_iff_of_writes h]
  simp [holds, isUnconstrained]

/-- A text that is a period says of `t` that one of its alternatives admits it, and an alternative
asks that each scale it names is met by an item of one of its clauses on that scale. -/
theorem holdsAt_iff {text : String} {p : Period} (h : parse text = .ok p) (t : DateTime) :
    (∃ subs, Writes text.toList subs) ∧ ∀ subs, Writes text.toList subs →
      ∃ inside, holdsAt text t = .ok inside ∧ (inside = true ↔
        (∀ c ∈ text.toList, isBlank c = true) ∨ ∃ sub ∈ subs, sub = .always ∨
          ∃ cs, sub = .clauses cs ∧ ∀ s ∈ SubPeriod.scales cs,
            ∃ c ∈ cs, c.scale = s ∧ ∃ r ∈ c.spans, r.Covers s t) := by
  constructor
  · obtain ⟨subs, hwrites, -⟩ := writes_of_ofChars h
    exact ⟨subs, hwrites⟩
  · intro subs hwrites
    have hparse : parse text = .ok ⟨subs.map SubPeriod.gathered⟩ := ofChars_of_writes hwrites
    refine ⟨holds t ⟨subs.map SubPeriod.gathered⟩, ?_, ?_⟩
    · simp only [holdsAt, hparse]
      rfl
    · rw [holds_of_writes hwrites]
      simp only [SubPeriod.holds_gathered_iff]

/-- Two clauses on the weekday widen each other: the first leaves out a Thursday, the whole not. -/
theorem holdsAt_iff_of_repeated_scale :
    let text := "wd \x7bmon\x7d hr \x7b0\x7d wd \x7bthu\x7d"
    parse text = .ok ⟨[.clauses [⟨.weekday, [.single 2, .single 5]⟩, ⟨.hour, [.single 0]⟩]]⟩ ∧
      holdsAt text .epoch = .ok true ∧
      (∃ subs, Writes text.toList subs) ∧ ∀ subs, Writes text.toList subs →
        ∃ inside, holdsAt text .epoch = .ok inside ∧ (inside = true ↔
          (∀ c ∈ text.toList, isBlank c = true) ∨ ∃ sub ∈ subs, sub = .always ∨
            ∃ cs, sub = .clauses cs ∧ ∀ s ∈ SubPeriod.scales cs,
              ∃ c ∈ cs, c.scale = s ∧ ∃ r ∈ c.spans, r.Covers s .epoch) :=
  ⟨rfl, rfl, holdsAt_iff rfl .epoch⟩

end Period

end Recurrence
