import Recurrence.Proofs.Meaning
import Recurrence.Timestamp.Basic

/-! The scales that a text names are all that it asks of a time. Bounds are read at the time as
well, but a year within a century depends on the year only, and the year is named then. -/

namespace Recurrence

/-- The scales in a row of lexemes. Between braces a word is a value, though `mo` names a scale. -/
def scalesFrom (inside : Bool) : List Lexeme → List Scale
  | [] => []
  | .opening :: ls => scalesFrom true ls
  | .closing :: ls => scalesFrom false ls
  | .word letters :: ls =>
    if inside then scalesFrom inside ls
    else (Scale.named? letters).toList ++ scalesFrom inside ls
  | _ :: ls => scalesFrom inside ls

def namedScales (text : List Char) : List Scale :=
  scalesFrom false ((tokens 0 text).map Token.lexeme)

namespace SubPeriod

def writtenScales : SubPeriod → List Scale
  | clauses cs => scales cs
  | _ => []

theorem mem_writtenScales_gathered {sub : SubPeriod} {s : Scale} :
    s ∈ sub.gathered.writtenScales ↔ s ∈ sub.writtenScales := by
  cases sub with
  | always => rfl
  | never => rfl
  | clauses cs =>
    have hgather : s ∈ scales (gather [] cs) ↔ s ∈ scales [] ∨ s ∈ scales cs := mem_scales_gather
    exact hgather.trans (or_iff_right List.not_mem_nil)

end SubPeriod

section Lexemes

variable {ls : List Lexeme}

theorem Many.scalesFrom_append {α : Type} {derives : List Lexeme → α → Prop} {as : List α}
    {inside : Bool} {named : α → List Scale}
    (hpart : ∀ ls a, derives ls a → ∀ rest,
      scalesFrom inside (ls ++ rest) = named a ++ scalesFrom inside rest)
    (h : Many derives ls as) (rest : List Lexeme) :
    scalesFrom inside (ls ++ rest) = as.flatMap named ++ scalesFrom inside rest := by
  induction h generalizing rest with
  | nil => rfl
  | snoc _ hlast ih =>
    rw [List.append_assoc, ih, hpart _ _ hlast, List.flatMap_append, List.flatMap_singleton,
      List.append_assoc]

theorem DerivesSpan.scalesFrom_append {s : Scale} {r : Span} (h : DerivesSpan s ls r)
    (rest : List Lexeme) : scalesFrom true (ls ++ rest) = scalesFrom true rest := by
  cases h with
  | single _ => rfl
  | range _ _ => rfl

theorem DerivesClause.scalesFrom_append {c : Clause} (h : DerivesClause ls c)
    (rest : List Lexeme) :
    scalesFrom false (ls ++ rest) = [c.scale] ++ scalesFrom false rest := by
  cases h with
  | @mk word s ls spans hs hspans _ =>
    have hpart : ∀ ls r, DerivesSpan s ls r → ∀ rest,
        scalesFrom true (ls ++ rest) = [] ++ scalesFrom true rest :=
      fun _ _ hspan => hspan.scalesFrom_append
    have hinner := hspans.scalesFrom_append hpart (.closing :: rest)
    rw [List.flatMap_eq_nil_iff.mpr fun _ _ => rfl] at hinner
    simpa [scalesFrom, hs] using hinner

theorem DerivesSubPeriod.scalesFrom_append {sub : SubPeriod} (h : DerivesSubPeriod ls sub)
    (rest : List Lexeme) :
    scalesFrom false (ls ++ rest) = sub.writtenScales ++ scalesFrom false rest := by
  cases h with
  | always => rfl
  | none => rfl
  | never => rfl
  | clauses h _ =>
    have hclauses := h.scalesFrom_append (fun _ _ hclause => hclause.scalesFrom_append) rest
    rwa [← List.map_eq_flatMap] at hclauses

theorem DerivesPeriod.scalesFrom_append {subs : List SubPeriod} (h : DerivesPeriod ls subs)
    (rest : List Lexeme) : scalesFrom false (ls ++ rest) =
      subs.flatMap SubPeriod.writtenScales ++ scalesFrom false rest := by
  induction h generalizing rest with
  | one hsub => simpa using hsub.scalesFrom_append rest
  | snoc _ hlast ih =>
    rw [List.append_assoc, ih, List.flatMap_append, List.flatMap_singleton, List.append_assoc]
    exact congrArg (_ ++ ·) (hlast.scalesFrom_append rest)

end Lexemes

theorem namedScales_of_writes {text : List Char} {subs : List SubPeriod} (h : Writes text subs) :
    namedScales text = subs.flatMap SubPeriod.writtenScales := by
  obtain ⟨ts, hscan, hsubs⟩ := h
  rw [namedScales, hscan.tokens_eq]
  rcases hsubs with ⟨rfl, rfl⟩ | hsubs
  · rfl
  · simpa [scalesFrom] using hsubs.scalesFrom_append []

namespace Period

/-- The scales that a text names are those of the clauses that are read from it. -/
theorem mem_namedScales_iff {text : List Char} {p : Period} (h : ofChars text = .ok p)
    {s : Scale} : s ∈ namedScales text ↔ ∃ sub ∈ p.subPeriods, s ∈ sub.writtenScales := by
  obtain ⟨subs, hwrites, rfl⟩ := writes_of_ofChars h
  rw [namedScales_of_writes hwrites, List.mem_flatMap]
  constructor
  · rintro ⟨sub, hsub, hs⟩
    exact ⟨sub.gathered, List.mem_map_of_mem hsub, SubPeriod.mem_writtenScales_gathered.mpr hs⟩
  · rintro ⟨_, hmem, hs⟩
    obtain ⟨sub, hsub, rfl⟩ := List.mem_map.mp hmem
    exact ⟨sub, hsub, SubPeriod.mem_writtenScales_gathered.mp hs⟩

theorem mem_namedScales_of_hasSpan {text : List Char} {p : Period} (h : ofChars text = .ok p)
    {s : Scale} {r : Span} (hr : p.HasSpan s r) : s ∈ namedScales text := by
  obtain ⟨cs, hcs, c, hc, rfl, -⟩ := hr
  exact (mem_namedScales_iff h).mpr ⟨.clauses cs, hcs, List.mem_map_of_mem hc⟩

end Period

namespace Scale

/-- A value is read by no other part of the time than the field that it is compared with. -/
theorem denote_congr {s : Scale} {t t' : DateTime} (h : s.field t = s.field t') (value : Nat) :
    s.denote t value = s.denote t' value := by
  cases s with
  | year =>
    have hyear : t.date.year = t'.date.year := h
    simp only [denote, hyear]
  | _ => rfl

end Scale

theorem Span.covers_congr {s : Scale} {t t' : DateTime} (h : s.field t = s.field t') (r : Span) :
    r.Covers s t ↔ r.Covers s t' := by
  unfold Covers
  rw [h, Scale.denote_congr h, Scale.denote_congr h]

/-- The same second of the same day, whatever part of the second and whatever the offset. -/
def Timestamp.SameSecond (t t' : Timestamp) : Prop :=
  t.clock.date = t'.clock.date ∧ t.clock.time.hour = t'.clock.time.hour ∧
    t.clock.time.minute = t'.clock.time.minute ∧ t.clock.time.second = t'.clock.time.second

theorem Timestamp.SameSecond.field_eq {t t' : Timestamp} (h : t.SameSecond t') (s : Scale) :
    s.field t.clock = s.field t'.clock := by
  obtain ⟨hdate, hhour, hminute, hsecond⟩ := h
  cases s <;> simp only [Scale.field, hdate, hhour, hminute, hsecond]

namespace Period

theorem holds_eq_of_fields_eq {text : List Char} {p : Period} (h : ofChars text = .ok p)
    {t t' : DateTime} (hfields : ∀ s ∈ namedScales text, s.field t = s.field t') :
    p.holds t = p.holds t' := by
  apply holds_congr
  intro s r hr
  exact Span.covers_congr (hfields s (mem_namedScales_of_hasSpan h hr)) r

/-- A period cannot tell two timestamps apart that agree in the scales it names: not by the year if
it does not name the year, and never by the offset or by a part of the second. -/
theorem holdsAt_eq_of_named_fields {text : String} {p : Period} (h : parse text = .ok p) :
    (∀ t t' : Timestamp,
      (∀ s ∈ namedScales text.toList, s.field t.clock = s.field t'.clock) →
        ∃ inside, holdsAt text t.clock = .ok inside ∧ holdsAt text t'.clock = .ok inside) ∧
    (.year ∉ namedScales text.toList → ∀ t t' : Timestamp,
      (∀ s : Scale, s ≠ .year → s.field t.clock = s.field t'.clock) →
        ∃ inside, holdsAt text t.clock = .ok inside ∧ holdsAt text t'.clock = .ok inside) ∧
    ∀ t t' : Timestamp, t.SameSecond t' →
      ∃ inside, holdsAt text t.clock = .ok inside ∧ holdsAt text t'.clock = .ok inside := by
  have hnamed : ∀ t t' : Timestamp,
      (∀ s ∈ namedScales text.toList, s.field t.clock = s.field t'.clock) →
        ∃ inside, holdsAt text t.clock = .ok inside ∧ holdsAt text t'.clock = .ok inside := by
    intro t t' hfields
    refine ⟨p.holds t.clock, holdsAt_of_parse h t.clock, ?_⟩
    rw [holds_eq_of_fields_eq h hfields]
    exact holdsAt_of_parse h t'.clock
  refine ⟨hnamed, ?_, ?_⟩
  · intro hyear t t' hfields
    apply hnamed
    intro s hs
    exact hfields s fun hs' => hyear (hs' ▸ hs)
  · intro t t' hsecond
    exact hnamed t t' fun s _ => hsecond.field_eq s

/-- The weekday `mo` is not the scale `mo`. The first time begins the tenth hour of a Monday in
February, the second lies in a leap second at the end of that hour, on a Monday in May. -/
theorem holdsAt_eq_of_named_fields_of_mondays :
    let t : Timestamp := ⟨⟨⟨2026, 2, 16, by decide⟩,
      ⟨10, 0, 0, 0, false, by decide, by decide, by decide, by decide⟩⟩, 0⟩
    let t' : Timestamp := ⟨⟨⟨-44, 5, 7, by decide⟩,
      ⟨10, 59, 59, 5, true, by decide, by decide, by decide, by decide⟩⟩, -16200⟩
    let period : Period := ⟨[.clauses [⟨.weekday, [.single 2]⟩, ⟨.hour, [⟨9, 17⟩]⟩]]⟩
    parse "wd \x7bmo\x7d hr \x7b9-17\x7d" = .ok period ∧
      namedScales "wd \x7bmo\x7d hr \x7b9-17\x7d".toList = [.weekday, .hour] ∧
      (∀ s ∈ [Scale.weekday, Scale.hour], s.field t.clock = s.field t'.clock) ∧
      ∃ inside, holdsAt "wd \x7bmo\x7d hr \x7b9-17\x7d" t.clock = .ok inside ∧
        holdsAt "wd \x7bmo\x7d hr \x7b9-17\x7d" t'.clock = .ok inside := by
  intro t t' period
  have hparse : parse "wd \x7bmo\x7d hr \x7b9-17\x7d" = .ok period := rfl
  have hnamed : namedScales "wd \x7bmo\x7d hr \x7b9-17\x7d".toList = [.weekday, .hour] := rfl
  have hfields : ∀ s ∈ [Scale.weekday, Scale.hour], s.field t.clock = s.field t'.clock := by decide
  have hsame := (holdsAt_eq_of_named_fields hparse).1 t t'
  rw [hnamed] at hsame
  exact ⟨hparse, hnamed, hfields, hsame hfields⟩

end Period

end Recurrence
