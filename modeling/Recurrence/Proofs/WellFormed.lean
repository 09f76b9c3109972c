import Recurrence.Proofs.Gathering
import Recurrence.Proofs.GrammarReading

/-! The periods that can be read from a text: no list in them is empty, no sub-period has a scale
twice, and every value is one of its scale. -/

namespace Recurrence

/-- A value within the bounds, or any that can be written where there are none. -/
def Scale.Admits (s : Scale) (value : Nat) : Prop :=
  match s.bounds with
  | none => value ≤ greatestNumber
  | some (least, greatest) => least ≤ value ∧ value ≤ greatest

structure Clause.WellFormed (c : Clause) : Prop where
  spans_ne_nil : c.spans ≠ []
  admits : ∀ r ∈ c.spans, c.scale.Admits r.low ∧ c.scale.Admits r.high

inductive SubPeriod.WellFormed : SubPeriod → Prop
  | always : WellFormed .always
  | never : WellFormed .never
  | clauses {cs : List Clause} (hne : cs ≠ []) (hnd : (scales cs).Nodup)
      (h : ∀ c ∈ cs, c.WellFormed) : WellFormed (.clauses cs)

def Period.WellFormed (p : Period) : Prop := ∀ sub ∈ p.subPeriods, sub.WellFormed

namespace Scale

theorem admits_of_within {s : Scale} {n value : Nat} (h : s.within n = .ok value)
    (hn : s.bounds = none → n ≤ greatestNumber) : s.Admits value := by
  cases hb : s.bounds with
  | none =>
    simp only [within, hb, Except.ok.injEq] at h
    simp only [Admits, hb]
    exact h ▸ hn hb
  | some bounds =>
    obtain ⟨least, greatest⟩ := bounds
    simp only [within, hb] at h
    simp only [Admits, hb]
    by_cases hbounds : least ≤ n ∧ n ≤ greatest
    · rw [if_pos hbounds] at h
      cases h
      exact hbounds
    · rw [if_neg hbounds] at h
      cases h

theorem within_of_admits {s : Scale} {n : Nat} (h : s.Admits n) : s.within n = .ok n := by
  cases hb : s.bounds with
  | none => simp only [within, hb]
  | some bounds =>
    obtain ⟨least, greatest⟩ := bounds
    simp only [Admits, hb] at h
    simp only [within, hb, if_pos h]

theorem symbol?_of_bounds_eq_none {s : Scale} (h : s.bounds = none) (word : List Char) :
    s.symbol? word = none := by
  cases s with
  | year => rfl
  | _ => cases h

theorem admits_of_valueOf {s : Scale} {word : List Char} {value : Nat}
    (h : s.valueOf word = .ok value) : s.Admits value := by
  rw [valueOf] at h
  split at h
  · rename_i n hn
    have hle : n ≤ greatestNumber := by simpa using (Option.filter_eq_some_iff.mp hn).2
    exact admits_of_within h fun _ => hle
  · by_cases hdigits : (digits? word).isSome = true
    · rw [if_pos hdigits] at h
      cases h
    · rw [if_neg hdigits] at h
      cases hsymbol : s.symbol? word with
      | none => simp [hsymbol] at h
      | some n =>
        rw [hsymbol] at h
        apply admits_of_within h
        intro hb
        have hnone : s.symbol? word = none := symbol?_of_bounds_eq_none hb word
        rw [hnone] at hsymbol
        cases hsymbol

end Scale

theorem DerivesSpan.admits {s : Scale} {ls : List Lexeme} {r : Span} (h : DerivesSpan s ls r) :
    s.Admits r.low ∧ s.Admits r.high := by
  cases h with
  | single h => exact ⟨Scale.admits_of_valueOf h, Scale.admits_of_valueOf h⟩
  | range h h' => exact ⟨Scale.admits_of_valueOf h, Scale.admits_of_valueOf h'⟩

theorem DerivesClause.wellFormed {ls : List Lexeme} {c : Clause} (h : DerivesClause ls c) :
    c.WellFormed := by
  obtain ⟨_, hspans, hne⟩ := h
  exact ⟨hne, hspans.forall_mem fun _ _ => DerivesSpan.admits⟩

namespace SubPeriod

/-- Gathering keeps every span with its scale, and loses none. -/
theorem wellFormed_ofClauses {cs : List Clause} (hne : cs ≠ []) (h : ∀ c ∈ cs, c.WellFormed) :
    (ofClauses cs).WellFormed := by
  refine .clauses ?_ (nodup_gather nodup_nil cs) ?_
  · obtain ⟨c, cs, rfl⟩ := List.exists_cons_of_ne_nil hne
    obtain ⟨d, hd, -⟩ : ∃ d ∈ gather [] (c :: cs), d.scale = c.scale :=
      exists_mem_gather List.mem_cons_self
    exact List.ne_nil_of_mem hd
  · intro c hc
    have hspans := spans_of_mem_gather hc
    refine ⟨?_, ?_⟩
    · obtain ⟨d, hd, hs⟩ := List.mem_map.mp (scale_of_mem_gather hc)
      obtain ⟨r, hr⟩ := List.exists_mem_of_ne_nil _ (h d hd).spans_ne_nil
      rw [hspans]
      exact List.ne_nil_of_mem (mem_spansOn.mpr ⟨d, hd, hs, hr⟩)
    · intro r hr
      rw [hspans] at hr
      obtain ⟨d, hd, hs, hr⟩ := mem_spansOn.mp hr
      exact hs ▸ (h d hd).admits r hr

theorem wellFormed_gathered {ls : List Lexeme} {sub : SubPeriod} (h : DerivesSubPeriod ls sub) :
    sub.gathered.WellFormed := by
  cases h with
  | always => exact .always
  | none => exact .always
  | never => exact .never
  | clauses h hne => exact wellFormed_ofClauses hne (h.forall_mem fun _ _ => DerivesClause.wellFormed)

theorem gathered_of_wellFormed {sub : SubPeriod} (h : sub.WellFormed) : sub.gathered = sub := by
  cases h with
  | always => rfl
  | never => rfl
  | @clauses cs _ hnd _ =>
    have hgather : gather [] cs = cs := gather_of_nodup hnd
    exact congrArg clauses hgather

end SubPeriod

theorem DerivesPeriod.wellFormed {ls : List Lexeme} {subs : List SubPeriod}
    (h : DerivesPeriod ls subs) : ∀ sub ∈ subs, sub.gathered.WellFormed := by
  induction h with
  | one h => simpa using SubPeriod.wellFormed_gathered h
  | snoc _ hlast ih =>
    intro sub hsub
    rcases List.mem_append.mp hsub with hsub | hsub
    · exact ih sub hsub
    · exact List.mem_singleton.mp hsub ▸ SubPeriod.wellFormed_gathered hlast

theorem Period.wellFormed_of_ofChars {text : List Char} {p : Period} (h : ofChars text = .ok p) :
    p.WellFormed := by
  obtain ⟨subs, ⟨ts, -, hsubs⟩, rfl⟩ := writes_of_ofChars h
  intro sub hsub
  obtain ⟨written, hwritten, rfl⟩ := List.mem_map.mp hsub
  rcases hsubs with ⟨-, rfl⟩ | hsubs
  · simp at hwritten
  · exact hsubs.wellFormed written hwritten

end Recurrence
