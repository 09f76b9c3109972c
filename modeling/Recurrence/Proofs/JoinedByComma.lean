import Recurrence.Proofs.GrammarReading
import Recurrence.Proofs.TokenPositions

/-! Two texts with a comma between them. Only what is a period by itself can stand before the comma,
since a comma leaves no sub-period open, and what stands behind it is read as if it stood alone. -/

namespace Recurrence

def Blank (text : List Char) : Prop := ∀ c ∈ text, isBlank c = true

theorem admitted_append_comma {a b : List Char} (ha : ∀ c ∈ a, isAdmitted c = true)
    (hb : ∀ c ∈ b, isAdmitted c = true) : ∀ c ∈ a ++ ',' :: b, isAdmitted c = true := by
  intro c hc
  rcases List.mem_append.mp hc with hc | hc
  · exact ha c hc
  · rcases List.mem_cons.mp hc with rfl | hc
    · rfl
    · exact hb c hc

theorem byteLength_append_comma (a b : List Char) :
    byteLength (a ++ ',' :: b) = byteLength b + (byteLength a + 1) := by
  have hcomma : ','.utf8Size = 1 := rfl
  rw [byteLength_append, byteLength, hcomma]
  omega

theorem intruder?_append_comma {a : List Char} (h : ∀ c ∈ a, isAdmitted c = true)
    (b : List Char) : intruder? 0 (a ++ ',' :: b) =
      (intruder? 0 b).map fun found => (found.1, found.2 + (byteLength a + 1)) := by
  have hcomma : isAdmitted ',' = true := rfl
  have hsize : ','.utf8Size = 1 := rfl
  rw [intruder?_append h, ← intruder?_add, intruder?, if_pos hcomma, hsize, Nat.add_assoc]

theorem tokens_append_comma {a b : List Char} (ha : ∀ c ∈ a, isAdmitted c = true)
    (hb : ∀ c ∈ b, isAdmitted c = true) :
    tokens 0 (a ++ ',' :: b) =
      tokens 0 a ++ ⟨.comma, byteLength a⟩ ::
        (tokens 0 b).map (Token.moved (· + (byteLength a + 1))) := by
  have hbehind : Scans (0 + a.length) (',' :: b)
      (⟨.comma, 0 + a.length⟩ :: tokens (0 + a.length + 1) b) := .sign rfl (scans_tokens hb _)
  have hseam : Seam a (',' :: b) := .of_wordBreak (.cons rfl b) a
  have hall := (scans_tokens ha 0).append hbehind hseam
  rw [hall.tokens_eq, byteLength_of_admitted ha, Nat.add_assoc, tokens_add, Nat.zero_add]

theorem Progress.finish_of_finish {q : Progress} {found : Option Lexeme} {p : Nat}
    {sub : SubPeriod} (h : q.finish found p = .ok sub) (found' : Option Lexeme) (p' : Nat) :
    q.finish found' p' = .ok sub := by
  cases q with
  | whole _ => exact h
  | clauses _ => exact h
  | start => cases h
  | scale cs s => cases h
  | listing cs l =>
    obtain ⟨spans, -, h⟩ := ok_of_bind h
    cases h

theorem Reading.eq_nil_of_run_initial {ts : List Token}
    (h : ts.foldlM step initial = .ok initial) : ts = [] := by
  have hstart : initial.Reads [] := .inl ⟨rfl, rfl⟩
  rcases hstart.run h with ⟨-, hls⟩ | ⟨before, after, subs, -, hsubs, hdone, -⟩
  · exact List.map_eq_nil_iff.mp hls
  · exact absurd (List.map_eq_nil_iff.mp hdone) hsubs.ne_nil.2

namespace Period

theorem ofTokens_of_append_comma {ts us : List Token} {k n : Nat} {p : Period}
    (h : ofTokens (ts ++ ⟨.comma, k⟩ :: us) n = .ok p) (m : Nat) :
    ts ≠ [] ∧ ∃ q, ofTokens ts m = .ok q := by
  obtain ⟨r, hrun, -⟩ := ok_of_bind h
  rw [List.foldlM_append] at hrun
  obtain ⟨r₁, hts, hrest⟩ := ok_of_bind hrun
  rw [List.foldlM_cons] at hrest
  obtain ⟨r₂, hcomma, -⟩ := ok_of_bind hrest
  obtain ⟨sub, hsub, -⟩ := ok_of_bind hcomma
  constructor
  · rintro rfl
    cases hts
    cases hsub
  · refine ⟨⟨r₁.done ++ [sub]⟩, ?_⟩
    simp only [ofTokens, hts]
    exact Reading.finish_of_progress (fun found p => Progress.finish_of_finish hsub found p) m

theorem subPeriods_ne_nil_of_ofTokens {ts : List Token} {m : Nat} {p : Period}
    (h : ofTokens ts m = .ok p) (hne : ts ≠ []) : p.subPeriods ≠ [] := by
  obtain ⟨subs, ⟨hts, -⟩ | hsubs, rfl⟩ := derives_of_ofTokens h
  · exact absurd hts hne
  · simpa using hsubs.ne_nil.2

/-- The reading after a comma is the first one of all, behind the sub-periods read before. -/
theorem run_comma {ts : List Token} {m : Nat} {p : Period} (h : ofTokens ts m = .ok p)
    (hne : ts ≠ []) (f : Nat → Nat) (k : Nat) :
    (ts ++ [(⟨.comma, k⟩ : Token)]).foldlM Reading.step .initial =
      .ok (Reading.initial.moved p.subPeriods f) := by
  obtain ⟨r, hrun, hfinish⟩ := ok_of_bind h
  have hr : r ≠ .initial := by
    rintro rfl
    exact hne (Reading.eq_nil_of_run_initial hrun)
  rw [Reading.finish_of_ne_initial hr] at hfinish
  obtain ⟨sub, hsub, hp⟩ := ok_of_bind hfinish
  cases hp
  have hcomma : Reading.step ⟨r.done, r.progress⟩ ⟨.comma, k⟩ = .ok ⟨r.done ++ [sub], .start⟩ :=
    Reading.step_comma (Progress.finish_of_finish hsub (some .comma) k)
  have hmoved : Reading.initial.moved (r.done ++ [sub]) f = ⟨r.done ++ [sub], .start⟩ := by
    simp [Reading.moved, Reading.initial, Progress.moved]
  rw [Reading.run_append hrun, hmoved]
  exact Reading.run_cons hcomma []

theorem ofTokens_append_comma {ts us : List Token} {m : Nat} {p : Period}
    (h : ofTokens ts m = .ok p) (hne : ts ≠ []) (hne' : us ≠ []) (f : Nat → Nat) (k n : Nat) :
    ofTokens (ts ++ ⟨.comma, k⟩ :: us.map (Token.moved f)) (f n) =
      movedResult f (fun q => ⟨p.subPeriods ++ q.subPeriods⟩) (ofTokens us n) := by
  have hcomma := run_comma h hne f k
  have hus := Reading.run_moved f p.subPeriods us .initial
  rw [List.append_cons, ofTokens, Reading.run_append hcomma, hus, ofTokens]
  cases hrun : us.foldlM Reading.step .initial with
  | error fault => rfl
  | ok r =>
    have hr : r ≠ .initial := by
      rintro rfl
      exact hne' (Reading.eq_nil_of_run_initial hrun)
    have hr' := Reading.moved_ne_initial f (subPeriods_ne_nil_of_ofTokens h hne) r
    have hcomplete := r.complete_moved f p.subPeriods n
    rw [← Reading.finish_of_ne_initial hr, ← Reading.finish_of_ne_initial hr'] at hcomplete
    exact hcomplete

theorem ofTokens_comma_end {ts : List Token} {m : Nat} {p : Period} (h : ofTokens ts m = .ok p)
    (hne : ts ≠ []) (k n : Nat) :
    ofTokens (ts ++ [⟨.comma, k⟩]) n = .error (.emptySubPeriod n) := by
  have hcomma := run_comma h hne id k
  have hr := Reading.moved_ne_initial id (subPeriods_ne_nil_of_ofTokens h hne) .initial
  simp only [ofTokens, hcomma]
  exact Reading.finish_of_ne_initial hr n

theorem tokens_eq_nil_iff {text : List Char} (h : ∀ c ∈ text, isAdmitted c = true) :
    tokens 0 text = [] ↔ Blank text := by
  constructor
  · intro hts
    have hscan := scans_tokens h 0
    rw [hts] at hscan
    exact scans_nil_iff.mp hscan
  · intro hblank
    exact (scans_nil_iff.mpr hblank).tokens_eq

theorem ofChars_of_append_comma {a b : List Char} {p : Period}
    (h : ofChars (a ++ ',' :: b) = .ok p) : ¬ Blank a ∧ ∃ q, ofChars a = .ok q := by
  have hadmitted := admitted_of_ofChars h
  have ha : ∀ c ∈ a, isAdmitted c = true := fun c hc => hadmitted c (by simp [hc])
  have hb : ∀ c ∈ b, isAdmitted c = true := fun c hc => hadmitted c (by simp [hc])
  rw [ofChars_of_admitted hadmitted, tokens_append_comma ha hb] at h
  rw [ofChars_of_admitted ha, ← tokens_eq_nil_iff ha]
  exact ofTokens_of_append_comma h _

theorem ofChars_of_blank {text : List Char} (h : Blank text) :
    ofChars text = .ok .unconstrained := by
  have hadmitted : ∀ c ∈ text, isAdmitted c = true := fun c hc => isAdmitted_of_isBlank (h c hc)
  rw [ofChars_of_admitted hadmitted, (tokens_eq_nil_iff hadmitted).mpr h]
  rfl

section Behind

variable {a b : List Char} {p : Period} (h : ofChars a = .ok p) (hne : ¬ Blank a)

include h hne

theorem ofTokens_of_ofChars : ofTokens (tokens 0 a) (byteLength a) = .ok p ∧ tokens 0 a ≠ [] := by
  have ha := admitted_of_ofChars h
  rw [ofChars_of_admitted ha] at h
  exact ⟨h, fun hnil => hne ((tokens_eq_nil_iff ha).mp hnil)⟩

theorem subPeriods_ne_nil : p.subPeriods ≠ [] := by
  obtain ⟨hp, hts⟩ := ofTokens_of_ofChars h hne
  exact subPeriods_ne_nil_of_ofTokens hp hts

theorem ofChars_append_comma (hne' : ¬ Blank b) :
    ofChars (a ++ ',' :: b) =
      movedResult (· + (byteLength a + 1)) (fun q => ⟨p.subPeriods ++ q.subPeriods⟩)
        (ofChars b) := by
  have ha := admitted_of_ofChars h
  have hbehind := intruder?_append_comma ha b
  cases hb : intruder? 0 b with
  | some found =>
    rw [hb] at hbehind
    simp only [ofChars, hb, hbehind]
    rfl
  | none =>
    have hb := intruder?_eq_none_iff.mp hb
    have hall := admitted_append_comma ha hb
    obtain ⟨hp, hts⟩ := ofTokens_of_ofChars h hne
    have hts' : tokens 0 b ≠ [] := fun hnil => hne' ((tokens_eq_nil_iff hb).mp hnil)
    rw [ofChars_of_admitted hall, ofChars_of_admitted hb, tokens_append_comma ha hb,
      byteLength_append_comma]
    exact ofTokens_append_comma hp hts hts' _ _ _

theorem ofChars_append_comma_blank (hb : Blank b) :
    ofChars (a ++ ',' :: b) = .error (.emptySubPeriod (byteLength (a ++ ',' :: b))) := by
  have ha := admitted_of_ofChars h
  have hb' : ∀ c ∈ b, isAdmitted c = true := fun c hc => isAdmitted_of_isBlank (hb c hc)
  have hall := admitted_append_comma ha hb'
  obtain ⟨hp, hts⟩ := ofTokens_of_ofChars h hne
  have hnil := (tokens_eq_nil_iff hb').mpr hb
  rw [ofChars_of_admitted hall, tokens_append_comma ha hb', hnil]
  exact ofTokens_comma_end hp hts _ _

theorem ofChars_append_comma_eq_error_iff {fault : Fault} :
    ofChars (a ++ ',' :: b) = .error fault ↔
      Blank b ∧ fault = .emptySubPeriod (byteLength (a ++ ',' :: b)) ∨
      ∃ fault', ofChars b = .error fault' ∧ fault = fault'.moved (· + (byteLength a + 1)) := by
  by_cases hb : Blank b
  · have hend := ofChars_append_comma_blank h hne hb
    have hread := ofChars_of_blank hb
    simp [hend, hread, hb, eq_comm]
  · rw [ofChars_append_comma h hne hb, movedResult_eq_error_iff]
    simp [hb]

end Behind

theorem ofChars_append_comma_eq_ok_iff {a b : List Char} {p : Period} :
    ofChars (a ++ ',' :: b) = .ok p ↔ ∃ q r, ofChars a = .ok q ∧ ofChars b = .ok r ∧
      ¬ Blank a ∧ ¬ Blank b ∧ p = ⟨q.subPeriods ++ r.subPeriods⟩ := by
  constructor
  · intro h
    obtain ⟨hne, q, hq⟩ := ofChars_of_append_comma h
    have hne' : ¬ Blank b := by
      intro hb
      rw [ofChars_append_comma_blank hq hne hb] at h
      cases h
    rw [ofChars_append_comma hq hne hne'] at h
    obtain ⟨r, hr, hp⟩ := movedResult_eq_ok_iff.mp h
    exact ⟨q, r, hq, hr, hne, hne', hp⟩
  · rintro ⟨q, r, hq, hr, hne, hne', rfl⟩
    rw [ofChars_append_comma hq hne hne', hr]
    rfl

theorem holds_append {p q : Period} (hp : p.subPeriods ≠ []) (hq : q.subPeriods ≠ [])
    (t : DateTime) :
    holds t ⟨p.subPeriods ++ q.subPeriods⟩ = (p.holds t || q.holds t) := by
  have hp' := List.isEmpty_eq_false_iff.mpr hp
  have hq' := List.isEmpty_eq_false_iff.mpr hq
  have happend := List.isEmpty_eq_false_iff.mpr (List.append_ne_nil_of_left_ne_nil hp q.subPeriods)
  simp [holds, isUnconstrained, hp', hq', happend]

/-- A comma makes one period of two texts where both are periods and neither is blank, and the
period holds where one of the two does. Behind a text that is a period, what is wrong with the whole
is what is wrong with the second text alone, with its positions counted from the beginning. -/
theorem parse_append_comma (a b : String) :
    (∀ p, parse (a ++ "," ++ b) = .ok p ↔ ∃ q r, parse a = .ok q ∧ parse b = .ok r ∧
      ¬ Blank a.toList ∧ ¬ Blank b.toList ∧ p = ⟨q.subPeriods ++ r.subPeriods⟩) ∧
    (∀ p q r, parse (a ++ "," ++ b) = .ok p → parse a = .ok q → parse b = .ok r →
      ∀ t, p.holds t = (q.holds t || r.holds t)) ∧
    ∀ q, parse a = .ok q → ¬ Blank a.toList → ∀ fault,
      parse (a ++ "," ++ b) = .error fault ↔
        Blank b.toList ∧ fault = .emptySubPeriod (byteLength (a ++ "," ++ b).toList) ∨
        ∃ fault', parse b = .error fault' ∧
          fault = fault'.moved (· + (byteLength a.toList + 1)) := by
  have htext : (a ++ "," ++ b).toList = a.toList ++ ',' :: b.toList := by simp
  simp only [parse, htext]
  refine ⟨fun p => ofChars_append_comma_eq_ok_iff, ?_, ?_⟩
  · intro p q r hp hq hr t
    obtain ⟨q', r', hq', hr', hne, hne', rfl⟩ := ofChars_append_comma_eq_ok_iff.mp hp
    cases hq.symm.trans hq'
    cases hr.symm.trans hr'
    exact holds_append (subPeriods_ne_nil hq hne) (subPeriods_ne_nil hr hne') t
  · intro q hq hne fault
    exact ofChars_append_comma_eq_error_iff hq hne

theorem parse_append_comma_of_missing_bound :
    parse "never" = .ok ⟨[.never]⟩ ∧ ¬ Blank "never".toList ∧
      parse "hr \x7b9-\x7d" = .error (.span .noUpperBound .hour 5) ∧
      parse ("never" ++ "," ++ "hr \x7b9-\x7d") = .error (.span .noUpperBound .hour 11) := by
  have hread : parse "never" = .ok ⟨[.never]⟩ := rfl
  have hfault : parse "hr \x7b9-\x7d" = .error (.span .noUpperBound .hour 5) := rfl
  have hne : ¬ Blank "never".toList := by
    intro h
    have hn := h 'n' (by simp)
    cases hn
  exact ⟨hread, hne, hfault,
    ((parse_append_comma _ _).2.2 _ hread hne _).mpr (.inr ⟨_, hfault, rfl⟩)⟩

end Period

end Recurrence
