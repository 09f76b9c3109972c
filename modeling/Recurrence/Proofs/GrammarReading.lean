import Recurrence.Proofs.ReadingInvariant

/-! Reading accepts what the grammar derives, and nothing else. -/

namespace Recurrence

theorem map_lexeme_eq_cons {ts : List Token} {l : Lexeme} {ls : List Lexeme}
    (h : ts.map Token.lexeme = l :: ls) :
    ∃ p us, ts = ⟨l, p⟩ :: us ∧ us.map Token.lexeme = ls := by
  obtain ⟨⟨l, p⟩, us, rfl, rfl, hus⟩ := List.map_eq_cons_iff.mp h
  exact ⟨p, us, rfl, hus⟩

namespace Listing

theorem word_of_settled {l : Listing} {spans : List Span} {letters : List Char} {value : Nat}
    (h : l.settled = .ok spans) (hv : l.scale.valueOf letters = .ok value) :
    l.word letters = .ok ⟨l.scale, l.brace, spans, .value value⟩ := by
  obtain ⟨s, p, spans₀, item⟩ := l
  simp only [word, hv]
  cases item <;> cases h <;> rfl

theorem word_of_dash {s : Scale} {p q low value : Nat} {spans : List Span} {letters : List Char}
    (hv : s.valueOf letters = .ok value) :
    word letters ⟨s, p, spans, .dash low q⟩ = .ok ⟨s, p, spans, .span low value⟩ := by
  simp only [word, hv]

theorem closing_of_settled {l : Listing} {spans : List Span} (h : l.settled = .ok spans)
    (hne : spans ≠ []) : l.closing = .ok ⟨l.scale, spans⟩ := by
  obtain ⟨r, rs, rfl⟩ := List.exists_cons_of_ne_nil hne
  simp only [closing, h]
  rfl

end Listing

theorem ofWord?_of_named? {letters : List Char} {s : Scale} (h : Scale.named? letters = some s) :
    SubPeriod.ofWord? letters = none := by
  have hne : ∀ word : List Char, Scale.named? word = none → letters ≠ word := by
    rintro word hword rfl
    simp [h] at hword
  have halways := hne "always".toList (by decide)
  have hnone := hne "none".toList (by decide)
  have hnever := hne "never".toList (by decide)
  simp only [SubPeriod.ofWord?, halways, hnone, hnever, or_self, if_false]

namespace Progress

def ofClauses : List Clause → Progress
  | [] => .start
  | c :: cs => .clauses (c :: cs)

theorem ofClauses_append (cs : List Clause) (c : Clause) :
    ofClauses (cs ++ [c]) = .clauses (cs ++ [c]) := by
  cases cs <;> rfl

theorem word_ofClauses {letters : List Char} {s : Scale} (h : Scale.named? letters = some s)
    (cs : List Clause) (p : Nat) : (ofClauses cs).word letters p = .ok (.scale cs s) := by
  cases cs with
  | nil => simp only [ofClauses, word, ofWord?_of_named? h, clause, h]
  | cons c cs => simp only [ofClauses, word, clause, h]

end Progress

namespace Reading

theorem run_cons {r r' : Reading} {t : Token} (h : r.step t = .ok r') (ts : List Token) :
    (t :: ts).foldlM step r = ts.foldlM step r' := by
  rw [List.foldlM_cons, h]
  rfl

theorem run_append {r r' : Reading} {ts : List Token} (h : ts.foldlM step r = .ok r')
    (us : List Token) : (ts ++ us).foldlM step r = us.foldlM step r' := by
  rw [List.foldlM_append, h]
  rfl

theorem step_word {done : List SubPeriod} {q q' : Progress} {letters : List Char} {p : Nat}
    (h : q.word letters p = .ok q') : step ⟨done, q⟩ ⟨.word letters, p⟩ = .ok ⟨done, q'⟩ := by
  simp only [step, h]
  rfl

theorem step_listing_word {done : List SubPeriod} {cs : List Clause} {l l' : Listing}
    {letters : List Char} (h : l.word letters = .ok l') (p : Nat) :
    step ⟨done, .listing cs l⟩ ⟨.word letters, p⟩ = .ok ⟨done, .listing cs l'⟩ := by
  simp only [step, Progress.word, h]
  rfl

theorem step_opening {done : List SubPeriod} {cs : List Clause} {s : Scale} {p : Nat} :
    step ⟨done, .scale cs s⟩ ⟨.opening, p⟩ = .ok ⟨done, .listing cs ⟨s, p, [], .none⟩⟩ := rfl

theorem step_listing_dash {done : List SubPeriod} {cs : List Clause} {l l' : Listing} {p : Nat}
    (h : l.dash p = .ok l') :
    step ⟨done, .listing cs l⟩ ⟨.dash, p⟩ = .ok ⟨done, .listing cs l'⟩ := by
  simp only [step, Progress.dash, h]
  rfl

theorem step_comma {done : List SubPeriod} {q : Progress} {p : Nat} {sub : SubPeriod}
    (h : q.finish (some .comma) p = .ok sub) :
    step ⟨done, q⟩ ⟨.comma, p⟩ = .ok ⟨done ++ [sub], .start⟩ := by
  simp only [step, h]
  rfl

theorem step_closing {done : List SubPeriod} {cs : List Clause} {l : Listing} {c : Clause}
    (h : l.closing = .ok c) (p : Nat) :
    step ⟨done, .listing cs l⟩ ⟨.closing, p⟩ = .ok ⟨done, .clauses (cs ++ [c])⟩ := by
  simp only [step, Progress.closing, h]
  rfl

theorem run_span {s : Scale} {ls : List Lexeme} {r : Span} (h : DerivesSpan s ls r)
    {ts : List Token} (hts : ts.map Token.lexeme = ls) (done : List SubPeriod) (cs : List Clause)
    {l : Listing} {spans : List Span} (hl : l.scale = s) (hsettled : l.settled = .ok spans) :
    ∃ l', ts.foldlM step ⟨done, .listing cs l⟩ = .ok ⟨done, .listing cs l'⟩ ∧
      l'.scale = s ∧ l'.settled = .ok (spans ++ [r]) := by
  subst hl
  cases h with
  | single hv =>
    obtain ⟨p, us, rfl, hus⟩ := map_lexeme_eq_cons hts
    obtain rfl := List.map_eq_nil_iff.mp hus
    have hword := Listing.word_of_settled hsettled hv
    exact ⟨_, run_cons (step_listing_word hword p) [], rfl, rfl⟩
  | @range word word' low high hlow hhigh =>
    obtain ⟨p, us, rfl, hus⟩ := map_lexeme_eq_cons hts
    obtain ⟨q, vs, rfl, hvs⟩ := map_lexeme_eq_cons hus
    obtain ⟨p', ws, rfl, hws⟩ := map_lexeme_eq_cons hvs
    obtain rfl := List.map_eq_nil_iff.mp hws
    have hword := Listing.word_of_settled hsettled hlow
    have hdash : Listing.dash q ⟨l.scale, l.brace, spans, .value low⟩ =
        .ok ⟨l.scale, l.brace, spans, .dash low q⟩ := rfl
    have hword' : Listing.word word' ⟨l.scale, l.brace, spans, .dash low q⟩ =
        .ok ⟨l.scale, l.brace, spans, .span low high⟩ := Listing.word_of_dash hhigh
    refine ⟨⟨l.scale, l.brace, spans, .span low high⟩, ?_, rfl, rfl⟩
    rw [run_cons (step_listing_word hword p), run_cons (step_listing_dash hdash)]
    exact run_cons (step_listing_word hword' p') []

theorem run_spans {s : Scale} {ls : List Lexeme} {rs : List Span} (h : Many (DerivesSpan s) ls rs)
    {ts : List Token} (hts : ts.map Token.lexeme = ls) (done : List SubPeriod) (cs : List Clause)
    {l : Listing} (hl : l.scale = s) (hsettled : l.settled = .ok []) :
    ∃ l', ts.foldlM step ⟨done, .listing cs l⟩ = .ok ⟨done, .listing cs l'⟩ ∧
      l'.scale = s ∧ l'.settled = .ok rs := by
  induction h generalizing ts with
  | nil =>
    obtain rfl := List.map_eq_nil_iff.mp hts
    exact ⟨l, rfl, hl, hsettled⟩
  | snoc _ hlast ih =>
    obtain ⟨us, vs, rfl, hus, hvs⟩ := List.map_eq_append_iff.mp hts
    obtain ⟨l₁, hrun, hl₁, hsettled₁⟩ := ih hus
    obtain ⟨l₂, hrun', hl₂, hsettled₂⟩ := run_span hlast hvs done cs hl₁ hsettled₁
    exact ⟨l₂, (run_append hrun vs).trans hrun', hl₂, hsettled₂⟩

theorem run_clause {ls : List Lexeme} {c : Clause} (h : DerivesClause ls c) {ts : List Token}
    (hts : ts.map Token.lexeme = ls) (done : List SubPeriod) (cs : List Clause) :
    ts.foldlM step ⟨done, .ofClauses cs⟩ = .ok ⟨done, .ofClauses (cs ++ [c])⟩ := by
  obtain ⟨hs, hspans, hne⟩ := h
  obtain ⟨p, us, rfl, hus⟩ := map_lexeme_eq_cons hts
  obtain ⟨q, vs, rfl, hvs⟩ := map_lexeme_eq_cons hus
  obtain ⟨inner, last, rfl, hinner, hlast⟩ := List.map_eq_append_iff.mp hvs
  obtain ⟨p', ws, rfl, hws⟩ := map_lexeme_eq_cons hlast
  obtain rfl := List.map_eq_nil_iff.mp hws
  obtain ⟨l, hrun, hl, hsettled⟩ := run_spans hspans hinner done cs (l := ⟨_, q, [], .none⟩) rfl rfl
  have hclosing := Listing.closing_of_settled hsettled hne
  rw [run_cons (step_word (Progress.word_ofClauses hs cs p)), run_cons step_opening,
    run_append hrun, Progress.ofClauses_append, ← hl]
  exact run_cons (step_closing hclosing p') []

theorem run_clauses {ls : List Lexeme} {cs : List Clause} (h : Many DerivesClause ls cs)
    {ts : List Token} (hts : ts.map Token.lexeme = ls) (done : List SubPeriod) :
    ts.foldlM step ⟨done, .start⟩ = .ok ⟨done, .ofClauses cs⟩ := by
  induction h generalizing ts with
  | nil =>
    obtain rfl := List.map_eq_nil_iff.mp hts
    rfl
  | snoc _ hlast ih =>
    obtain ⟨us, vs, rfl, hus, hvs⟩ := List.map_eq_append_iff.mp hts
    exact (run_append (ih hus) vs).trans (run_clause hlast hvs done _)

theorem run_subPeriod {ls : List Lexeme} {sub : SubPeriod} (h : DerivesSubPeriod ls sub)
    {ts : List Token} (hts : ts.map Token.lexeme = ls) (done : List SubPeriod) :
    ∃ q, ts.foldlM step ⟨done, .start⟩ = .ok ⟨done, q⟩ ∧
      ∀ found p, q.finish found p = .ok sub.gathered := by
  have hword : ∀ {letters sub'}, ts.map Token.lexeme = [.word letters] →
      SubPeriod.ofWord? letters = some sub' →
      ts.foldlM step ⟨done, .start⟩ = .ok ⟨done, .whole sub'⟩ := by
    intro letters sub' hts hw
    obtain ⟨p, us, rfl, hus⟩ := map_lexeme_eq_cons hts
    obtain rfl := List.map_eq_nil_iff.mp hus
    exact run_cons (step_word (by simp only [Progress.word, hw])) []
  cases h with
  | always => exact ⟨.whole .always, hword hts (by decide), fun _ _ => rfl⟩
  | none => exact ⟨.whole .always, hword hts (by decide), fun _ _ => rfl⟩
  | never => exact ⟨.whole .never, hword hts (by decide), fun _ _ => rfl⟩
  | @clauses _ cs hcs hne =>
    obtain ⟨c, cs, rfl⟩ := List.exists_cons_of_ne_nil hne
    exact ⟨.clauses (c :: cs), run_clauses hcs hts done, fun _ _ => rfl⟩

theorem run_period {ls : List Lexeme} {subs : List SubPeriod} (h : DerivesPeriod ls subs)
    {ts : List Token} (hts : ts.map Token.lexeme = ls) :
    ∃ done q sub, ts.foldlM step initial = .ok ⟨done, q⟩ ∧
      (∀ found p, q.finish found p = .ok sub) ∧ done ++ [sub] = subs.map SubPeriod.gathered := by
  induction h generalizing ts with
  | one h =>
    obtain ⟨q, hrun, hfinish⟩ := run_subPeriod h hts []
    exact ⟨[], q, _, hrun, hfinish, rfl⟩
  | snoc _ hlast ih =>
    obtain ⟨us, vs, rfl, hus, hvs⟩ := List.map_eq_append_iff.mp hts
    obtain ⟨p, ws, rfl, hws⟩ := map_lexeme_eq_cons hvs
    obtain ⟨done, q, sub, hrun, hfinish, hdone⟩ := ih hus
    obtain ⟨q', hrun', hfinish'⟩ := run_subPeriod hlast hws (done ++ [sub])
    refine ⟨done ++ [sub], q', _, ?_, hfinish', by simp [hdone]⟩
    rw [run_append hrun, run_cons (step_comma (hfinish _ p))]
    exact hrun'

theorem finish_of_progress {done : List SubPeriod} {q : Progress} {sub : SubPeriod}
    (h : ∀ found p, q.finish found p = .ok sub) (length : Nat) :
    finish ⟨done, q⟩ length = .ok ⟨done ++ [sub]⟩ := by
  have hne : (⟨done, q⟩ : Reading) ≠ initial := by
    intro he
    cases he
    cases h none 0
  simp only [finish, if_neg hne, h]
  rfl

end Reading

namespace Period

theorem derives_of_ofTokens {ts : List Token} {length : Nat} {p : Period}
    (h : ofTokens ts length = .ok p) :
    ∃ subs, (ts = [] ∧ subs = [] ∨ DerivesPeriod (ts.map Token.lexeme) subs) ∧
      p = ⟨subs.map SubPeriod.gathered⟩ := by
  obtain ⟨r, hrun, hfinish⟩ := ok_of_bind h
  have hreads : r.Reads (ts.map Token.lexeme) :=
    Reading.Reads.run (.inl ⟨rfl, rfl⟩ : Reading.initial.Reads []) hrun
  rw [Reading.finish] at hfinish
  by_cases hinitial : r = .initial
  · rw [if_pos hinitial] at hfinish
    subst hinitial
    cases hfinish
    rcases hreads with ⟨-, hls⟩ | ⟨before, after, subs, -, hsubs, hdone, -⟩
    · exact ⟨[], .inl ⟨List.map_eq_nil_iff.mp hls, rfl⟩, rfl⟩
    · have hnil : subs = [] := List.map_eq_nil_iff.mp hdone
      exact absurd hnil hsubs.ne_nil.2
  · rw [if_neg hinitial] at hfinish
    obtain ⟨sub, hq, hp⟩ := ok_of_bind hfinish
    cases hp
    obtain ⟨subs, hsubs, hdone⟩ := hreads.finish hq
    exact ⟨subs, .inr hsubs, by rw [hdone]⟩

theorem ofTokens_of_derives {ts : List Token} {subs : List SubPeriod}
    (h : ts = [] ∧ subs = [] ∨ DerivesPeriod (ts.map Token.lexeme) subs) (length : Nat) :
    ofTokens ts length = .ok ⟨subs.map SubPeriod.gathered⟩ := by
  rcases h with ⟨rfl, rfl⟩ | h
  · rfl
  · obtain ⟨done, q, sub, hrun, hfinish, hdone⟩ := Reading.run_period h rfl
    simp only [ofTokens, hrun, ← hdone]
    exact Reading.finish_of_progress hfinish length

theorem ofChars_of_admitted {text : List Char} (h : ∀ c ∈ text, isAdmitted c = true) :
    ofChars text = ofTokens (tokens 0 text) (byteLength text) := by
  simp only [ofChars, intruder?_eq_none_iff.mpr h]

theorem admitted_of_ofChars {text : List Char} {p : Period} (h : ofChars text = .ok p) :
    ∀ c ∈ text, isAdmitted c = true := by
  apply (intruder?_eq_none_iff (p := 0)).mp
  cases hi : intruder? 0 text with
  | none => rfl
  | some found => simp [ofChars, hi] at h

theorem writes_of_ofChars {text : List Char} {p : Period} (h : ofChars text = .ok p) :
    ∃ subs, Writes text subs ∧ p = ⟨subs.map SubPeriod.gathered⟩ := by
  have hadmitted := admitted_of_ofChars h
  rw [ofChars_of_admitted hadmitted] at h
  obtain ⟨subs, hsubs, hp⟩ := derives_of_ofTokens h
  exact ⟨subs, ⟨tokens 0 text, scans_tokens hadmitted 0, hsubs⟩, hp⟩

theorem ofChars_of_writes {text : List Char} {subs : List SubPeriod} (h : Writes text subs) :
    ofChars text = .ok ⟨subs.map SubPeriod.gathered⟩ := by
  obtain ⟨ts, hscan, hsubs⟩ := h
  rw [ofChars_of_admitted hscan.admitted, hscan.tokens_eq]
  exact ofTokens_of_derives hsubs _

/-- A text is a period where it is written in admitted characters and its tokens have a derivation,
and it is then the period that the derivation stands for. -/
theorem parse_eq_ok_iff (text : String) (p : Period) :
    parse text = .ok p ↔
      (∀ c ∈ text.toList, isBlank c = true ∨ c ∈ ['{', '}', ',', '-'] ∨ c.isAlphanum = true) ∧
      ∃ ts subs, Scans 0 text.toList ts ∧
        (ts = [] ∧ subs = [] ∨ DerivesPeriod (ts.map Token.lexeme) subs) ∧
        p = ⟨subs.map SubPeriod.gathered⟩ := by
  constructor
  · intro h
    obtain ⟨subs, ⟨ts, hscan, hsubs⟩, hp⟩ := writes_of_ofChars h
    exact ⟨fun c hc => isAdmitted_iff.mp (hscan.admitted c hc), ts, subs, hscan, hsubs, hp⟩
  · rintro ⟨-, ts, subs, hscan, hsubs, rfl⟩
    exact ofChars_of_writes ⟨ts, hscan, hsubs⟩

end Period

end Recurrence
