import Recurrence.Proofs.Grammar

/-! What a reading stands for: the derivations of the lexemes behind it, as far as they have come.
Each token that is accepted carries them on, so a text that is read has a derivation. -/

namespace Recurrence

theorem ok_of_bind {ε α β : Type} {first : Except ε α} {next : α → Except ε β} {b : β}
    (h : first >>= next = .ok b) : ∃ a, first = .ok a ∧ next a = .ok b := by
  cases first with
  | error fault => cases h
  | ok a => exact ⟨a, rfl, h⟩

theorem error_of_bind {ε α β : Type} {first : Except ε α} {next : α → Except ε β} {e : ε}
    (h : first >>= next = .error e) : first = .error e ∨ ∃ a, first = .ok a ∧ next a = .error e := by
  cases first with
  | error e' =>
    cases h
    exact .inl rfl
  | ok a => exact .inr ⟨a, rfl, h⟩

def Listing.Reads (l : Listing) (ls : List Lexeme) : Prop :=
  match l.item with
  | .none => ls = [] ∧ l.spans = []
  | .value low => ∃ before word, ls = before ++ [.word word] ∧
      Many (DerivesSpan l.scale) before l.spans ∧ l.scale.valueOf word = .ok low
  | .dash low _ => ∃ before word, ls = before ++ [.word word, .dash] ∧
      Many (DerivesSpan l.scale) before l.spans ∧ l.scale.valueOf word = .ok low
  | .span low high => ∃ before word word', ls = before ++ [.word word, .dash, .word word'] ∧
      Many (DerivesSpan l.scale) before l.spans ∧ l.scale.valueOf word = .ok low ∧
      l.scale.valueOf word' = .ok high

namespace Listing

theorem Reads.settled {l : Listing} {ls : List Lexeme} {spans : List Span} (h : l.Reads ls)
    (hs : l.settled = .ok spans) : Many (DerivesSpan l.scale) ls spans := by
  obtain ⟨s, p, spans₀, item⟩ := l
  cases item with
  | none =>
    obtain ⟨rfl, rfl⟩ := h
    cases hs
    exact .nil
  | value low =>
    obtain ⟨before, word, rfl, hmany, hw⟩ := h
    cases hs
    exact hmany.snoc (.single hw)
  | dash low q => cases hs
  | span low high =>
    obtain ⟨before, word, word', rfl, hmany, hw, hw'⟩ := h
    cases hs
    exact hmany.snoc (.range hw hw')

theorem Reads.word {l l' : Listing} {ls : List Lexeme} {letters : List Char} (h : l.Reads ls)
    (hw : l.word letters = .ok l') :
    l'.scale = l.scale ∧ l'.Reads (ls ++ [.word letters]) := by
  obtain ⟨s, p, spans, item⟩ := l
  cases hv : s.valueOf letters with
  | error fault => simp [Listing.word, hv] at hw
  | ok value =>
    simp only [Listing.word, hv] at hw
    cases item with
    | none =>
      cases hw
      obtain ⟨rfl, rfl⟩ := h
      exact ⟨rfl, [], letters, rfl, .nil, hv⟩
    | value low =>
      have hmany := h.settled rfl
      cases hw
      exact ⟨rfl, ls, letters, rfl, hmany, hv⟩
    | dash low q =>
      obtain ⟨before, word, rfl, hmany, hlow⟩ := h
      cases hw
      exact ⟨rfl, before, word, letters, by simp, hmany, hlow, hv⟩
    | span low high =>
      have hmany := h.settled rfl
      cases hw
      exact ⟨rfl, ls, letters, rfl, hmany, hv⟩

theorem Reads.dash {l l' : Listing} {ls : List Lexeme} {p : Nat} (h : l.Reads ls)
    (hd : l.dash p = .ok l') : l'.scale = l.scale ∧ l'.Reads (ls ++ [.dash]) := by
  obtain ⟨s, q, spans, item⟩ := l
  cases item with
  | value low =>
    obtain ⟨before, word, rfl, hmany, hlow⟩ := h
    cases hd
    exact ⟨rfl, before, word, by simp, hmany, hlow⟩
  | none => cases hd
  | dash low q => cases hd
  | span low high => cases hd

theorem Reads.closing {l : Listing} {ls : List Lexeme} {c : Clause} (h : l.Reads ls)
    (hc : l.closing = .ok c) :
    c.scale = l.scale ∧ Many (DerivesSpan l.scale) ls c.spans ∧ c.spans ≠ [] := by
  obtain ⟨spans, hs, hc⟩ := ok_of_bind hc
  cases spans with
  | nil => cases hc
  | cons r rs =>
    cases hc
    exact ⟨rfl, h.settled hs, by simp⟩

end Listing

/-- The clauses of the sub-period that is being read are as they are written. -/
def Progress.Reads (q : Progress) (ls : List Lexeme) : Prop :=
  match q with
  | .start => ls = []
  | .whole sub => DerivesSubPeriod ls sub ∧ sub.gathered = sub
  | .clauses cs => Many DerivesClause ls cs ∧ cs ≠ []
  | .scale cs s => ∃ before word, ls = before ++ [.word word] ∧
      Many DerivesClause before cs ∧ Scale.named? word = some s
  | .listing cs l => ∃ before word inner, ls = before ++ .word word :: .opening :: inner ∧
      Many DerivesClause before cs ∧ Scale.named? word = some l.scale ∧ l.Reads inner

namespace Progress

theorem derives_of_ofWord? {letters : List Char} {sub : SubPeriod}
    (h : SubPeriod.ofWord? letters = some sub) :
    DerivesSubPeriod [.word letters] sub ∧ sub.gathered = sub := by
  rw [SubPeriod.ofWord?] at h
  by_cases halways : letters = "always".toList ∨ letters = "none".toList
  · rw [if_pos halways] at h
    cases h
    rcases halways with rfl | rfl
    · exact ⟨.always, rfl⟩
    · exact ⟨.none, rfl⟩
  · rw [if_neg halways] at h
    by_cases hnever : letters = "never".toList
    · rw [if_pos hnever] at h
      cases h
      exact ⟨hnever ▸ .never, rfl⟩
    · rw [if_neg hnever] at h
      cases h

theorem reads_clause {ls : List Lexeme} {cs : List Clause} {letters : List Char} {p : Nat}
    {q : Progress} (h : Many DerivesClause ls cs) (hq : clause cs letters p = .ok q) :
    q.Reads (ls ++ [.word letters]) := by
  cases hs : Scale.named? letters with
  | none => simp [clause, hs] at hq
  | some s =>
    simp only [clause, hs] at hq
    cases hq
    exact ⟨ls, letters, rfl, h, hs⟩

theorem Reads.word {q q' : Progress} {ls : List Lexeme} {letters : List Char} {p : Nat}
    (h : q.Reads ls) (hq : q.word letters p = .ok q') : q'.Reads (ls ++ [.word letters]) := by
  cases q with
  | start =>
    obtain rfl : ls = [] := h
    cases hw : SubPeriod.ofWord? letters with
    | some sub =>
      simp only [Progress.word, hw] at hq
      cases hq
      exact derives_of_ofWord? hw
    | none =>
      simp only [Progress.word, hw] at hq
      exact reads_clause .nil hq
  | whole sub => cases hq
  | clauses cs => exact reads_clause h.1 hq
  | scale cs s => cases hq
  | listing cs l =>
    obtain ⟨before, word, inner, rfl, hmany, hs, hl⟩ := h
    obtain ⟨l', hl', hq⟩ := ok_of_bind hq
    cases hq
    have hread := hl.word hl'
    exact ⟨before, word, inner ++ [.word letters], by simp, hmany, hread.1 ▸ hs, hread.2⟩

theorem Reads.opening {q q' : Progress} {ls : List Lexeme} {p : Nat} (h : q.Reads ls)
    (hq : q.opening p = .ok q') : q'.Reads (ls ++ [.opening]) := by
  cases q with
  | start => cases hq
  | whole sub => cases hq
  | clauses cs => cases hq
  | scale cs s =>
    obtain ⟨before, word, rfl, hmany, hs⟩ := h
    cases hq
    exact ⟨before, word, [], by simp, hmany, hs, rfl, rfl⟩
  | listing cs l =>
    obtain ⟨spans, -, hq⟩ := ok_of_bind hq
    cases hq

theorem Reads.closing {q q' : Progress} {ls : List Lexeme} {p : Nat} (h : q.Reads ls)
    (hq : q.closing p = .ok q') : q'.Reads (ls ++ [.closing]) := by
  cases q with
  | start => cases hq
  | whole sub => cases hq
  | clauses cs => cases hq
  | scale cs s => cases hq
  | listing cs l =>
    obtain ⟨before, word, inner, rfl, hmany, hs, hl⟩ := h
    obtain ⟨⟨s, spans⟩, hc, hq⟩ := ok_of_bind hq
    cases hq
    obtain ⟨rfl, hspans, hne⟩ := hl.closing hc
    have hclause := hmany.snoc (.mk hs hspans hne)
    exact ⟨by simpa using hclause, by simp⟩

theorem Reads.dash {q q' : Progress} {ls : List Lexeme} {p : Nat} (h : q.Reads ls)
    (hq : q.dash p = .ok q') : q'.Reads (ls ++ [.dash]) := by
  cases q with
  | start => cases hq
  | whole sub => cases hq
  | clauses cs => cases hq
  | scale cs s => cases hq
  | listing cs l =>
    obtain ⟨before, word, inner, rfl, hmany, hs, hl⟩ := h
    obtain ⟨l', hl', hq⟩ := ok_of_bind hq
    cases hq
    have hread := hl.dash hl'
    exact ⟨before, word, inner ++ [.dash], by simp, hmany, hread.1 ▸ hs, hread.2⟩

theorem Reads.finish {q : Progress} {ls : List Lexeme} {found : Option Lexeme} {p : Nat}
    {sub : SubPeriod} (h : q.Reads ls) (hq : q.finish found p = .ok sub) :
    ∃ sub', DerivesSubPeriod ls sub' ∧ sub'.gathered = sub := by
  cases q with
  | start => cases hq
  | whole sub =>
    cases hq
    exact ⟨sub, h⟩
  | clauses cs =>
    cases hq
    exact ⟨.clauses cs, .clauses h.1 h.2, rfl⟩
  | scale cs s => cases hq
  | listing cs l =>
    obtain ⟨spans, -, hq⟩ := ok_of_bind hq
    cases hq

end Progress

/-- The sub-periods before the last comma, if there is one, derive what stands there. -/
def Reading.Reads (r : Reading) (ls : List Lexeme) : Prop :=
  r.done = [] ∧ r.progress.Reads ls ∨
    ∃ before after subs, ls = before ++ .comma :: after ∧ DerivesPeriod before subs ∧
      subs.map SubPeriod.gathered = r.done ∧ r.progress.Reads after

namespace Reading

theorem Reads.advance {r : Reading} {ls : List Lexeme} {l : Lexeme} {q : Progress}
    (h : r.Reads ls) (hq : ∀ ls', r.progress.Reads ls' → q.Reads (ls' ++ [l])) :
    Reads ⟨r.done, q⟩ (ls ++ [l]) := by
  rcases h with ⟨hdone, h⟩ | ⟨before, after, subs, rfl, hsubs, hdone, h⟩
  · exact .inl ⟨hdone, hq ls h⟩
  · exact .inr ⟨before, after ++ [l], subs, by simp, hsubs, hdone, hq after h⟩

theorem Reads.finish {r : Reading} {ls : List Lexeme} {found : Option Lexeme} {p : Nat}
    {sub : SubPeriod} (h : r.Reads ls) (hq : r.progress.finish found p = .ok sub) :
    ∃ subs, DerivesPeriod ls subs ∧ subs.map SubPeriod.gathered = r.done ++ [sub] := by
  rcases h with ⟨hdone, h⟩ | ⟨before, after, subs, rfl, hsubs, hdone, h⟩
  · obtain ⟨sub', hsub, rfl⟩ := h.finish hq
    exact ⟨[sub'], .one hsub, by simp [hdone]⟩
  · obtain ⟨sub', hsub, rfl⟩ := h.finish hq
    exact ⟨subs ++ [sub'], hsubs.snoc hsub, by simp [hdone]⟩

theorem Reads.step {r r' : Reading} {ls : List Lexeme} {t : Token} (h : r.Reads ls)
    (hr : r.step t = .ok r') : r'.Reads (ls ++ [t.lexeme]) := by
  obtain ⟨l, p⟩ := t
  cases l with
  | word letters =>
    obtain ⟨q, hq, hr⟩ := ok_of_bind hr
    cases hr
    exact h.advance fun _ hread => hread.word hq
  | opening =>
    obtain ⟨q, hq, hr⟩ := ok_of_bind hr
    cases hr
    exact h.advance fun _ hread => hread.opening hq
  | closing =>
    obtain ⟨q, hq, hr⟩ := ok_of_bind hr
    cases hr
    exact h.advance fun _ hread => hread.closing hq
  | dash =>
    obtain ⟨q, hq, hr⟩ := ok_of_bind hr
    cases hr
    exact h.advance fun _ hread => hread.dash hq
  | comma =>
    obtain ⟨sub, hq, hr⟩ := ok_of_bind hr
    cases hr
    obtain ⟨subs, hsubs, hdone⟩ := h.finish hq
    exact .inr ⟨ls, [], subs, rfl, hsubs, hdone, rfl⟩

theorem Reads.run {ts : List Token} {r r' : Reading} {ls : List Lexeme} (h : r.Reads ls)
    (hr : ts.foldlM Reading.step r = .ok r') : r'.Reads (ls ++ ts.map Token.lexeme) := by
  induction ts generalizing r ls with
  | nil =>
    cases hr
    simpa using h
  | cons t ts ih =>
    rw [List.foldlM_cons] at hr
    obtain ⟨r₁, ht, hts⟩ := ok_of_bind hr
    simpa using ih (h.step ht) hts

end Reading

end Recurrence
