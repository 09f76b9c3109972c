import Recurrence.Period.Reader

/-! Reading takes positions as they come: it puts them into its faults and never compares them. So
it commutes with any change of the positions, and with sub-periods put before the first. -/

namespace Recurrence

def Fault.moved (f : Nat → Nat) : Fault → Fault
  | intruder c p => intruder c (f p)
  | unknownScale word p => unknownScale word (f p)
  | strayBrace p => strayBrace (f p)
  | nestedBrace p => nestedBrace (f p)
  | openBrace s p => openBrace s (f p)
  | noValues s p => noValues s (f p)
  | emptySubPeriod p => emptySubPeriod (f p)
  | value fault => value fault
  | span fault s p => span fault s (f p)
  | unexpected found wanted p => unexpected found wanted (f p)

def Token.moved (f : Nat → Nat) (t : Token) : Token := ⟨t.lexeme, f t.position⟩

def Item.moved (f : Nat → Nat) : Item → Item
  | dash low p => dash low (f p)
  | item => item

def Listing.moved (f : Nat → Nat) (l : Listing) : Listing :=
  ⟨l.scale, f l.brace, l.spans, l.item.moved f⟩

def Progress.moved (f : Nat → Nat) : Progress → Progress
  | listing cs l => listing cs (l.moved f)
  | q => q

/-- The same reading behind the sub-periods `before`. -/
def Reading.moved (before : List SubPeriod) (f : Nat → Nat) (r : Reading) : Reading :=
  ⟨before ++ r.done, r.progress.moved f⟩

def movedResult {α β : Type} (f : Nat → Nat) (g : α → β) (result : Except Fault α) :
    Except Fault β := (result.map g).mapError (Fault.moved f)

theorem movedResult_eq_ok_iff {α β : Type} {f : Nat → Nat} {g : α → β} {result : Except Fault α}
    {b : β} : movedResult f g result = .ok b ↔ ∃ a, result = .ok a ∧ b = g a := by
  constructor
  · intro h
    cases result with
    | error fault => cases h
    | ok a =>
      cases h
      exact ⟨a, rfl, rfl⟩
  · rintro ⟨a, rfl, rfl⟩
    rfl

theorem movedResult_eq_error_iff {α β : Type} {f : Nat → Nat} {g : α → β}
    {result : Except Fault α} {fault : Fault} : movedResult f g result = .error fault ↔
      ∃ fault', result = .error fault' ∧ fault = fault'.moved f := by
  constructor
  · intro h
    cases result with
    | ok a => cases h
    | error fault' =>
      cases h
      exact ⟨fault', rfl, rfl⟩
  · rintro ⟨fault', rfl, rfl⟩
    rfl

section Steps

variable {α β γ δ : Type} (f : Nat → Nat)

theorem movedResult_bind {g : α → β} {k : γ → δ} {first : Except Fault α}
    {next : α → Except Fault γ} {next' : β → Except Fault δ}
    (h : ∀ a, next' (g a) = movedResult f k (next a)) :
    movedResult f g first >>= next' = movedResult f k (first >>= next) := by
  cases first with
  | error fault => rfl
  | ok a => exact h a

theorem Listing.settled_moved (l : Listing) : (l.moved f).settled = movedResult f id l.settled := by
  obtain ⟨s, p, spans, item⟩ := l
  cases item <;> rfl

theorem Listing.word_moved (l : Listing) (letters : List Char) :
    (l.moved f).word letters = movedResult f (moved f) (l.word letters) := by
  obtain ⟨s, p, spans, item⟩ := l
  simp only [word, moved]
  cases hv : s.valueOf letters with
  | error fault => rfl
  | ok value => cases item <;> rfl

theorem Listing.dash_moved (l : Listing) (p : Nat) :
    (l.moved f).dash (f p) = movedResult f (moved f) (l.dash p) := by
  obtain ⟨s, q, spans, item⟩ := l
  cases item <;> rfl

theorem Listing.closing_moved (l : Listing) :
    (l.moved f).closing = movedResult f id l.closing := by
  have hsettled := l.settled_moved f
  simp only [closing, hsettled]
  apply movedResult_bind f
  intro spans
  cases spans <;> rfl

namespace Progress

theorem clause_moved (cs : List Clause) (letters : List Char) (p : Nat) :
    clause cs letters (f p) = movedResult f (moved f) (clause cs letters p) := by
  cases hs : Scale.named? letters with
  | some s => simp only [clause, hs]; rfl
  | none => simp only [clause, hs]; rfl

theorem word_moved (q : Progress) (letters : List Char) (p : Nat) :
    (q.moved f).word letters (f p) = movedResult f (moved f) (q.word letters p) := by
  cases q with
  | start =>
    cases hw : SubPeriod.ofWord? letters with
    | some sub => simp only [moved, word, hw]; rfl
    | none =>
      have hclause := clause_moved f [] letters p
      simpa only [moved, word, hw] using hclause
  | whole sub => rfl
  | clauses cs => exact clause_moved f cs letters p
  | scale cs s => rfl
  | listing cs l =>
    have hword := l.word_moved f letters
    simp only [moved, word, hword]
    exact movedResult_bind f fun _ => rfl

theorem opening_moved (q : Progress) (p : Nat) :
    (q.moved f).opening (f p) = movedResult f (moved f) (q.opening p) := by
  cases q with
  | listing cs l =>
    have hsettled := l.settled_moved f
    simp only [moved, opening, hsettled]
    exact movedResult_bind f fun _ => rfl
  | _ => rfl

theorem closing_moved (q : Progress) (p : Nat) :
    (q.moved f).closing (f p) = movedResult f (moved f) (q.closing p) := by
  cases q with
  | listing cs l =>
    have hclosing := l.closing_moved f
    simp only [moved, closing, hclosing]
    exact movedResult_bind f fun _ => rfl
  | _ => rfl

theorem dash_moved (q : Progress) (p : Nat) :
    (q.moved f).dash (f p) = movedResult f (moved f) (q.dash p) := by
  cases q with
  | listing cs l =>
    have hdash := l.dash_moved f p
    simp only [moved, dash, hdash]
    exact movedResult_bind f fun _ => rfl
  | _ => rfl

theorem finish_moved (q : Progress) (found : Option Lexeme) (p : Nat) :
    (q.moved f).finish found (f p) = movedResult f id (q.finish found p) := by
  cases q with
  | listing cs l =>
    have hsettled := l.settled_moved f
    simp only [moved, finish, hsettled]
    exact movedResult_bind f fun _ => rfl
  | _ => rfl

end Progress

namespace Reading

/-- The period when a text that is not blank ends. -/
def complete (r : Reading) (length : Nat) : Except Fault Period :=
  return ⟨r.done ++ [← r.progress.finish none length]⟩

theorem finish_of_ne_initial {r : Reading} (h : r ≠ initial) (length : Nat) :
    r.finish length = r.complete length := if_neg h

variable (before : List SubPeriod)

theorem step_moved (r : Reading) (t : Token) :
    (r.moved before f).step (t.moved f) = movedResult f (moved before f) (r.step t) := by
  obtain ⟨l, p⟩ := t
  cases l with
  | word letters =>
    have hword := r.progress.word_moved f letters p
    simp only [step, moved, Token.moved, hword]
    exact movedResult_bind f fun _ => rfl
  | opening =>
    have hopening := r.progress.opening_moved f p
    simp only [step, moved, Token.moved, hopening]
    exact movedResult_bind f fun _ => rfl
  | closing =>
    have hclosing := r.progress.closing_moved f p
    simp only [step, moved, Token.moved, hclosing]
    exact movedResult_bind f fun _ => rfl
  | dash =>
    have hdash := r.progress.dash_moved f p
    simp only [step, moved, Token.moved, hdash]
    exact movedResult_bind f fun _ => rfl
  | comma =>
    have hfinish := r.progress.finish_moved f (some .comma) p
    simp only [step, moved, Token.moved, hfinish, List.append_assoc]
    exact movedResult_bind f fun _ => rfl

theorem run_moved (ts : List Token) (r : Reading) :
    (ts.map (Token.moved f)).foldlM step (r.moved before f) =
      movedResult f (moved before f) (ts.foldlM step r) := by
  induction ts generalizing r with
  | nil => rfl
  | cons t ts ih =>
    rw [List.map_cons, List.foldlM_cons, List.foldlM_cons, step_moved]
    exact movedResult_bind f ih

theorem complete_moved (r : Reading) (length : Nat) :
    (r.moved before f).complete (f length) =
      movedResult f (fun p => ⟨before ++ p.subPeriods⟩) (r.complete length) := by
  have hfinish := r.progress.finish_moved f none length
  simp only [complete, moved, hfinish, List.append_assoc]
  exact movedResult_bind f fun _ => rfl

theorem moved_ne_initial {before : List SubPeriod} (h : before ≠ []) (r : Reading) :
    r.moved before f ≠ initial := by
  intro he
  have hdone : before ++ r.done = [] := congrArg done he
  exact h (List.append_eq_nil_iff.mp hdone).1

theorem moved_eq_initial {r : Reading} (h : r.moved [] f = initial) : r = initial := by
  obtain ⟨done, q⟩ := r
  obtain ⟨hdone, hq⟩ := Reading.mk.inj h
  obtain rfl : done = [] := hdone
  cases q with
  | start => rfl
  | _ => cases hq

theorem finish_moved (r : Reading) (length : Nat) :
    (r.moved [] f).finish (f length) = movedResult f id (r.finish length) := by
  by_cases h : r = initial
  · subst h
    rfl
  · have hmoved : r.moved [] f ≠ initial := fun he => h (moved_eq_initial f he)
    rw [finish_of_ne_initial h, finish_of_ne_initial hmoved]
    exact r.complete_moved f [] length

end Reading

theorem Period.ofTokens_moved (ts : List Token) (length : Nat) :
    ofTokens (ts.map (Token.moved f)) (f length) = movedResult f id (ofTokens ts length) := by
  have hrun := Reading.run_moved f [] ts .initial
  have hinitial : Reading.initial.moved [] f = .initial := rfl
  rw [hinitial] at hrun
  simp only [ofTokens, hrun]
  exact movedResult_bind f fun r => r.finish_moved f length

end Steps

end Recurrence
