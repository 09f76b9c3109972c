import Recurrence.Proofs.EarliestFault
import Recurrence.Proofs.TokenPlaces

/-! A fault reports what stands at its position. A reading holds on to where a brace and a dash
stand; every other position is that of the token which is refused, or the end of the text. -/

namespace Recurrence

def ValueFault.word? : ValueFault → Option (List Char)
  | tooLarge _ word | unknown _ word => some word
  | outOfRange .. => none

namespace Fault

def position? : Fault → Option Nat
  | value _ => none
  | intruder _ p | unknownScale _ p | strayBrace p | nestedBrace p | openBrace _ p | noValues _ p
  | emptySubPeriod p | span _ _ p | unexpected _ _ p => some p

/-- What is reported stands in the text, at the position if there is one. -/
def PointsInto (text : List Char) : Fault → Prop
  | intruder c p => isAdmitted c = false ∧ ∃ rest, RestAt text p (c :: rest)
  | unknownScale word p => StandsAt text p (.word word)
  | strayBrace p => StandsAt text p .closing
  | nestedBrace p | openBrace _ p => StandsAt text p .opening
  | noValues _ p => ∃ blanks rest, (∀ c ∈ blanks, isBlank c = true) ∧
      RestAt text p ('{' :: (blanks ++ '}' :: rest))
  | emptySubPeriod p => StandsAt text p .comma ∨ p = byteLength text
  | value fault => ∀ word ∈ fault.word?, ∃ p, StandsAt text p (.word word)
  | span _ _ p => StandsAt text p .dash
  | unexpected found _ p =>
    (∀ l ∈ found, StandsAt text p l) ∧ (found = none ↔ p = byteLength text)

/-- What is reported is among the tokens of a text, or is the end of it at `length`. -/
def Cites (ts : List Token) (length : Nat) : Fault → Prop
  | intruder _ _ => False
  | unknownScale word p => ⟨.word word, p⟩ ∈ ts
  | strayBrace p => ⟨.closing, p⟩ ∈ ts
  | nestedBrace p | openBrace _ p => ⟨.opening, p⟩ ∈ ts
  | noValues _ p => ∃ before q after, ts = before ++ ⟨.opening, p⟩ :: ⟨.closing, q⟩ :: after
  | emptySubPeriod p => ⟨.comma, p⟩ ∈ ts ∨ p = length
  | value fault => ∀ word ∈ fault.word?, ∃ p, ⟨.word word, p⟩ ∈ ts
  | span _ _ p => ⟨.dash, p⟩ ∈ ts
  | unexpected (some l) _ p => ⟨l, p⟩ ∈ ts
  | unexpected none _ p => p = length

theorem Cites.append {ts : List Token} {n : Nat} {fault : Fault} (h : fault.Cites ts n)
    (us : List Token) : fault.Cites (ts ++ us) n := by
  cases fault with
  | intruder c p => exact h
  | noValues s p =>
    obtain ⟨before, q, after, rfl⟩ := h
    exact ⟨before, q, after ++ us, by simp⟩
  | emptySubPeriod p => exact h.imp_left (List.mem_append_left us)
  | value fault =>
    intro word hword
    obtain ⟨p, hp⟩ := h word hword
    exact ⟨p, List.mem_append_left us hp⟩
  | unexpected found wanted p =>
    cases found with
    | none => exact h
    | some l => exact List.mem_append_left us h
  | _ => exact List.mem_append_left us h

end Fault

theorem Scale.word_of_valueOf_error {s : Scale} {letters : List Char} {fault : ValueFault}
    (h : s.valueOf letters = .error fault) : ∀ word ∈ fault.word?, word = letters := by
  have hwithin : ∀ value, s.within value = .error fault → fault.word? = none := by
    intro value hv
    unfold within at hv
    split at hv
    · cases hv
    · split at hv
      · cases hv
      · cases hv
        rfl
  unfold valueOf at h
  split at h
  · simp [hwithin _ h]
  · split at h
    · cases h
      simp [ValueFault.word?]
    · split at h
      · simp [hwithin _ h]
      · cases h
        simp [ValueFault.word?]

/-- Before the first value of a listing its brace is the last token. -/
structure Listing.Placed (ts : List Token) (l : Listing) : Prop where
  brace : ⟨.opening, l.brace⟩ ∈ ts
  dash : ∀ low p, l.item = .dash low p → ⟨.dash, p⟩ ∈ ts
  first : l.item = .none → ∃ before, ts = before ++ [⟨.opening, l.brace⟩]

namespace Listing.Placed

variable {ts : List Token} {l l' : Listing} {n p : Nat} {fault : Fault}

theorem opening (ts : List Token) (s : Scale) (p : Nat) :
    Listing.Placed (ts ++ [⟨.opening, p⟩]) ⟨s, p, [], .none⟩ :=
  ⟨by simp, by simp, fun _ => ⟨ts, rfl⟩⟩

/-- A listing that has been carried on by a token. -/
theorem carry (h : l.Placed ts) (t : Token) (hbrace : l'.brace = l.brace)
    (hitem : l'.item ≠ .none) (hdash : ∀ low q, l'.item = .dash low q → t = ⟨.dash, q⟩) :
    l'.Placed (ts ++ [t]) where
  brace := by
    rw [hbrace]
    exact List.mem_append_left _ h.brace
  dash low q hq := by simp [hdash low q hq]
  first hnone := absurd hnone hitem

theorem word (h : l.Placed ts) {letters : List Char} (hw : l.word letters = .ok l') (p : Nat) :
    l'.Placed (ts ++ [⟨.word letters, p⟩]) := by
  obtain ⟨s, b, spans, item⟩ := l
  cases hv : s.valueOf letters with
  | error fault => simp [Listing.word, hv] at hw
  | ok value =>
    simp only [Listing.word, hv] at hw
    cases item <;> (cases hw; exact h.carry _ rfl (by simp) (by simp))

theorem dash_ok (h : l.Placed ts) (hd : l.dash p = .ok l') : l'.Placed (ts ++ [⟨.dash, p⟩]) := by
  obtain ⟨s, b, spans, item⟩ := l
  cases item with
  | value low =>
    cases hd
    exact h.carry _ rfl (by simp) (by simp)
  | none => cases hd
  | dash low q => cases hd
  | span low high => cases hd

theorem cites_of_settled (h : l.Placed ts) (hs : l.settled = .error fault) : fault.Cites ts n := by
  obtain ⟨s, b, spans, item⟩ := l
  cases item with
  | dash low q =>
    cases hs
    exact h.dash low q rfl
  | none => cases hs
  | value low => cases hs
  | span low high => cases hs

theorem cites_of_word {letters : List Char} (hw : l.word letters = .error fault) (ts : List Token)
    (p : Nat) : fault.Cites (ts ++ [⟨.word letters, p⟩]) n := by
  obtain ⟨s, b, spans, item⟩ := l
  cases hv : s.valueOf letters with
  | error fault' =>
    simp only [Listing.word, hv] at hw
    cases hw
    intro word hword
    obtain rfl := Scale.word_of_valueOf_error hv word hword
    exact ⟨p, by simp⟩
  | ok value =>
    simp only [Listing.word, hv] at hw
    cases item <;> cases hw

theorem cites_of_dash (h : l.Placed ts) (hd : l.dash p = .error fault) :
    fault.Cites (ts ++ [⟨.dash, p⟩]) n := by
  obtain ⟨s, b, spans, item⟩ := l
  cases item with
  | none =>
    cases hd
    exact List.mem_concat_self
  | value low => cases hd
  | dash low q =>
    cases hd
    exact List.mem_append_left _ (h.dash low q rfl)
  | span low high =>
    cases hd
    exact List.mem_concat_self

theorem cites_of_closing (h : l.Placed ts) (hc : l.closing = .error fault) :
    fault.Cites (ts ++ [⟨.closing, p⟩]) n := by
  rcases error_of_bind hc with hs | ⟨spans, hs, hc⟩
  · exact (h.cites_of_settled hs).append _
  · cases spans with
    | cons r rs => cases hc
    | nil =>
      cases hc
      -- No span is settled, so the closing brace follows the opening one.
      have hitem : l.item = .none := by
        obtain ⟨s, b, spans, item⟩ := l
        cases item <;> simp_all [Listing.settled]
      obtain ⟨before, rfl⟩ := h.first hitem
      exact ⟨before, p, [], by simp⟩

end Listing.Placed

def Progress.Placed (ts : List Token) : Progress → Prop
  | listing _ l => l.Placed ts
  | _ => True

namespace Progress

variable {ts us : List Token} {q q' : Progress} {n p : Nat} {fault : Fault}

theorem placed_of_clause {cs : List Clause} {letters : List Char} (h : clause cs letters p = .ok q)
    (ts : List Token) : q.Placed ts := by
  unfold clause at h
  split at h <;> cases h
  trivial

theorem cites_of_clause {cs : List Clause} {letters : List Char}
    (h : clause cs letters p = .error fault) (ts : List Token) :
    fault.Cites (ts ++ [⟨.word letters, p⟩]) n := by
  unfold clause at h
  split at h <;> cases h
  exact List.mem_concat_self

namespace Placed

theorem word {letters : List Char} (h : q.Placed ts) (hq : q.word letters p = .ok q') :
    q'.Placed (ts ++ [⟨.word letters, p⟩]) := by
  cases q with
  | start =>
    simp only [Progress.word] at hq
    split at hq
    · cases hq
      trivial
    · exact placed_of_clause hq _
  | whole sub => cases hq
  | clauses cs => exact placed_of_clause hq _
  | scale cs s => cases hq
  | listing cs l =>
    obtain ⟨l', hl', hq⟩ := ok_of_bind hq
    cases hq
    exact Listing.Placed.word h hl' p

theorem opening (hq : q.opening p = .ok q') (ts : List Token) :
    q'.Placed (ts ++ [⟨.opening, p⟩]) := by
  cases q with
  | scale cs s =>
    cases hq
    exact Listing.Placed.opening ts s p
  | start => cases hq
  | whole sub => cases hq
  | clauses cs => cases hq
  | listing cs l =>
    obtain ⟨spans, -, hq⟩ := ok_of_bind hq
    cases hq

theorem closing (hq : q.closing p = .ok q') (ts : List Token) : q'.Placed ts := by
  cases q with
  | listing cs l =>
    obtain ⟨c, -, hq⟩ := ok_of_bind hq
    cases hq
    trivial
  | start => cases hq
  | whole sub => cases hq
  | clauses cs => cases hq
  | scale cs s => cases hq

theorem dash (h : q.Placed ts) (hq : q.dash p = .ok q') : q'.Placed (ts ++ [⟨.dash, p⟩]) := by
  cases q with
  | listing cs l =>
    obtain ⟨l', hl', hq⟩ := ok_of_bind hq
    cases hq
    exact Listing.Placed.dash_ok h hl'
  | start => cases hq
  | whole sub => cases hq
  | clauses cs => cases hq
  | scale cs s => cases hq

end Placed

theorem cites_of_word {letters : List Char} (hq : q.word letters p = .error fault)
    (ts : List Token) : fault.Cites (ts ++ [⟨.word letters, p⟩]) n := by
  cases q with
  | start =>
    simp only [word] at hq
    split at hq
    · cases hq
    · exact cites_of_clause hq ts
  | whole sub =>
    cases hq
    exact List.mem_concat_self
  | clauses cs => exact cites_of_clause hq ts
  | scale cs s =>
    cases hq
    exact List.mem_concat_self
  | listing cs l =>
    rcases error_of_bind hq with hl | ⟨l', -, hq⟩
    · exact Listing.Placed.cites_of_word hl ts p
    · cases hq

theorem Placed.cites_of_opening (h : q.Placed ts) (hq : q.opening p = .error fault) :
    fault.Cites (ts ++ [⟨.opening, p⟩]) n := by
  cases q with
  | scale cs s => cases hq
  | listing cs l =>
    rcases error_of_bind hq with hs | ⟨spans, -, hq⟩
    · exact (Listing.Placed.cites_of_settled h hs).append _
    · cases hq
      exact List.mem_concat_self
  | _ =>
    cases hq
    exact List.mem_concat_self

theorem Placed.cites_of_closing (h : q.Placed ts) (hq : q.closing p = .error fault) :
    fault.Cites (ts ++ [⟨.closing, p⟩]) n := by
  cases q with
  | listing cs l =>
    rcases error_of_bind hq with hl | ⟨c, -, hq⟩
    · exact Listing.Placed.cites_of_closing h hl
    · cases hq
  | _ =>
    cases hq
    exact List.mem_concat_self

theorem Placed.cites_of_dash (h : q.Placed ts) (hq : q.dash p = .error fault) :
    fault.Cites (ts ++ [⟨.dash, p⟩]) n := by
  cases q with
  | listing cs l =>
    rcases error_of_bind hq with hl | ⟨l', -, hq⟩
    · exact Listing.Placed.cites_of_dash h hl
    · cases hq
  | _ =>
    cases hq
    exact List.mem_concat_self

/-- A sub-period ends at a comma behind it, or at the end of the text. -/
theorem Placed.cites_of_finish (h : q.Placed ts) {found : Option Lexeme}
    (hend : found = some .comma ∧ ⟨.comma, p⟩ ∈ us ∨ found = none ∧ p = n)
    (hq : q.finish found p = .error fault) : fault.Cites (ts ++ us) n := by
  cases q with
  | start =>
    cases hq
    rcases hend with ⟨-, hcomma⟩ | ⟨-, hlength⟩
    · exact .inl (List.mem_append_right ts hcomma)
    · exact .inr hlength
  | whole sub => cases hq
  | clauses cs => cases hq
  | scale cs s =>
    cases hq
    rcases hend with ⟨rfl, hcomma⟩ | ⟨rfl, hlength⟩
    · exact List.mem_append_right ts hcomma
    · exact hlength
  | listing cs l =>
    rcases error_of_bind hq with hs | ⟨spans, -, hq⟩
    · exact (Listing.Placed.cites_of_settled h hs).append us
    · cases hq
      exact List.mem_append_left us (Listing.Placed.brace h)

end Progress

namespace Reading

variable {ts : List Token} {r r' : Reading} {t : Token} {n : Nat} {fault : Fault}

theorem placed_step (h : r.progress.Placed ts) (hr : r.step t = .ok r') :
    r'.progress.Placed (ts ++ [t]) := by
  obtain ⟨l, p⟩ := t
  cases l with
  | word letters =>
    obtain ⟨q, hq, hr⟩ := ok_of_bind hr
    cases hr
    exact h.word hq
  | opening =>
    obtain ⟨q, hq, hr⟩ := ok_of_bind hr
    cases hr
    exact Progress.Placed.opening hq ts
  | closing =>
    obtain ⟨q, hq, hr⟩ := ok_of_bind hr
    cases hr
    exact Progress.Placed.closing hq _
  | dash =>
    obtain ⟨q, hq, hr⟩ := ok_of_bind hr
    cases hr
    exact h.dash hq
  | comma =>
    obtain ⟨sub, -, hr⟩ := ok_of_bind hr
    cases hr
    trivial

theorem placed_run {us : List Token} (h : r.progress.Placed ts)
    (hr : us.foldlM step r = .ok r') : r'.progress.Placed (ts ++ us) := by
  induction us generalizing r ts with
  | nil =>
    cases hr
    simpa using h
  | cons t us ih =>
    rw [List.foldlM_cons] at hr
    obtain ⟨r₁, ht, hus⟩ := ok_of_bind hr
    simpa using ih (placed_step h ht) hus

theorem cites_of_step (h : r.progress.Placed ts) (hr : r.step t = .error fault) :
    fault.Cites (ts ++ [t]) n := by
  obtain ⟨l, p⟩ := t
  cases l with
  | word letters =>
    rcases error_of_bind hr with hq | ⟨q, -, hr⟩
    · exact Progress.cites_of_word hq ts
    · cases hr
  | opening =>
    rcases error_of_bind hr with hq | ⟨q, -, hr⟩
    · exact h.cites_of_opening hq
    · cases hr
  | closing =>
    rcases error_of_bind hr with hq | ⟨q, -, hr⟩
    · exact h.cites_of_closing hq
    · cases hr
  | dash =>
    rcases error_of_bind hr with hq | ⟨q, -, hr⟩
    · exact h.cites_of_dash hq
    · cases hr
  | comma =>
    rcases error_of_bind hr with hq | ⟨sub, -, hr⟩
    · exact h.cites_of_finish (.inl ⟨rfl, by simp⟩) hq
    · cases hr

theorem cites_of_finish (h : r.progress.Placed ts) (hr : r.finish n = .error fault) :
    fault.Cites ts n := by
  unfold finish at hr
  split at hr
  · cases hr
  · rcases error_of_bind hr with hq | ⟨sub, -, hr⟩
    · have hcites : fault.Cites (ts ++ []) n := h.cites_of_finish (.inr ⟨rfl, rfl⟩) hq
      rwa [List.append_nil] at hcites
    · cases hr

end Reading

namespace Period

theorem cites_of_ofTokens {ts : List Token} {n : Nat} {fault : Fault}
    (h : ofTokens ts n = .error fault) : fault.Cites ts n := by
  have hinitial : Reading.initial.progress.Placed [] := trivial
  rcases error_of_bind h with hrun | ⟨r, hrun, hfinish⟩
  · obtain ⟨us, t, vs, r, rfl, hus, ht⟩ := Reading.step_of_run_error hrun
    have hplaced := Reading.placed_run hinitial hus
    have hcites : fault.Cites ([] ++ us ++ [t] ++ vs) n :=
      (Reading.cites_of_step hplaced ht).append vs
    simpa using hcites
  · have hplaced := Reading.placed_run hinitial hrun
    exact Reading.cites_of_finish hplaced hfinish

end Period

namespace Fault

theorem Cites.pointsInto {text : List Char} {ts : List Token} {fault : Fault}
    (hscan : Scans 0 text ts) (h : fault.Cites ts (byteLength text)) : fault.PointsInto text := by
  cases fault with
  | intruder c p => exact h.elim
  | noValues s p =>
    obtain ⟨before, q, after, rfl⟩ := h
    exact hscan.restAt_of_empty
  | emptySubPeriod p => exact h.imp_left hscan.standsAt
  | value fault =>
    intro word hword
    obtain ⟨p, hp⟩ := h word hword
    exact ⟨p, hscan.standsAt hp⟩
  | unexpected found wanted p =>
    cases found with
    | none => exact ⟨by simp, iff_of_true rfl h⟩
    | some l =>
      have hstands := hscan.standsAt h
      refine ⟨by simpa using hstands, iff_of_false (by simp) ?_⟩
      exact Nat.ne_of_lt hstands.lt_byteLength
  | _ => exact hscan.standsAt h

theorem PointsInto.restAt {text : List Char} {fault : Fault} {p : Nat} (h : fault.PointsInto text)
    (hp : fault.position? = some p) : ∃ rest, RestAt text p rest := by
  cases fault with
  | value fault => cases hp
  | intruder c q =>
    cases hp
    exact h.2.imp' (c :: ·) fun _ hrest => hrest
  | noValues s q =>
    cases hp
    obtain ⟨blanks, rest, -, hrest⟩ := h
    exact ⟨_, hrest⟩
  | emptySubPeriod q =>
    cases hp
    rcases h with h | rfl
    · exact h.restAt
    · exact ⟨[], .end text⟩
  | unexpected found wanted q =>
    cases hp
    cases found with
    | none =>
      rw [h.2.mp rfl]
      exact ⟨[], .end text⟩
    | some l => exact (h.1 l rfl).restAt
  | _ =>
    cases hp
    exact StandsAt.restAt h

end Fault

namespace Period

theorem pointsInto_of_ofChars {text : List Char} {fault : Fault} (h : ofChars text = .error fault) :
    fault.PointsInto text := by
  cases hi : intruder? 0 text with
  | some found =>
    simp only [ofChars, hi] at h
    cases h
    obtain ⟨before, after, rfl, hp, hc, -⟩ := exists_append_of_intruder? hi
    exact ⟨hc, after, before, rfl, by rwa [Nat.zero_add] at hp⟩
  | none =>
    have hscan := scans_tokens (intruder?_eq_none_iff.mp hi) 0
    simp only [ofChars, hi] at h
    exact (cites_of_ofTokens h).pointsInto hscan

/-- Whatever a fault reports stands in the text, and at the position that it reports; no position
lies within a character or behind the text. -/
theorem pointsInto_of_parse_error {text : String} {fault : Fault} (h : parse text = .error fault) :
    fault.PointsInto text.toList ∧ ∀ p ∈ fault.position?,
      p ≤ text.utf8ByteSize ∧ String.Pos.Raw.IsValid text ⟨p⟩ := by
  have hpoints := pointsInto_of_ofChars h
  refine ⟨hpoints, ?_⟩
  intro p hp
  obtain ⟨rest, hrest⟩ := hpoints.restAt hp
  exact ⟨hrest.isValid.le_rawEndPos, hrest.isValid⟩

/-- The second brace is behind blanks. -/
theorem pointsInto_of_parse_error_of_no_values :
    parse "WD \x7b\t \x7d" = .error (.noValues .weekday 3) ∧
      ∃ blanks rest, (∀ c ∈ blanks, isBlank c = true) ∧
        RestAt "WD \x7b\t \x7d".toList 3 ('{' :: (blanks ++ '}' :: rest)) :=
  have hparse : parse "WD \x7b\t \x7d" = .error (.noValues .weekday 3) := rfl
  ⟨hparse, (pointsInto_of_parse_error hparse).1⟩

end Period

end Recurrence
