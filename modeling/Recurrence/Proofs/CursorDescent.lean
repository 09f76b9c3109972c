import Recurrence.Proofs.CursorMarks
import Recurrence.Proofs.MovedPositions

/-! Descent and reading token by token come to the same answer. Where the descent calls a reader,
the answer of the reading is that of some reading from the mark that the cursor stands on then. -/

namespace Recurrence

namespace Listing

theorem word_of_valueOf_error {l : Listing} {letters : List Char} {fault : ValueFault}
    (h : l.scale.valueOf letters = .error fault) : l.word letters = .error (.value fault) := by
  simp only [word, h]

end Listing

namespace Progress

theorem ofClauses_of_ne_nil {cs : List Clause} (h : cs ≠ []) : ofClauses cs = .clauses cs := by
  obtain ⟨c, cs, rfl⟩ := List.exists_cons_of_ne_nil h
  rfl

theorem word_of_unknown {cs : List Clause} {letters : List Char}
    (hfirst : cs = [] → SubPeriod.ofWord? letters = none) (hs : Scale.named? letters = none)
    (p : Nat) : (ofClauses cs).word letters p = .error (.unknownScale letters p) := by
  cases cs with
  | nil => simp only [ofClauses, word, hfirst rfl, clause, hs]
  | cons c cs => simp only [ofClauses, word, clause, hs]

theorem finish_of_settled {l : Listing} {rs : List Span} (h : l.settled = .ok rs)
    (cs : List Clause) (found : Option Lexeme) (p : Nat) :
    (listing cs l).finish found p = .error (.openBrace l.scale l.brace) := by
  simp only [finish, h]
  rfl

end Progress

namespace Reading

theorem step_word_of_error {done : List SubPeriod} {q : Progress} {letters : List Char} {p : Nat}
    {fault : Fault} (h : q.word letters p = .error fault) :
    step ⟨done, q⟩ ⟨.word letters, p⟩ = .error fault := by
  simp only [step, h]
  rfl

/-- What is answered when `ts` and the end of the text follow. -/
def answer (n : Nat) (r : Reading) (ts : List Token) : Except Fault Period := do
  (← ts.foldlM step r).finish n

theorem answer_cons {n : Nat} {r r' : Reading} {t : Token} (h : r.step t = .ok r')
    (ts : List Token) : answer n r (t :: ts) = answer n r' ts := by
  rw [answer, answer, run_cons h]

theorem answer_of_error {n : Nat} {r : Reading} {t : Token} {fault : Fault}
    (h : r.step t = .error fault) (ts : List Token) : answer n r (t :: ts) = .error fault := by
  rw [answer, List.foldlM_cons, h]
  rfl

theorem answer_nil {n : Nat} {r : Reading} (hne : r ≠ initial) :
    answer n r [] = r.complete n := finish_of_ne_initial hne n

end Reading

namespace Descent

/-- The cursor `k` stands on the first of `ts`, or on the end of a text of `n` bytes, and `result`
is what the reading `r` comes to from there. -/
structure InStep (marks : List Mark) (n : Nat) (result : Except Fault Period) (k : Nat)
    (r : Reading) (ts : List Token) : Prop where
  ahead : marks.drop k = ts.map Token.mark ++ [(none, n)]
  result_eq : result = r.answer n ts

/-- The descent ends: in the fault that is the result, or with what `after` says of its own result
and of the cursor. -/
inductive Follows {α : Type} (x : Descent α) (k : Nat) (result : Except Fault Period)
    (after : α → Nat → Prop) : Prop
  | error {fault : Fault} (hx : x.run k = throw (.fault fault)) (hfault : result = .error fault)
  | ok {a : α} {k' : Nat} (hx : x.run k = pure (a, k')) (ha : after a k')

section Steps

variable {α β : Type} {marks : List Mark} {n k : Nat} {result : Except Fault Period}
  {r r' : Reading} {t : Token} {ts : List Token}
  {after : α → Nat → Prop} {after' : β → Nat → Prop}

namespace InStep

theorem getElem?_nil (h : InStep marks n result k r []) : marks[k]? = some (none, n) := by
  have hhead := congrArg List.head? h.ahead
  simpa [List.head?_drop] using hhead

theorem getElem?_cons (h : InStep marks n result k r (t :: ts)) : marks[k]? = some t.mark := by
  have hhead := congrArg List.head? h.ahead
  simpa [List.head?_drop] using hhead

theorem lt_length (h : InStep marks n result k r (t :: ts)) : k + 1 < marks.length := by
  have hlength := congrArg List.length h.ahead
  simp only [List.length_drop, List.length_append, List.length_map, List.length_cons] at hlength
  omega

theorem step (h : InStep marks n result k r (t :: ts)) (hr : r.step t = .ok r') :
    InStep marks n result (k + 1) r' ts where
  ahead := by
    have htail := congrArg List.tail h.ahead
    simpa [List.tail_drop] using htail
  result_eq := h.result_eq.trans (Reading.answer_cons hr ts)

theorem result_of_error {fault : Fault} (h : InStep marks n result k r (t :: ts))
    (hr : r.step t = .error fault) : result = .error fault :=
  h.result_eq.trans (Reading.answer_of_error hr ts)

theorem result_of_end (h : InStep marks n result k r []) (hne : r ≠ .initial) :
    result = r.complete n := h.result_eq.trans (Reading.answer_nil hne)

end InStep

namespace Follows

theorem bind {x : Descent α} {f : α → Descent β} (hx : Follows x k result after)
    (hf : ∀ a k', after a k' → Follows (f a) k' result after') :
    Follows (x >>= f) k result after' := by
  cases hx with
  | error hx hfault =>
    refine .error ?_ hfault
    rw [StateT.run_bind, hx]
    rfl
  | @ok a k' hx ha =>
    have hbind : (x >>= f).run k = (f a).run k' := by
      rw [StateT.run_bind, hx]
      rfl
    cases hf a k' ha with
    | error hf hfault => exact .error (hbind.trans hf) hfault
    | ok hf ha => exact .ok (hbind.trans hf) ha

theorem imp {x : Descent α} {after'' : α → Nat → Prop} (hx : Follows x k result after)
    (h : ∀ a k', after a k' → after'' a k') : Follows x k result after'' := by
  cases hx with
  | error hx hfault => exact .error hx hfault
  | ok hx ha => exact .ok hx (h _ _ ha)

theorem pure {a : α} (h : after a k) : Follows (Pure.pure a) k result after := .ok rfl h

theorem throw {fault : Fault} (h : result = .error fault) :
    Follows (MonadExcept.throw (Halt.fault fault)) k result after := .error rfl h

theorem of_run {x : Descent α} {a : α} {k' : Nat} {f : α → Descent β}
    (hx : x.run k = Pure.pure (a, k')) (hf : Follows (f a) k' result after') :
    Follows (x >>= f) k result after' := by
  have hvalue : Follows x k result fun b l => b = a ∧ l = k' := .ok hx ⟨rfl, rfl⟩
  refine hvalue.bind ?_
  rintro _ _ ⟨rfl, rfl⟩
  exact hf

theorem current {mark : Mark} (h : marks[k]? = some mark) {f : Mark → Descent β}
    (hf : Follows (f mark) k result after') : Follows (current marks >>= f) k result after' := by
  have hrun : (Descent.current marks).run k = Pure.pure (mark, k) := by
    simp [Descent.current, h]
  exact .of_run hrun hf

theorem advance (h : InStep marks n result k r (t :: ts)) {f : Unit → Descent β}
    (hf : Follows (f ()) (k + 1) result after') :
    Follows (advance marks >>= f) k result after' := by
  have hrun : (Descent.advance marks).run k = Pure.pure ((), k + 1) := by
    simp [Descent.advance, h.lt_length]
  exact .of_run hrun hf

end Follows

end Steps

section Readers

variable {marks : List Mark} {n k : Nat} {result : Except Fault Period}
  {done : List SubPeriod} {cs : List Clause} {l : Listing} {rs : List Span}
  {letters : List Char} {p passes : Nat} {ts : List Token}

theorem follows_value
    (h : InStep marks n result k ⟨done, .listing cs l⟩ (⟨.word letters, p⟩ :: ts)) :
    Follows (value marks l.scale) k result fun v k' =>
      l.scale.valueOf letters = .ok v ∧ k' = k + 1 := by
  refine .current h.getElem?_cons ?_
  cases hv : l.scale.valueOf letters with
  | error fault =>
    have hword : (Progress.listing cs l).word letters p = .error (.value fault) := by
      simp only [Progress.word, Listing.word_of_valueOf_error hv]
      rfl
    simp only [Token.mark, hv]
    exact .throw (h.result_of_error (Reading.step_word_of_error hword))
  | ok v =>
    simp only [Token.mark, hv]
    exact .advance h (.pure ⟨rfl, rfl⟩)

theorem InStep.result_of_dash {s : Scale} {b low q : Nat}
    (h : InStep marks n result k ⟨done, .listing cs ⟨s, b, rs, .dash low q⟩⟩ ts)
    (hts : ∀ letters p us, ts ≠ ⟨.word letters, p⟩ :: us) :
    result = .error (.span .noUpperBound s q) := by
  cases ts with
  | nil => exact h.result_of_end (by simp [Reading.initial])
  | cons t ts =>
    obtain ⟨lexeme, p⟩ := t
    cases lexeme with
    | word letters => exact absurd rfl (hts letters p ts)
    | _ => exact h.result_of_error rfl

theorem follows_span
    (h : InStep marks n result k ⟨done, .listing cs l⟩ (⟨.word letters, p⟩ :: ts))
    (hl : l.settled = .ok rs) :
    Follows (span marks l.scale) k result fun r k' => ∃ l' us,
      InStep marks n result k' ⟨done, .listing cs l'⟩ us ∧ us.length ≤ ts.length ∧
      l'.scale = l.scale ∧ l'.brace = l.brace ∧ l'.settled = .ok (rs ++ [r]) ∧
      ∀ q vs, us ≠ ⟨.dash, q⟩ :: vs := by
  refine .bind (follows_value h) ?_
  rintro low _ ⟨hlow, rfl⟩
  have h₁ := h.step (Reading.step_listing_word (Listing.word_of_settled hl hlow) p)
  cases ts with
  | nil => exact .current h₁.getElem?_nil (.pure ⟨_, _, h₁, by simp, rfl, rfl, rfl, by simp⟩)
  | cons t us =>
    refine .current h₁.getElem?_cons ?_
    obtain ⟨lexeme, q⟩ := t
    cases lexeme with
    | dash =>
      have h₂ := h₁.step (Reading.step_listing_dash rfl)
      refine .advance h₁ ?_
      cases us with
      | nil => exact .current h₂.getElem?_nil (.throw (h₂.result_of_dash (by simp)))
      | cons u vs =>
        refine .current h₂.getElem?_cons ?_
        obtain ⟨lexeme, q'⟩ := u
        cases lexeme with
        | word letters' =>
          have hvalue := follows_value h₂
          refine .bind hvalue ?_
          rintro high _ ⟨hhigh, rfl⟩
          have h₃ := h₂.step (Reading.step_listing_word (Listing.word_of_dash hhigh) q')
          cases vs with
          | nil =>
            exact .current h₃.getElem?_nil (.pure ⟨_, _, h₃, by simp, rfl, rfl, rfl, by simp⟩)
          | cons v ws =>
            refine .current h₃.getElem?_cons ?_
            obtain ⟨lexeme, q''⟩ := v
            cases lexeme with
            | dash => exact .throw (h₃.result_of_error rfl)
            | _ => exact .pure ⟨_, _, h₃, by simp, rfl, rfl, rfl, by simp⟩
        | _ => exact .throw (h₂.result_of_dash (by simp))
    | _ => exact .pure ⟨_, _, h₁, by simp, rfl, rfl, rfl, by simp⟩

/-- A dash is refused where the listing has no value yet; behind a span none is left. -/
theorem follows_spans {s : Scale} {brace : Nat}
    (h : InStep marks n result k ⟨done, .listing cs l⟩ ts) (hs : l.scale = s)
    (hbrace : l.brace = brace) (hl : l.settled = .ok rs)
    (hdash : ∀ q us, ts = ⟨.dash, q⟩ :: us → l.item = .none) (hpasses : ts.length < passes) :
    Follows (spans marks s brace passes rs) k result fun rs' k' => ∃ j l' q us, k' = j + 1 ∧
      InStep marks n result j ⟨done, .listing cs l'⟩ (⟨.closing, q⟩ :: us) ∧
      us.length ≤ ts.length ∧ l'.scale = s ∧ l'.brace = brace ∧ l'.settled = .ok rs' := by
  induction passes generalizing k l rs ts with
  | zero => exact absurd hpasses (Nat.not_lt_zero _)
  | succ passes ih =>
    rw [spans]
    cases ts with
    | nil =>
      refine .current h.getElem?_nil (.throw ?_)
      rw [h.result_of_end (by simp [Reading.initial]), Reading.complete,
        Progress.finish_of_settled hl, hs, hbrace]
      rfl
    | cons t us =>
      refine .current h.getElem?_cons ?_
      obtain ⟨lexeme, p⟩ := t
      cases lexeme with
      | word letters =>
        subst hs
        refine .bind (follows_span h hl) ?_
        rintro r k' ⟨l', vs, h', hle, hs', hbrace', hl', hdash'⟩
        rw [List.length_cons] at hpasses ⊢
        refine (ih h' hs' (hbrace'.trans hbrace) hl' ?_ (by omega)).imp ?_
        · intro q ws hws
          exact absurd hws (hdash' q ws)
        · rintro rs' k'' ⟨j, l'', q, ws, hk, hclosing, hle', hrest⟩
          exact ⟨j, l'', q, ws, hk, hclosing, by omega, hrest⟩
      | opening =>
        refine .throw (h.result_of_error ?_)
        simp only [Reading.step, Progress.opening, hl]
        rfl
      | closing =>
        exact .advance h (.pure ⟨k, l, p, us, rfl, h, Nat.le_succ _, hs, hbrace, hl⟩)
      | comma =>
        refine .throw (h.result_of_error ?_)
        simp only [Reading.step, Progress.finish_of_settled hl, hs, hbrace]
        rfl
      | dash =>
        refine .throw (h.result_of_error ?_)
        simp only [Reading.step, Progress.dash, Listing.dash, hdash p us rfl, hs]
        rfl

theorem follows_clause
    (h : InStep marks n result k ⟨done, .ofClauses cs⟩ (⟨.word letters, p⟩ :: ts))
    (hfirst : cs = [] → SubPeriod.ofWord? letters = none) (hpasses : ts.length < passes) :
    Follows (clause marks passes) k result fun c k' => ∃ us,
      InStep marks n result k' ⟨done, .clauses (cs ++ [c])⟩ us ∧ us.length ≤ ts.length := by
  refine .current h.getElem?_cons ?_
  cases hs : Scale.named? letters with
  | none =>
    simp only [Token.mark, hs]
    have hunknown := Progress.word_of_unknown hfirst hs p
    exact .throw (h.result_of_error (Reading.step_word_of_error hunknown))
  | some s =>
    simp only [Token.mark, hs]
    have h₁ := h.step (Reading.step_word (Progress.word_ofClauses hs cs p))
    refine .advance h ?_
    cases ts with
    | nil => exact .current h₁.getElem?_nil (.throw (h₁.result_of_end (by simp [Reading.initial])))
    | cons t us =>
      refine .current h₁.getElem?_cons ?_
      obtain ⟨lexeme, brace⟩ := t
      cases lexeme with
      | opening =>
        have h₂ := h₁.step Reading.step_opening
        have hspans := follows_spans h₂ rfl rfl rfl (fun _ _ _ => rfl) (Nat.lt_of_succ_lt hpasses)
        refine .advance h₁ (.bind hspans ?_)
        rintro rs _ ⟨j, l, q, vs, rfl, h₃, hle, rfl, rfl, hl⟩
        cases rs with
        | nil =>
          refine .throw (h₃.result_of_error ?_)
          simp only [Reading.step, Progress.closing, Listing.closing, hl]
          rfl
        | cons r rs =>
          have hclosing := Listing.closing_of_settled hl (List.cons_ne_nil r rs)
          refine .pure ⟨vs, h₃.step (Reading.step_closing hclosing q), ?_⟩
          rw [List.length_cons]
          omega
      | _ => exact .throw (h₁.result_of_error rfl)

/-- No more clauses come: `ts` begins with a comma, or is empty at the end of the text. -/
def AtSeparator (ts : List Token) : Prop := ∀ t ∈ ts.head?, t.lexeme = .comma

/-- Before the first clause stands neither an end nor a word for the whole. -/
theorem follows_clauses (h : InStep marks n result k ⟨done, .ofClauses cs⟩ ts)
    (hfirst : cs = [] → ∃ t ∈ ts.head?, t.lexeme ≠ .comma ∧ keyword? (some t.lexeme) = none)
    (hpasses : ts.length < passes) :
    Follows (clauses marks passes cs) k result fun cs' k' => ∃ us,
      InStep marks n result k' ⟨done, .clauses cs'⟩ us ∧ us.length ≤ ts.length ∧
      AtSeparator us := by
  induction passes generalizing k cs ts with
  | zero => exact absurd hpasses (Nat.not_lt_zero _)
  | succ passes ih =>
    rw [clauses]
    cases ts with
    | nil =>
      have hne : cs ≠ [] := fun hnil => by simpa using hfirst hnil
      rw [Progress.ofClauses_of_ne_nil hne] at h
      exact .current h.getElem?_nil (.pure ⟨[], h, by simp, by simp [AtSeparator]⟩)
    | cons t us =>
      refine .current h.getElem?_cons ?_
      obtain ⟨lexeme, p⟩ := t
      cases lexeme with
      | word letters =>
        have hword : cs = [] → SubPeriod.ofWord? letters = none :=
          fun hnil => by simpa [keyword?] using hfirst hnil
        refine .bind (follows_clause h hword (Nat.lt_of_succ_lt hpasses)) ?_
        rintro c k' ⟨vs, h', hle⟩
        rw [List.length_cons] at hpasses ⊢
        rw [← Progress.ofClauses_append] at h'
        refine (ih h' (by simp) (by omega)).imp ?_
        rintro cs' k'' ⟨ws, h'', hle', hsep⟩
        exact ⟨ws, h'', by omega, hsep⟩
      | comma =>
        have hne : cs ≠ [] := fun hnil => by simpa using hfirst hnil
        rw [Progress.ofClauses_of_ne_nil hne] at h
        exact .pure ⟨_, h, Nat.le_refl _, by simp [AtSeparator]⟩
      | closing => exact .throw (h.result_of_error (by cases cs <;> rfl))
      | opening => exact .throw (h.result_of_error (by cases cs <;> rfl))
      | dash => exact .throw (h.result_of_error (by cases cs <;> rfl))

theorem follows_subPeriod_of_clauses {t : Token}
    (h : InStep marks n result k ⟨done, .start⟩ (t :: ts)) (hcomma : t.lexeme ≠ .comma)
    (hkey : keyword? (some t.lexeme) = none) (hpasses : (t :: ts).length < passes) :
    Follows (clauses marks passes [] >>= fun cs => pure (.ofClauses cs)) k result fun sub k' =>
      ∃ q us, InStep marks n result k' ⟨done, q⟩ us ∧ us.length ≤ (t :: ts).length ∧
      (∀ found p, q.finish found p = .ok sub) ∧ AtSeparator us := by
  refine .bind (follows_clauses h (fun _ => ⟨t, rfl, hcomma, hkey⟩) hpasses) ?_
  rintro cs k' ⟨us, h', hle, hsep⟩
  exact .pure ⟨.clauses cs, us, h', hle, fun _ _ => rfl, hsep⟩

theorem follows_subPeriod (h : InStep marks n result k ⟨done, .start⟩ ts)
    (hne : done = [] → ts ≠ []) (hpasses : ts.length < passes) :
    Follows (subPeriod marks passes) k result fun sub k' => ∃ q us,
      InStep marks n result k' ⟨done, q⟩ us ∧ us.length ≤ ts.length ∧
      (∀ found p, q.finish found p = .ok sub) ∧ AtSeparator us := by
  cases ts with
  | nil =>
    refine .current h.getElem?_nil (.throw ?_)
    rw [h.result_of_end (by simpa [Reading.initial] using hne)]
    rfl
  | cons t us =>
    refine .current h.getElem?_cons ?_
    obtain ⟨lexeme, p⟩ := t
    cases lexeme with
    | comma => exact .throw (h.result_of_error rfl)
    | word letters =>
      cases hkey : SubPeriod.ofWord? letters with
      | none =>
        simp only [Token.mark, keyword?, hkey]
        exact follows_subPeriod_of_clauses h (by simp) hkey hpasses
      | some sub =>
        simp only [Token.mark, keyword?, hkey]
        have hword : Progress.start.word letters p = .ok (.whole sub) := by
          simp only [Progress.word, hkey]
        have h₁ := h.step (Reading.step_word hword)
        refine .advance h ?_
        cases us with
        | nil =>
          refine .current h₁.getElem?_nil (.pure ?_)
          exact ⟨.whole sub, [], h₁, by simp, fun _ _ => rfl, by simp [AtSeparator]⟩
        | cons u vs =>
          refine .current h₁.getElem?_cons ?_
          obtain ⟨lexeme, q⟩ := u
          cases lexeme with
          | comma =>
            exact .pure ⟨.whole sub, _, h₁, by simp, fun _ _ => rfl, by simp [AtSeparator]⟩
          | _ => exact .throw (h₁.result_of_error rfl)
    | _ => exact follows_subPeriod_of_clauses h (by simp) rfl hpasses

theorem follows_subPeriods {q : Progress} {sub : SubPeriod}
    (h : InStep marks n result k ⟨done, q⟩ ts) (hq : ∀ found p, q.finish found p = .ok sub)
    (hsep : AtSeparator ts) (hpasses : ts.length < passes) :
    Follows (subPeriods marks passes (done ++ [sub])) k result fun subs k' =>
      marks[k']? = some (none, n) ∧ result = .ok ⟨subs⟩ := by
  induction passes generalizing k done q sub ts with
  | zero => exact absurd hpasses (Nat.not_lt_zero _)
  | succ passes ih =>
    rw [subPeriods]
    cases ts with
    | nil =>
      have hresult : result = .ok ⟨done ++ [sub]⟩ :=
        h.result_eq.trans (Reading.finish_of_progress hq n)
      exact .current h.getElem?_nil (.pure ⟨h.getElem?_nil, hresult⟩)
    | cons t us =>
      refine .current h.getElem?_cons ?_
      obtain ⟨lexeme, p⟩ := t
      obtain rfl : lexeme = .comma := hsep _ rfl
      have h₁ := h.step (Reading.step_comma (hq _ p))
      refine .advance h (.bind (follows_subPeriod h₁ (by simp) (Nat.lt_of_succ_lt hpasses)) ?_)
      rintro sub' k' ⟨q', vs, h', hle, hq', hsep'⟩
      rw [List.length_cons] at hpasses
      exact ih h' hq' hsep' (by omega)

theorem follows_period (h : InStep marks n result k .initial ts) (hpasses : ts.length < passes) :
    Follows (period marks passes) k result fun p _ => result = .ok p := by
  cases ts with
  | nil => exact .current h.getElem?_nil (.pure h.result_eq)
  | cons t us =>
    refine .current h.getElem?_cons (.bind (follows_subPeriod h (by simp) hpasses) ?_)
    rintro sub k₁ ⟨q, vs, h₁, hle, hq, hsep⟩
    refine .bind (follows_subPeriods h₁ hq hsep (Nat.lt_of_le_of_lt hle hpasses)) ?_
    rintro subs k₂ ⟨hend, hresult⟩
    exact .current hend (.pure hresult)

end Readers

theorem parse_of_follows {text : String} {passes : Nat} {marks : List Mark}
    {result : Except Fault Period} (hmarks : marksFrom text passes 0 [] = pure marks)
    (h : Follows (period marks passes) 0 result fun p _ => result = .ok p) :
    parse passes text = result.mapError Halt.fault := by
  cases h with
  | error hx hfault =>
    rw [parse, hmarks, hfault, pure_bind, StateT.run'_eq, hx]
    rfl
  | ok hx hresult =>
    rw [parse, hmarks, hresult, pure_bind, StateT.run'_eq, hx]
    rfl

/-- Descent comes to what is read from the text, and to no mishap: each loop ends within a pass for
each byte and one more, the cursor never leaves the marks, and no mark is left over. -/
theorem parse_eq_reading {passes : Nat} {text : String} (h : text.utf8ByteSize < passes) :
    parse passes text = (Period.parse text).mapError Halt.fault := by
  rw [Period.parse, Period.ofChars]
  cases hi : intruder? 0 text.toList with
  | some found =>
    rw [parse, marksFrom_eq_throw hi h]
    rfl
  | none =>
    have hadmitted := intruder?_eq_none_iff.mp hi
    have hlength := (scans_tokens hadmitted 0).length_le
    rw [← byteLength_of_admitted hadmitted, ← utf8ByteSize_eq] at hlength
    have hstep : InStep (marks text.toList) (byteLength text.toList)
        (Period.ofTokens (tokens 0 text.toList) (byteLength text.toList)) 0 .initial
        (tokens 0 text.toList) := ⟨rfl, rfl⟩
    have hperiod := follows_period hstep (Nat.lt_of_le_of_lt hlength h)
    exact parse_of_follows (marksFrom_eq_marks hadmitted h) hperiod

theorem parse_eq_reading_of_two_sub_periods :
    "wd \x7bmon-fri\x7d, never".utf8ByteSize < 20 ∧
      parse 20 "wd \x7bmon-fri\x7d, never" =
        .ok ⟨[.clauses [⟨.weekday, [⟨2, 6⟩]⟩], .never]⟩ :=
  have hsize : "wd \x7bmon-fri\x7d, never".utf8ByteSize < 20 := by decide
  have hparse : Period.parse "wd \x7bmon-fri\x7d, never" =
      .ok ⟨[.clauses [⟨.weekday, [⟨2, 6⟩]⟩], .never]⟩ := rfl
  ⟨hsize, (parse_eq_reading hsize).trans (congrArg (Except.mapError Halt.fault) hparse)⟩

/-- A pass for each byte is not enough, as the end of a word is looked for behind it. -/
example : parse 2 "wd" = .error (.mishap .endless) := by rfl

end Descent

end Recurrence
