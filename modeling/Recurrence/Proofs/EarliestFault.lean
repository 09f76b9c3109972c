import Recurrence.Proofs.GrammarReading

/-! A fault is found as early as it can be: what stands before the token that decides it can be
completed to a period, and nothing behind that token can mend or change it. -/

namespace Recurrence

def Token.mark (t : Token) : Option Lexeme × Nat := (some t.lexeme, t.position)

/-- The tokens of a text with their positions, and behind them the end of the text. -/
def marks (text : List Char) : List (Option Lexeme × Nat) :=
  (tokens 0 text).map Token.mark ++ [(none, byteLength text)]

theorem Token.mark_injective {t u : Token} (h : t.mark = u.mark) : t = u := by
  obtain ⟨l, p⟩ := t
  obtain ⟨l', p'⟩ := u
  simpa [mark] using h

theorem length_marks (text : List Char) : (marks text).length = (tokens 0 text).length + 1 := by
  simp [marks]

theorem take_marks {text : List Char} {us vs : List Token} (h : tokens 0 text = us ++ vs) :
    (marks text).take us.length = us.map Token.mark := by
  simp [marks, h]

theorem append_of_take_marks {ts us : List Token} {n : Nat}
    (h : (ts.map Token.mark ++ [(none, n)]).take us.length = us.map Token.mark) :
    ∃ vs, ts = us ++ vs := by
  induction us generalizing ts with
  | nil => exact ⟨ts, rfl⟩
  | cons u us ih =>
    cases ts with
    | nil => simp [Token.mark] at h
    | cons t ts =>
      simp only [List.map_cons, List.cons_append, List.length_cons, List.take_succ_cons,
        List.cons.injEq] at h
      obtain ⟨vs, rfl⟩ := ih h.2
      exact ⟨vs, by rw [Token.mark_injective h.1, List.cons_append]⟩

theorem eq_of_take_marks {ts us : List Token} {m n : Nat}
    (h : (ts.map Token.mark ++ [(none, m)]).take (us.length + 1) =
      us.map Token.mark ++ [(none, n)]) : ts = us ∧ m = n := by
  have hlength : us.length = (us.map Token.mark).length := (List.length_map Token.mark).symm
  have htake : (ts.map Token.mark ++ [(none, m)]).take us.length = us.map Token.mark := by
    have hboth := congrArg (List.take us.length) h
    rw [List.take_take, Nat.min_eq_left (Nat.le_succ _)] at hboth
    exact hboth.trans (List.take_left' hlength.symm)
  obtain ⟨vs, rfl⟩ := append_of_take_marks htake
  rw [List.map_append, List.append_assoc, hlength, List.take_length_add_append] at h
  have hend := List.append_cancel_left h
  cases vs with
  | nil => simpa using hend
  | cons t vs => simp [Token.mark] at hend

theorem valueOf_one (s : Scale) : s.valueOf ['1'] = .ok 1 := by
  cases s <;> rfl

def Progress.ending : Progress → List Char
  | start => " always".toList
  | whole _ | clauses _ => []
  | scale _ _ => " \x7b1\x7d".toList
  | listing _ _ => " 1\x7d".toList

theorem Progress.wordBreak_ending (q : Progress) : WordBreak q.ending := by
  cases q with
  | whole sub => exact .nil
  | clauses cs => exact .nil
  | _ => exact .cons (by decide) _

theorem spells_closed_one : Spells ['1', '}'] [.word ['1'], .closing] := by
  have hone : Spells ['1'] [.word ['1']] := .word (by simp) (by simp) rfl
  exact hone.append (.sign rfl .nil) (.of_wordBreak (.cons (by decide) []) _)

theorem Listing.word_settled (l : Listing) {letters : List Char} {value : Nat}
    (h : l.scale.valueOf letters = .ok value) :
    ∃ l' spans, l.word letters = .ok l' ∧ l'.settled = .ok spans ∧ spans ≠ [] := by
  obtain ⟨s, p, spans, item⟩ := l
  simp only [word, h]
  cases item with
  | none => exact ⟨_, _, rfl, rfl, by simp⟩
  | value low => exact ⟨_, _, rfl, rfl, by simp⟩
  | dash low q => exact ⟨_, _, rfl, rfl, by simp⟩
  | span low high => exact ⟨_, _, rfl, rfl, by simp⟩

namespace Reading

theorem run_listing_ending (done : List SubPeriod) (cs : List Clause) (l : Listing)
    {ts : List Token} (hts : ts.map Token.lexeme = [.word ['1'], .closing]) :
    ∃ cs', ts.foldlM step ⟨done, .listing cs l⟩ = .ok ⟨done, .clauses cs'⟩ := by
  obtain ⟨p, us, rfl, hus⟩ := map_lexeme_eq_cons hts
  obtain ⟨q, vs, rfl, hvs⟩ := map_lexeme_eq_cons hus
  obtain rfl := List.map_eq_nil_iff.mp hvs
  obtain ⟨l', spans, hword, hsettled, hne⟩ := l.word_settled (valueOf_one l.scale)
  have hclosing := Listing.closing_of_settled hsettled hne
  refine ⟨cs ++ [⟨l'.scale, spans⟩], ?_⟩
  rw [run_cons (step_listing_word hword p)]
  exact run_cons (step_closing hclosing q) []

theorem run_ending (r : Reading) : ∃ ls, Spells r.progress.ending ls ∧
    ∀ ts : List Token, ts.map Token.lexeme = ls → ∃ q sub,
      ts.foldlM step r = .ok ⟨r.done, q⟩ ∧ ∀ found p, q.finish found p = .ok sub := by
  obtain ⟨done, q⟩ := r
  cases q with
  | start =>
    have hword : Spells "always".toList [.word "always".toList] :=
      .word (by simp) (by simp) rfl
    refine ⟨_, hword.blank (show isBlank ' ' = true from rfl), ?_⟩
    intro ts hts
    obtain ⟨q, hrun, hfinish⟩ := run_subPeriod .always hts done
    exact ⟨q, _, hrun, hfinish⟩
  | whole sub =>
    refine ⟨[], .nil, ?_⟩
    intro ts hts
    obtain rfl := List.map_eq_nil_iff.mp hts
    exact ⟨.whole sub, sub, rfl, fun _ _ => rfl⟩
  | clauses cs =>
    refine ⟨[], .nil, ?_⟩
    intro ts hts
    obtain rfl := List.map_eq_nil_iff.mp hts
    exact ⟨.clauses cs, .ofClauses cs, rfl, fun _ _ => rfl⟩
  | scale cs s =>
    refine ⟨_, .blank (by decide) (.sign rfl spells_closed_one), ?_⟩
    intro ts hts
    obtain ⟨p, us, rfl, hus⟩ := map_lexeme_eq_cons hts
    obtain ⟨cs', hrun⟩ := run_listing_ending done cs ⟨s, p, [], .none⟩ hus
    exact ⟨.clauses cs', .ofClauses cs', (run_cons step_opening us).trans hrun, fun _ _ => rfl⟩
  | listing cs l =>
    refine ⟨_, spells_closed_one.blank (by decide), ?_⟩
    intro ts hts
    obtain ⟨cs', hrun⟩ := run_listing_ending done cs l hts
    exact ⟨.clauses cs', .ofClauses cs', hrun, fun _ _ => rfl⟩

theorem step_of_run_error {ts : List Token} {r : Reading} {fault : Fault}
    (h : ts.foldlM step r = .error fault) :
    ∃ us t vs r', ts = us ++ t :: vs ∧ us.foldlM step r = .ok r' ∧ r'.step t = .error fault := by
  induction ts generalizing r with
  | nil => cases h
  | cons t ts ih =>
    cases ht : r.step t with
    | error fault' =>
      rw [List.foldlM_cons, ht] at h
      cases h
      exact ⟨[], t, ts, r, rfl, rfl, ht⟩
    | ok r₁ =>
      rw [run_cons ht] at h
      obtain ⟨us, u, vs, r', rfl, hrun, hu⟩ := ih h
      exact ⟨t :: us, u, vs, r', rfl, (run_cons ht us).trans hrun, hu⟩

theorem run_error_of_step {us : List Token} {t : Token} {r r' : Reading} {fault : Fault}
    (hrun : us.foldlM step r = .ok r') (ht : r'.step t = .error fault) (vs : List Token) :
    (us ++ t :: vs).foldlM step r = .error fault := by
  rw [run_append hrun, List.foldlM_cons, ht]
  rfl

end Reading

namespace Period

theorem exists_completion {text : List Char} (h : ∀ c ∈ text, isAdmitted c = true)
    {us vs : List Token} (hts : tokens 0 text = us ++ vs) {r : Reading}
    (hrun : us.foldlM Reading.step .initial = .ok r) :
    ∃ text' p, (marks text').take us.length = (marks text).take us.length ∧
      ofChars text' = .ok p := by
  have hscan := scans_tokens h 0
  rw [hts] at hscan
  obtain ⟨a, b, -, ha, -, -⟩ := hscan.cut
  obtain ⟨ls, hspells, hending⟩ := r.run_ending
  obtain ⟨ws, hws, hls⟩ := hspells (0 + a.length)
  obtain ⟨q, sub, hrun', hfinish⟩ := hending ws hls
  -- The ending begins with no letter, so it leaves the last word before it as it is.
  have hall := ha.append hws (.of_wordBreak r.progress.wordBreak_ending a)
  refine ⟨a ++ r.progress.ending, ⟨r.done ++ [sub]⟩, ?_, ?_⟩
  · rw [take_marks hall.tokens_eq, take_marks hts]
  · rw [ofChars_of_admitted hall.admitted, hall.tokens_eq]
    simp only [ofTokens, Reading.run_append hrun, hrun']
    exact Reading.finish_of_progress hfinish _

theorem ofTokens_error_of_take_marks {text text' : List Char} {us vs : List Token} {t : Token}
    (hts : tokens 0 text = us ++ t :: vs) {r : Reading} {fault : Fault}
    (hrun : us.foldlM Reading.step .initial = .ok r) (ht : r.step t = .error fault)
    (h : (marks text').take (us.length + 1) = (marks text).take (us.length + 1)) :
    ofTokens (tokens 0 text') (byteLength text') = .error fault := by
  have hlength : (us ++ [t]).length = us.length + 1 := by simp
  have htake : (marks text).take (us ++ [t]).length = (us ++ [t]).map Token.mark :=
    take_marks (by rw [hts, List.append_assoc]; rfl)
  rw [← hlength, htake] at h
  obtain ⟨vs', hts'⟩ := append_of_take_marks h
  rw [List.append_assoc, List.singleton_append] at hts'
  rw [ofTokens, hts', Reading.run_error_of_step hrun ht vs']
  rfl

theorem ofTokens_eq_of_take_marks {text text' : List Char}
    (h : (marks text').take ((tokens 0 text).length + 1) =
      (marks text).take ((tokens 0 text).length + 1)) :
    ofTokens (tokens 0 text') (byteLength text') = ofTokens (tokens 0 text) (byteLength text) := by
  rw [← length_marks text, List.take_length, length_marks text] at h
  obtain ⟨hts, hlength⟩ := eq_of_take_marks h
  rw [hts, hlength]

/-- Behind which token a fault is decided: either it refuses that token, or it is the end of the
text. In both cases the tokens before can be read. -/
theorem exists_deciding_of_ofTokens {text : List Char} {fault : Fault}
    (h : ofTokens (tokens 0 text) (byteLength text) = .error fault) :
    ∃ us vs r, tokens 0 text = us ++ vs ∧ us.foldlM Reading.step .initial = .ok r ∧
      ∀ text', (marks text').take (us.length + 1) = (marks text).take (us.length + 1) →
        ofTokens (tokens 0 text') (byteLength text') = .error fault := by
  cases hrun : (tokens 0 text).foldlM Reading.step .initial with
  | error fault' =>
    have hfault : fault' = fault := by
      rw [ofTokens, hrun] at h
      exact Except.error.inj h
    subst hfault
    obtain ⟨us, t, vs, r, hts, hus, ht⟩ := Reading.step_of_run_error hrun
    refine ⟨us, t :: vs, r, hts, hus, ?_⟩
    intro text' hmarks
    exact ofTokens_error_of_take_marks hts hus ht hmarks
  | ok r =>
    refine ⟨tokens 0 text, [], r, (List.append_nil _).symm, hrun, ?_⟩
    intro text' hmarks
    rw [ofTokens_eq_of_take_marks hmarks, h]

/-- The mark at `k` decides a fault: no text that has it behind the same marks escapes this very
fault, and some text that begins with the marks before it is a period. -/
theorem exists_deciding_mark {text : String} {fault : Fault}
    (hadmitted : ∀ c ∈ text.toList, isAdmitted c = true) (h : parse text = .error fault) :
    ∃ k < (marks text.toList).length,
      (∀ text' : String, (∀ c ∈ text'.toList, isAdmitted c = true) →
        (marks text'.toList).take (k + 1) = (marks text.toList).take (k + 1) →
          parse text' = .error fault) ∧
      ∃ (text' : String) (p : Period),
        (marks text'.toList).take k = (marks text.toList).take k ∧ parse text' = .ok p := by
  rw [parse, ofChars_of_admitted hadmitted] at h
  obtain ⟨us, vs, r, hts, hrun, hfault⟩ := exists_deciding_of_ofTokens h
  refine ⟨us.length, ?_, ?_, ?_⟩
  · rw [length_marks, hts, List.length_append]
    omega
  · intro text' hadmitted' hmarks
    rw [parse, ofChars_of_admitted hadmitted']
    exact hfault text'.toList hmarks
  · obtain ⟨text', p, hmarks, hp⟩ := exists_completion hadmitted hts hrun
    refine ⟨String.ofList text', p, ?_, ?_⟩
    · rw [String.toList_ofList, hmarks]
    · rw [parse, String.toList_ofList, hp]

theorem exists_deciding_mark_of_two_dashes :
    (∀ c ∈ "wd \x7bmon--fri\x7d".toList, isAdmitted c = true) ∧
      parse "wd \x7bmon--fri\x7d" = .error (.span .noUpperBound .weekday 7) ∧
      ∃ k < (marks "wd \x7bmon--fri\x7d".toList).length,
        (∀ text' : String, (∀ c ∈ text'.toList, isAdmitted c = true) →
          (marks text'.toList).take (k + 1) = (marks "wd \x7bmon--fri\x7d".toList).take (k + 1) →
            parse text' = .error (.span .noUpperBound .weekday 7)) ∧
        ∃ (text' : String) (p : Period),
          (marks text'.toList).take k = (marks "wd \x7bmon--fri\x7d".toList).take k ∧
            parse text' = .ok p :=
  have hadmitted : ∀ c ∈ "wd \x7bmon--fri\x7d".toList, isAdmitted c = true := List.all_eq_true.mp rfl
  have hparse : parse "wd \x7bmon--fri\x7d" = .error (.span .noUpperBound .weekday 7) := rfl
  ⟨hadmitted, hparse, exists_deciding_mark hadmitted hparse⟩

end Period

end Recurrence
