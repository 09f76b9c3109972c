import Mathlib
import Recurrence.Proofs.TokenPositions

/-! The same text in other letters and with other spacing: a letter may be capital or small, and
blanks may stand wherever they cut no word. Such a text is the same period, and what is wrong with
it is the same, at the positions that the blanks have moved. -/

namespace Recurrence

/-- Behind `before`, a text can be written in these ways; the blanks that are put in stand at the
positions `inserted` of the text as it was. -/
inductive Respelled : List Char → List Char → List Char → List Nat → Prop
  | nil {before : List Char} : Respelled before [] [] []
  | cons {before cs cs' : List Char} {c c' : Char} {inserted : List Nat}
      (hc : c'.toLower = c.toLower) (h : Respelled (before ++ [c]) cs cs' inserted) :
      Respelled before (c :: cs) (c' :: cs') inserted
  | blank {before text text' : List Char} {b : Char} {inserted : List Nat}
      (hb : isBlank b = true) (hseam : Seam before text)
      (h : Respelled before text text' inserted) :
      Respelled before text (b :: text') (byteLength before :: inserted)

section Letters

variable {c c' : Char} (h : c'.toLower = c.toLower)

include h

theorem isAlpha_of_toLower_eq : c'.isAlpha = c.isAlpha := by
  have hlower := congrArg Char.isAlpha h
  simpa using hlower

theorem eq_or_isAlpha_of_toLower_eq : c' = c ∨ c.isAlpha = true ∧ c'.isAlpha = true := by
  have halpha := isAlpha_of_toLower_eq h
  by_cases hc : c.isAlpha = true
  · exact .inr ⟨hc, halpha.trans hc⟩
  · have hupper : ∀ {d : Char}, ¬ d.isAlpha = true → ¬ d.isUpper = true := by
      intro d hd hu
      exact hd (by simp [Char.isAlpha, hu])
    have hc' : ¬ c'.isAlpha = true := halpha ▸ hc
    rw [Char.toLower_eq_of_not_isUpper (hupper hc), Char.toLower_eq_of_not_isUpper (hupper hc')] at h
    exact .inl h

theorem isAlphanum_of_toLower_eq : c'.isAlphanum = c.isAlphanum := by
  rcases eq_or_isAlpha_of_toLower_eq h with rfl | ⟨hc, hc'⟩
  · rfl
  · simp [Char.isAlphanum, hc, hc']

theorem eq_of_toLower_eq (hc : c.isAlphanum = false) : c' = c := by
  rcases eq_or_isAlpha_of_toLower_eq h with rfl | ⟨halpha, -⟩
  · rfl
  · simp [Char.isAlphanum, halpha] at hc

theorem utf8Size_of_toLower_eq : c'.utf8Size = c.utf8Size := by
  by_cases hc : c.isAlphanum = true
  · have hc' := (isAlphanum_of_toLower_eq h).trans hc
    rw [utf8Size_of_isAdmitted (isAdmitted_of_isAlphanum hc),
      utf8Size_of_isAdmitted (isAdmitted_of_isAlphanum hc')]
  · rw [eq_of_toLower_eq h (by simpa using hc)]

theorem isAdmitted_of_toLower_eq : isAdmitted c' = isAdmitted c := by
  by_cases hc : c.isAlphanum = true
  · have hc' := (isAlphanum_of_toLower_eq h).trans hc
    rw [isAdmitted_of_isAlphanum hc, isAdmitted_of_isAlphanum hc']
  · rw [eq_of_toLower_eq h (by simpa using hc)]

end Letters

theorem countP_le_eq_zero {inserted : List Nat} {p : Nat} (h : ∀ i ∈ inserted, p < i) :
    inserted.countP (· ≤ p) = 0 := by
  apply List.countP_eq_zero.mpr
  intro i hi
  have hlt := h i hi
  simpa using hlt

namespace Respelled

variable {before text text' : List Char} {inserted : List Nat}

theorem le_of_mem (h : Respelled before text text' inserted) :
    ∀ i ∈ inserted, byteLength before ≤ i := by
  induction h with
  | nil => simp
  | cons _ _ ih =>
    intro i hi
    have hle := ih i hi
    rw [byteLength_concat] at hle
    omega
  | blank _ _ _ ih => exact List.forall_mem_cons.mpr ⟨Nat.le_refl _, ih⟩

theorem lt_of_mem_concat {c : Char} (h : Respelled (before ++ [c]) text text' inserted) :
    ∀ i ∈ inserted, byteLength before < i := by
  intro i hi
  have hle := h.le_of_mem i hi
  have hsize := c.utf8Size_pos
  rw [byteLength_concat] at hle
  omega

/-- Nothing is put in at once where a word runs on. -/
theorem lt_of_mem (h : Respelled before text text' inserted) (hseam : ¬ Seam before text) :
    ∀ i ∈ inserted, byteLength before < i := by
  cases h with
  | nil => simp
  | cons _ h => exact h.lt_of_mem_concat
  | blank _ hseam' _ => exact absurd hseam' hseam

theorem le_byteLength_of_mem (h : Respelled before text text' inserted) :
    ∀ i ∈ inserted, i ≤ byteLength (before ++ text) := by
  induction h with
  | nil => simp
  | cons _ _ ih => simpa using ih
  | blank _ _ _ ih =>
    refine List.forall_mem_cons.mpr ⟨?_, ih⟩
    rw [byteLength_append]
    omega

theorem byteLength_eq (h : Respelled before text text' inserted) :
    byteLength text' = byteLength text + inserted.length := by
  induction h with
  | nil => rfl
  | cons hc _ ih =>
    have hsize := utf8Size_of_toLower_eq hc
    simp only [byteLength, ih, hsize, Nat.add_assoc]
  | blank hb _ _ ih =>
    have hsize := utf8Size_of_isAdmitted (isAdmitted_of_isBlank hb)
    simp only [byteLength, ih, hsize, List.length_cons]
    omega

end Respelled

/-- The position in the new text of what stands at `p`, with `n` blanks put in before. -/
def movedPast (inserted : List Nat) (n p : Nat) : Nat := p + inserted.countP (· ≤ p) + n

theorem movedPast_of_lt {inserted : List Nat} {p : Nat} (h : ∀ i ∈ inserted, p < i) (n : Nat) :
    movedPast inserted n p = p + n := by
  simp [movedPast, countP_le_eq_zero h]

theorem movedPast_cons {i p : Nat} (h : i ≤ p) (inserted : List Nat) (n : Nat) :
    movedPast (i :: inserted) n p = movedPast inserted (n + 1) p := by
  have hcount := List.countP_cons_of_pos (p := fun i => decide (i ≤ p)) (l := inserted)
    (decide_eq_true h)
  simp only [movedPast, hcount]
  omega

theorem movedPast_of_le {inserted : List Nat} {p : Nat} (h : ∀ i ∈ inserted, i ≤ p) (n : Nat) :
    movedPast inserted n p = p + inserted.length + n := by
  have hcount : inserted.countP (· ≤ p) = inserted.length := by
    apply List.countP_eq_length.mpr
    intro i hi
    simpa using h i hi
  rw [movedPast, hcount]

namespace Respelled

variable {before text text' : List Char} {inserted : List Nat}

/-- The letter at the end of `before ++ [c]` and the one behind it leave no room. -/
theorem not_seam_of_isAlphanum {c d : Char} {cs : List Char} (hc : c.isAlphanum = true)
    (hd : d ∈ cs.head?) (hletter : d.isAlphanum = true) : ¬ Seam (before ++ [c]) cs := by
  intro hseam
  have hfalse := hseam c (by simp) d hd hc
  rw [hletter] at hfalse
  cases hfalse

theorem movedPast_eq_succ_iff {c : Char} (h : Respelled (before ++ [c]) text text' inserted)
    (hc : c.isAlphanum = true) {letters : List Char} {q : Nat} {us : List Token}
    (hts : tokens (byteLength before + 1) text = ⟨.word letters, q⟩ :: us) (n : Nat) :
    movedPast inserted n q = movedPast inserted n (byteLength before) + 1 ↔
      q = byteLength before + 1 := by
  have hhead := movedPast_of_lt h.lt_of_mem_concat n
  by_cases hq : q = byteLength before + 1
  · subst hq
    obtain ⟨d, hd, hletter⟩ := isAlphanum_of_tokens_eq hts
    have hlt : ∀ i ∈ inserted, byteLength before + 1 < i := by
      have hlast := h.lt_of_mem (not_seam_of_isAlphanum hc hd hletter)
      rwa [byteLength_concat, utf8Size_of_isAdmitted (isAdmitted_of_isAlphanum hc)] at hlast
    rw [hhead, movedPast_of_lt hlt]
    omega
  · have hle := le_position_tokens _ _ ⟨.word letters, q⟩ (hts ▸ List.mem_cons_self)
    rw [hhead, movedPast]
    simp only at hle
    omega

theorem tokens_eq (h : Respelled before text text' inserted) (n : Nat) :
    tokens (byteLength before + n) text' =
      (tokens (byteLength before) text).map (Token.moved (movedPast inserted n)) := by
  induction h generalizing n with
  | nil => rfl
  | @cons before cs cs' c c' inserted hc h ih =>
    have hhead := movedPast_of_lt h.lt_of_mem_concat n
    have hcs := ih n
    rw [byteLength_concat, Nat.add_right_comm] at hcs
    simp only [tokens, utf8Size_of_toLower_eq hc, hcs, isAlphanum_of_toLower_eq hc]
    by_cases hletter : c.isAlphanum = true
    · have hsize := utf8Size_of_isAdmitted (isAdmitted_of_isAlphanum hletter)
      simp only [hletter, if_true, hc, hsize, ← hhead]
      apply consLetter_moved
      intro letters q us hts
      exact h.movedPast_eq_succ_iff hletter hts n
    · have heq := eq_of_toLower_eq hc (by simpa using hletter)
      simp only [hletter, heq]
      cases hs : Lexeme.sign? c with
      | some l => simp [Token.moved, hhead]
      | none => rfl
  | @blank before text text' b inserted hb hseam h ih =>
    have hsize := utf8Size_of_isAdmitted (isAdmitted_of_isBlank hb)
    have htext := ih (n + 1)
    simp only [tokens, isAlphanum_of_isBlank hb, sign?_of_isBlank hb, hsize]
    rw [Nat.add_assoc, htext]
    apply List.map_congr_left
    intro t ht
    have hle := le_position_tokens _ _ t ht
    rw [Token.moved, Token.moved, movedPast_cons hle]

theorem intruder?_eq (h : Respelled before text text' inserted) (n : Nat) :
    intruder? (byteLength before + n) text' =
      (intruder? (byteLength before) text).map
        fun found => (found.1, movedPast inserted n found.2) := by
  induction h generalizing n with
  | nil => rfl
  | @cons before cs cs' c c' inserted hc h ih =>
    have hcs := ih n
    rw [byteLength_concat, Nat.add_right_comm] at hcs
    simp only [intruder?, utf8Size_of_toLower_eq hc, hcs, isAdmitted_of_toLower_eq hc]
    by_cases hadmitted : isAdmitted c = true
    · simp only [hadmitted, if_true]
    · have hletter : c.isAlphanum = false := by
        by_contra hletter
        exact hadmitted (isAdmitted_of_isAlphanum (by simpa using hletter))
      simp [hadmitted, eq_of_toLower_eq hc hletter, movedPast_of_lt h.lt_of_mem_concat]
  | @blank before text text' b inserted hb hseam h ih =>
    have hadmitted := isAdmitted_of_isBlank hb
    have htext := ih (n + 1)
    simp only [intruder?, hadmitted, if_true, utf8Size_of_isAdmitted hadmitted]
    rw [Nat.add_assoc, htext]
    cases hfound : intruder? (byteLength before) text with
    | none => rfl
    | some found =>
      obtain ⟨c, q⟩ := found
      have hle := le_of_intruder?_eq hfound
      simp only [Option.map_some, movedPast_cons hle]

end Respelled

namespace Period

theorem ofChars_respelled {text text' : List Char} {inserted : List Nat}
    (h : Respelled [] text text' inserted) :
    ofChars text' = movedResult (movedPast inserted 0) id (ofChars text) := by
  have hintruder := h.intruder?_eq 0
  have htokens := h.tokens_eq 0
  have hlength : byteLength text' = movedPast inserted 0 (byteLength text) := by
    have hle : ∀ i ∈ inserted, i ≤ byteLength text := h.le_byteLength_of_mem
    rw [movedPast_of_le hle, h.byteLength_eq, Nat.add_zero]
  simp only [byteLength, Nat.add_zero] at hintruder htokens
  rw [ofChars, ofChars, hintruder]
  cases intruder? 0 text with
  | some found => rfl
  | none =>
    simp only [Option.map_none, htokens, hlength]
    exact ofTokens_moved _ _ _

/-- Neither capital letters nor blanks change the period that a text is, or what is wrong with it: a
position that is reported moves on by the blanks that are put in up to it. -/
theorem parse_respelled {text text' : String} {inserted : List Nat}
    (h : Respelled [] text.toList text'.toList inserted) :
    (∀ p, parse text' = .ok p ↔ parse text = .ok p) ∧
      ∀ fault, parse text = .error fault →
        parse text' = .error (fault.moved fun p => p + inserted.countP (· ≤ p)) := by
  have hmoved := ofChars_respelled h
  constructor
  · intro p
    rw [parse, parse, hmoved, movedResult_eq_ok_iff]
    simp
  · intro fault hfault
    rw [parse] at hfault
    rw [parse, hmoved, hfault]
    rfl

/-- The blank at the position of the dash itself moves the dash. -/
theorem parse_respelled_of_missing_bound :
    Respelled [] "hr\x7b-".toList "HR \x7b\t-".toList [2, 3] ∧
      parse "hr\x7b-" = .error (.span .noLowerBound .hour 3) ∧
      parse "HR \x7b\t-" = .error (.span .noLowerBound .hour 5) := by
  have hbrace : Seam ['h', 'r'] ['{', '-'] := .of_wordBreak (.cons rfl _) _
  have hdash : Seam ['h', 'r', '{'] ['-'] := .of_wordBreak (.cons rfl _) _
  have hrespelled : Respelled [] "hr\x7b-".toList "HR \x7b\t-".toList [2, 3] :=
    .cons rfl (.cons rfl (.blank rfl hbrace (.cons rfl (.blank rfl hdash (.cons rfl .nil)))))
  have hfault : parse "hr\x7b-" = .error (.span .noLowerBound .hour 3) := rfl
  exact ⟨hrespelled, hfault, (parse_respelled hrespelled).2 _ hfault⟩

end Period

end Recurrence
