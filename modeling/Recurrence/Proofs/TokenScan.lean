import Recurrence.Period.Token

/-! The tokens of a text, described from the text alone: its signs and its longest runs of letters
and digits, with blanks between them. A text can be cut and joined wherever no word runs across. -/

namespace Recurrence

/-- No word that stands before runs on into the text. -/
def WordBreak (text : List Char) : Prop := ∀ c ∈ text.head?, c.isAlphanum = false

/-- `Scans p text ts`: a text that begins at `p` consists of the tokens `ts` and of blanks. -/
inductive Scans : Nat → List Char → List Token → Prop
  | nil {p : Nat} : Scans p [] []
  | blank {p : Nat} {c : Char} {cs : List Char} {ts : List Token}
      (hc : isBlank c = true) (h : Scans (p + 1) cs ts) : Scans p (c :: cs) ts
  | sign {p : Nat} {c : Char} {l : Lexeme} {cs : List Char} {ts : List Token}
      (hc : Lexeme.sign? c = some l) (h : Scans (p + 1) cs ts) : Scans p (c :: cs) (⟨l, p⟩ :: ts)
  | word {p : Nat} {run cs : List Char} {ts : List Token}
      (hne : run ≠ []) (hrun : ∀ c ∈ run, c.isAlphanum = true) (hbreak : WordBreak cs)
      (h : Scans (p + run.length) cs ts) :
      Scans p (run ++ cs) (⟨.word (run.map Char.toLower), p⟩ :: ts)

theorem eq_of_isBlank {c : Char} (h : isBlank c = true) :
    c = ' ' ∨ c = '\t' ∨ c = '\n' ∨ c = '\x0c' ∨ c = '\r' := by
  simpa [isBlank, or_assoc] using h

theorem isAlphanum_of_isBlank {c : Char} (h : isBlank c = true) : c.isAlphanum = false := by
  rcases eq_of_isBlank h with rfl | rfl | rfl | rfl | rfl <;> rfl

theorem sign?_of_isBlank {c : Char} (h : isBlank c = true) : Lexeme.sign? c = none := by
  rcases eq_of_isBlank h with rfl | rfl | rfl | rfl | rfl <;> rfl

theorem sign?_eq_some {c : Char} {l : Lexeme} (h : Lexeme.sign? c = some l) :
    c = '{' ∨ c = '}' ∨ c = ',' ∨ c = '-' := by
  unfold Lexeme.sign? at h
  split at h
  · exact .inl rfl
  · exact .inr (.inl rfl)
  · exact .inr (.inr (.inl rfl))
  · exact .inr (.inr (.inr rfl))
  · cases h

theorem isAlphanum_of_sign? {c : Char} {l : Lexeme} (h : Lexeme.sign? c = some l) :
    c.isAlphanum = false := by
  rcases sign?_eq_some h with rfl | rfl | rfl | rfl <;> rfl

theorem isBlank_of_sign? {c : Char} {l : Lexeme} (h : Lexeme.sign? c = some l) :
    isBlank c = false := by
  rcases sign?_eq_some h with rfl | rfl | rfl | rfl <;> rfl

theorem isBlank_of_isAlphanum {c : Char} (h : c.isAlphanum = true) : isBlank c = false := by
  cases hblank : isBlank c with
  | false => rfl
  | true => cases h.symm.trans (isAlphanum_of_isBlank hblank)

theorem isAdmitted_of_isBlank {c : Char} (h : isBlank c = true) : isAdmitted c = true := by
  simp [isAdmitted, h]

theorem isAdmitted_of_isAlphanum {c : Char} (h : c.isAlphanum = true) : isAdmitted c = true := by
  simp [isAdmitted, h]

theorem isAdmitted_of_sign? {c : Char} {l : Lexeme} (h : Lexeme.sign? c = some l) :
    isAdmitted c = true := by
  simp [isAdmitted, h]

theorem isAdmitted_iff {c : Char} :
    isAdmitted c = true ↔ isBlank c = true ∨ c ∈ ['{', '}', ',', '-'] ∨ c.isAlphanum = true := by
  constructor
  · intro h
    simp only [isAdmitted, Bool.or_eq_true] at h
    rcases h with (h | h) | h
    · exact .inl h
    · exact .inr (.inr h)
    · obtain ⟨l, hl⟩ := Option.isSome_iff_exists.mp h
      exact .inr (.inl (by simpa using sign?_eq_some hl))
  · rintro (h | h | h)
    · exact isAdmitted_of_isBlank h
    · simp only [List.mem_cons, List.not_mem_nil, or_false] at h
      rcases h with rfl | rfl | rfl | rfl <;> rfl
    · exact isAdmitted_of_isAlphanum h

theorem toNat_lt_of_isAlphanum {c : Char} (h : c.isAlphanum = true) : c.val.toNat < 128 := by
  have hcases : ((c.isUpper || c.isLower) || c.isDigit) = true := h
  rw [Bool.or_eq_true, Bool.or_eq_true] at hcases
  have hle : c.val ≤ 'z'.val := by
    rcases hcases with (hupper | hlower) | hdigit
    · have hZ : c.val ≤ 'Z'.val := (of_decide_eq_true hupper).2
      exact UInt32.le_trans hZ (by decide)
    · exact of_decide_eq_true (Bool.and_eq_true_iff.mp hlower).2
    · have h9 : c.val ≤ '9'.val := of_decide_eq_true (Bool.and_eq_true_iff.mp hdigit).2
      exact UInt32.le_trans h9 (by decide)
  have hz : 'z'.val.toNat < 128 := by decide
  have hle' := UInt32.le_iff_toNat_le.mp hle
  omega

theorem utf8Size_of_isAdmitted {c : Char} (h : isAdmitted c = true) : c.utf8Size = 1 := by
  rcases isAdmitted_iff.mp h with h | h | h
  · rcases eq_of_isBlank h with rfl | rfl | rfl | rfl | rfl <;> rfl
  · simp only [List.mem_cons, List.not_mem_nil, or_false] at h
    rcases h with rfl | rfl | rfl | rfl <;> rfl
  · have hlt := toNat_lt_of_isAlphanum h
    rw [Char.utf8Size_eq_one_iff, UInt32.le_iff_toNat_le]
    exact Nat.le_of_lt_succ hlt

theorem intruder?_eq_none_iff {p : Nat} {text : List Char} :
    intruder? p text = none ↔ ∀ c ∈ text, isAdmitted c = true := by
  induction text generalizing p with
  | nil => simp [intruder?]
  | cons c cs ih =>
    rw [intruder?, List.forall_mem_cons]
    by_cases hc : isAdmitted c = true
    · rw [if_pos hc, ih, and_iff_right hc]
    · simp [hc]

theorem WordBreak.nil : WordBreak [] := by simp [WordBreak]

theorem WordBreak.cons {c : Char} (h : c.isAlphanum = false) (cs : List Char) :
    WordBreak (c :: cs) := by simpa [WordBreak] using h

theorem WordBreak.of_head?_eq {a b : List Char} (h : WordBreak a) (he : b.head? = a.head?) :
    WordBreak b := by
  intro c hc
  exact h c (he ▸ hc)

theorem WordBreak.left {a b : List Char} (h : WordBreak (a ++ b)) : WordBreak a := by
  cases a with
  | nil => exact .nil
  | cons c a => exact h.of_head?_eq rfl

theorem add_length_cons (p : Nat) (c : Char) (cs : List Char) :
    p + 1 + cs.length = p + (c :: cs).length := by
  simp only [List.length_cons]
  omega

namespace Scans

theorem admitted {p : Nat} {text : List Char} {ts : List Token} (h : Scans p text ts) :
    ∀ c ∈ text, isAdmitted c = true := by
  induction h with
  | nil => simp
  | blank hc _ ih => exact List.forall_mem_cons.mpr ⟨isAdmitted_of_isBlank hc, ih⟩
  | sign hc _ ih => exact List.forall_mem_cons.mpr ⟨isAdmitted_of_sign? hc, ih⟩
  | word _ hrun _ _ ih =>
    intro c hc
    rcases List.mem_append.mp hc with hc | hc
    · exact isAdmitted_of_isAlphanum (hrun c hc)
    · exact ih c hc

theorem le_position {p : Nat} {text : List Char} {ts : List Token} (h : Scans p text ts) :
    ∀ t ∈ ts, p ≤ t.position := by
  induction h with
  | nil => simp
  | blank _ _ ih =>
    intro t ht
    have hle := ih t ht
    omega
  | sign _ _ ih =>
    refine List.forall_mem_cons.mpr ⟨Nat.le_refl _, fun t ht => ?_⟩
    have hle := ih t ht
    omega
  | word _ _ _ _ ih =>
    refine List.forall_mem_cons.mpr ⟨Nat.le_refl _, fun t ht => ?_⟩
    have hle := ih t ht
    omega

theorem consLetter_of_wordBreak {p : Nat} {text : List Char} {ts : List Token}
    (h : Scans (p + 1) text ts) (hbreak : WordBreak text) (letter : Char) :
    consLetter letter p ts = ⟨.word [letter], p⟩ :: ts := by
  cases h with
  | nil => rfl
  | blank hc h =>
    have hpos := h.le_position
    unfold consLetter
    split
    · rename_i letters q us
      have hq : p + 1 + 1 ≤ q := hpos ⟨.word letters, q⟩ (by simp)
      have hne : q ≠ p + 1 := by omega
      rw [if_neg hne]
    · rfl
  | @sign _ c l cs ts hc h =>
    rcases sign?_eq_some hc with rfl | rfl | rfl | rfl <;> (cases hc; rfl)
  | @word _ run cs ts hne hrun _ _ =>
    obtain ⟨c, run, rfl⟩ := List.exists_cons_of_ne_nil hne
    have hc : c.isAlphanum = false := hbreak c (by simp)
    have hc' : c.isAlphanum = true := hrun c (by simp)
    rw [hc] at hc'
    cases hc'

theorem consLetter {p : Nat} {c : Char} {text : List Char} {ts : List Token}
    (hc : c.isAlphanum = true) (h : Scans (p + 1) text ts) :
    Scans p (c :: text) (consLetter c.toLower p ts) := by
  by_cases hbreak : WordBreak text
  · rw [h.consLetter_of_wordBreak hbreak]
    exact @word p [c] text ts (by simp) (by simpa using hc) hbreak h
  · cases h with
    | nil => exact absurd WordBreak.nil hbreak
    | blank hb h => exact absurd (WordBreak.cons (isAlphanum_of_isBlank hb) _) hbreak
    | sign hs h => exact absurd (WordBreak.cons (isAlphanum_of_sign? hs) _) hbreak
    | @word _ run cs ts hne hrun hbreak' h =>
      rw [add_length_cons p c run] at h
      have hword := @word p (c :: run) cs ts (by simp) (List.forall_mem_cons.mpr ⟨hc, hrun⟩) hbreak' h
      simpa [Recurrence.consLetter] using hword

theorem tokens_word {p : Nat} {run text : List Char} {ts : List Token} (hne : run ≠ [])
    (hrun : ∀ c ∈ run, c.isAlphanum = true) (hbreak : WordBreak text)
    (h : Scans (p + run.length) text ts) (htext : tokens (p + run.length) text = ts) :
    tokens p (run ++ text) = ⟨.word (run.map Char.toLower), p⟩ :: ts := by
  induction run generalizing p with
  | nil => exact absurd rfl hne
  | cons c run ih =>
    have hc := hrun c (by simp)
    have hsize := utf8Size_of_isAdmitted (isAdmitted_of_isAlphanum hc)
    simp only [List.cons_append, tokens, hc, if_true, hsize]
    cases run with
    | nil =>
      simp only [List.nil_append]
      rw [show tokens (p + 1) text = ts from htext]
      exact h.consLetter_of_wordBreak hbreak c.toLower
    | cons d run =>
      rw [← add_length_cons] at h htext
      rw [ih (by simp) (fun e he => hrun e (by simp [he])) h htext]
      simp [Recurrence.consLetter]

theorem tokens_eq {p : Nat} {text : List Char} {ts : List Token} (h : Scans p text ts) :
    tokens p text = ts := by
  induction h with
  | nil => rfl
  | blank hc _ ih =>
    have hsize := utf8Size_of_isAdmitted (isAdmitted_of_isBlank hc)
    simp [tokens, isAlphanum_of_isBlank hc, sign?_of_isBlank hc, hsize, ih]
  | sign hc _ ih =>
    have hsize := utf8Size_of_isAdmitted (isAdmitted_of_sign? hc)
    simp [tokens, isAlphanum_of_sign? hc, hc, hsize, ih]
  | word hne hrun hbreak h ih => exact tokens_word hne hrun hbreak h ih

end Scans

theorem scans_tokens {text : List Char} (h : ∀ c ∈ text, isAdmitted c = true) (p : Nat) :
    Scans p text (tokens p text) := by
  induction text generalizing p with
  | nil => exact .nil
  | cons c cs ih =>
    have hc := h c (by simp)
    have hcs := ih (fun d hd => h d (by simp [hd])) (p + 1)
    simp only [tokens, utf8Size_of_isAdmitted hc]
    by_cases hletter : c.isAlphanum = true
    · rw [if_pos hletter]
      exact hcs.consLetter hletter
    · rw [if_neg hletter]
      cases hs : Lexeme.sign? c with
      | some l => exact .sign hs hcs
      | none => exact .blank (by simpa [isAdmitted, hletter, hs] using hc) hcs

theorem scans_nil_iff {p : Nat} {text : List Char} :
    Scans p text [] ↔ ∀ c ∈ text, isBlank c = true := by
  constructor
  · intro h
    generalize hts : [] = ts at h
    induction h with
    | nil => simp
    | blank hc _ ih => exact List.forall_mem_cons.mpr ⟨hc, ih hts⟩
    | sign => cases hts
    | word => cases hts
  · intro h
    induction text generalizing p with
    | nil => exact .nil
    | cons c cs ih =>
      have hc := List.forall_mem_cons.mp h
      exact .blank hc.1 (ih hc.2)

/-- No word runs across from one text to the next. -/
def Seam (a b : List Char) : Prop :=
  ∀ c ∈ a.getLast?, ∀ d ∈ b.head?, c.isAlphanum = true → d.isAlphanum = false

theorem Seam.of_wordBreak {b : List Char} (h : WordBreak b) (a : List Char) : Seam a b :=
  fun _ _ d hd _ => h d hd

theorem Seam.nil (b : List Char) : Seam [] b := by simp [Seam]

theorem Seam.cons {c : Char} {a b : List Char} (h : Seam a b) (hc : c.isAlphanum = false) :
    Seam (c :: a) b := by
  cases a with
  | nil => simp [Seam, hc]
  | cons d a => simpa [Seam, List.getLast?_cons_cons] using h

theorem Seam.of_concat {c : Char} (hc : c.isAlphanum = false) (a b : List Char) :
    Seam (a ++ [c]) b := by simp [Seam, hc]

theorem Seam.behind {a b : List Char} (h : Seam a b) (hbreak : WordBreak (a ++ b))
    (run : List Char) : Seam (run ++ a) b := by
  cases a with
  | nil => exact .of_wordBreak hbreak _
  | cons c a => simpa [Seam] using h

theorem Seam.tail {c : Char} {cs b : List Char} (h : Seam (c :: cs) b) : Seam cs b := by
  cases cs with
  | nil => simp [Seam]
  | cons d cs => simpa [Seam, List.getLast?_cons_cons] using h

theorem Seam.drop {a a' b : List Char} (h : Seam (a ++ a') b) : Seam a' b := by
  induction a with
  | nil => exact h
  | cons c a ih => exact ih h.tail

theorem Seam.wordBreak {run b : List Char} (h : Seam run b) (hne : run ≠ [])
    (hrun : ∀ c ∈ run, c.isAlphanum = true) : WordBreak b := by
  intro d hd
  have hlast := List.getLast?_eq_some_getLast hne
  exact h _ hlast d hd (hrun _ (List.getLast_mem hne))

namespace Scans

theorem append {p : Nat} {a b : List Char} {ts us : List Token} (h : Scans p a ts)
    (h' : Scans (p + a.length) b us) (hseam : Seam a b) : Scans p (a ++ b) (ts ++ us) := by
  induction h with
  | nil => exact h'
  | blank hc _ ih => exact .blank hc (ih (by rwa [add_length_cons]) hseam.tail)
  | sign hc _ ih => exact .sign hc (ih (by rwa [add_length_cons]) hseam.tail)
  | @word p run cs ts hne hrun hbreak h ih =>
    rw [List.append_assoc]
    refine .word hne hrun ?_ (ih ?_ hseam.drop)
    · cases cs with
      | nil => exact (List.append_nil run ▸ hseam).wordBreak hne hrun
      | cons c cs => exact hbreak.of_head?_eq rfl
    · simpa [Nat.add_assoc] using h'

/-- The last of the letters before a cut may not run on behind it. -/
theorem cut {p : Nat} {text : List Char} {ts us : List Token} (h : Scans p text (ts ++ us)) :
    ∃ a b, text = a ++ b ∧ Scans p a ts ∧ Scans (p + a.length) b us ∧ Seam a b := by
  generalize hall : ts ++ us = all at h
  induction h generalizing ts with
  | nil =>
    obtain ⟨rfl, rfl⟩ := List.append_eq_nil_iff.mp hall
    exact ⟨[], [], rfl, .nil, .nil, .nil []⟩
  | blank hc _ ih =>
    obtain ⟨a, b, rfl, ha, hb, hseam⟩ := ih hall
    rw [add_length_cons] at hb
    exact ⟨_ :: a, b, rfl, .blank hc ha, hb, hseam.cons (isAlphanum_of_isBlank hc)⟩
  | sign hc h ih =>
    cases ts with
    | nil =>
      subst hall
      exact ⟨[], _, rfl, .nil, .sign hc h, .nil _⟩
    | cons t ts =>
      obtain ⟨rfl, hrest⟩ := List.cons.inj hall
      obtain ⟨a, b, rfl, ha, hb, hseam⟩ := ih hrest
      rw [add_length_cons] at hb
      exact ⟨_ :: a, b, rfl, .sign hc ha, hb, hseam.cons (isAlphanum_of_sign? hc)⟩
  | @word p run cs _ hne hrun hbreak h ih =>
    cases ts with
    | nil =>
      subst hall
      exact ⟨[], _, rfl, .nil, .word hne hrun hbreak h, .nil _⟩
    | cons t ts =>
      obtain ⟨rfl, hrest⟩ := List.cons.inj hall
      obtain ⟨a, b, rfl, ha, hb, hseam⟩ := ih hrest
      rw [Nat.add_assoc, ← List.length_append] at hb
      exact ⟨run ++ a, b, (List.append_assoc run a b).symm, .word hne hrun hbreak.left ha, hb,
        hseam.behind hbreak run⟩

end Scans

/-- The lexemes of a text, wherever it stands. -/
def Spells (text : List Char) (ls : List Lexeme) : Prop :=
  ∀ p, ∃ ts, Scans p text ts ∧ ts.map Token.lexeme = ls

namespace Spells

theorem nil : Spells [] [] := fun _ => ⟨[], .nil, rfl⟩

theorem blank {c : Char} {cs : List Char} {ls : List Lexeme} (hc : isBlank c = true)
    (h : Spells cs ls) : Spells (c :: cs) ls := by
  intro p
  obtain ⟨ts, hscan, hts⟩ := h (p + 1)
  exact ⟨ts, .blank hc hscan, hts⟩

theorem sign {c : Char} {l : Lexeme} {cs : List Char} {ls : List Lexeme}
    (hc : Lexeme.sign? c = some l) (h : Spells cs ls) : Spells (c :: cs) (l :: ls) := by
  intro p
  obtain ⟨ts, hscan, hts⟩ := h (p + 1)
  exact ⟨⟨l, p⟩ :: ts, .sign hc hscan, by simp [hts]⟩

theorem word {run : List Char} (hne : run ≠ []) (hrun : ∀ c ∈ run, c.isAlphanum = true)
    (hlower : run.map Char.toLower = run) : Spells run [.word run] := by
  intro p
  have hscan := Scans.word (p := p) hne hrun WordBreak.nil .nil
  rw [List.append_nil, hlower] at hscan
  exact ⟨_, hscan, rfl⟩

theorem append {a b : List Char} {ls ls' : List Lexeme} (h : Spells a ls) (h' : Spells b ls')
    (hseam : Seam a b) : Spells (a ++ b) (ls ++ ls') := by
  intro p
  obtain ⟨ts, hscan, hts⟩ := h p
  obtain ⟨us, hscan', hus⟩ := h' (p + a.length)
  exact ⟨ts ++ us, hscan.append hscan' hseam, by simp [hts, hus]⟩

/-- Texts with a separator that begins with no letter and takes no letter behind it. -/
theorem intercalate {α : Type} {text : α → List Char} {lexemes : α → List Lexeme}
    {sep : List Char} {lsep : List Lexeme} (hbreak : ∀ rest, WordBreak (sep ++ rest))
    (hsep : ∀ {rest ls}, Spells rest ls → Spells (sep ++ rest) (lsep ++ ls)) {as : List α}
    (h : ∀ a ∈ as, Spells (text a) (lexemes a)) :
    Spells (sep.intercalate (as.map text)) (lsep.intercalate (as.map lexemes)) := by
  induction as with
  | nil => exact nil
  | cons a as ih =>
    have ha := h a (by simp)
    have has := ih fun b hb => h b (by simp [hb])
    cases as with
    | nil => simpa using ha
    | cons b as =>
      simp only [List.map_cons, List.intercalate_cons_cons, List.append_assoc] at has ⊢
      exact ha.append (hsep has) (.of_wordBreak (hbreak _) _)

end Spells

end Recurrence
