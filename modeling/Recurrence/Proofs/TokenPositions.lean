import Recurrence.Proofs.MovedPositions
import Recurrence.Proofs.TokenScan

/-! Where the tokens of a text stand. A text that begins elsewhere has the same tokens, all of them
moved by as much. -/

namespace Recurrence

theorem byteLength_append (a b : List Char) :
    byteLength (a ++ b) = byteLength a + byteLength b := by
  induction a with
  | nil => simp [byteLength]
  | cons c a ih => simp [byteLength, ih, Nat.add_assoc]

theorem byteLength_concat (before : List Char) (c : Char) :
    byteLength (before ++ [c]) = byteLength before + c.utf8Size := by
  simp [byteLength_append, byteLength]

theorem byteLength_of_admitted {text : List Char} (h : ∀ c ∈ text, isAdmitted c = true) :
    byteLength text = text.length := by
  induction text with
  | nil => rfl
  | cons c cs ih =>
    have hc := utf8Size_of_isAdmitted (h c (by simp))
    have hcs := ih fun d hd => h d (by simp [hd])
    simp only [byteLength, hc, hcs, List.length_cons]
    omega

theorem intruder?_add (p n : Nat) (text : List Char) :
    intruder? (p + n) text = (intruder? p text).map fun found => (found.1, found.2 + n) := by
  induction text generalizing p with
  | nil => rfl
  | cons c cs ih =>
    have hcs := ih (p + c.utf8Size)
    by_cases hc : isAdmitted c = true
    · simp only [intruder?, hc, if_true]
      rw [← hcs, Nat.add_right_comm]
    · simp [intruder?, hc]

theorem intruder?_append {a : List Char} (h : ∀ c ∈ a, isAdmitted c = true) (p : Nat)
    (b : List Char) : intruder? p (a ++ b) = intruder? (p + byteLength a) b := by
  induction a generalizing p with
  | nil => rfl
  | cons c a ih =>
    have hc := h c (by simp)
    have ha := ih (fun d hd => h d (by simp [hd])) (p + c.utf8Size)
    simp only [List.cons_append, intruder?, hc, if_true, ha, byteLength, Nat.add_assoc]

theorem le_of_intruder?_eq {p q : Nat} {c : Char} {text : List Char}
    (h : intruder? p text = some (c, q)) : p ≤ q := by
  induction text generalizing p with
  | nil => cases h
  | cons d ds ih =>
    rw [intruder?] at h
    split at h
    · have hle := ih h
      omega
    · cases h
      exact Nat.le_refl _

/-- A letter joins the word behind it after a move of the positions where it does before. -/
theorem consLetter_moved {f : Nat → Nat} {p : Nat} {ts : List Token}
    (h : ∀ letters q us, ts = ⟨.word letters, q⟩ :: us → (f q = f p + 1 ↔ q = p + 1))
    (letter : Char) :
    consLetter letter (f p) (ts.map (Token.moved f)) =
      (consLetter letter p ts).map (Token.moved f) := by
  cases ts with
  | nil => rfl
  | cons t us =>
    obtain ⟨l, q⟩ := t
    cases l with
    | word letters =>
      have hq := h letters q us rfl
      by_cases hp : q = p + 1
      · subst hp
        have hp' : f (p + 1) = f p + 1 := hq.mpr rfl
        simp [consLetter, Token.moved, hp']
      · have hp' : f q ≠ f p + 1 := fun he => hp (hq.mp he)
        simp [consLetter, Token.moved, hp, hp']
    | _ => rfl

theorem tokens_add (p n : Nat) (text : List Char) :
    tokens (p + n) text = (tokens p text).map (Token.moved (· + n)) := by
  induction text generalizing p with
  | nil => rfl
  | cons c cs ih =>
    have hcs := ih (p + c.utf8Size)
    rw [Nat.add_right_comm] at hcs
    simp only [tokens, hcs]
    by_cases hletter : c.isAlphanum = true
    · rw [if_pos hletter, if_pos hletter]
      have hmove : ∀ (letters : List Char) (q : Nat) (us : List Token),
          tokens (p + c.utf8Size) cs = ⟨.word letters, q⟩ :: us →
            (q + n = p + n + 1 ↔ q = p + 1) := by
        intro letters q us _
        omega
      exact consLetter_moved hmove c.toLower
    · rw [if_neg hletter, if_neg hletter]
      cases Lexeme.sign? c <;> rfl

theorem le_position_consLetter {p : Nat} {ts : List Token} (h : ∀ t ∈ ts, p ≤ t.position)
    (letter : Char) : ∀ t ∈ consLetter letter p ts, p ≤ t.position := by
  unfold consLetter
  split
  · rename_i letters q us
    have hus : ∀ t ∈ us, p ≤ t.position := fun t ht => h t (by simp [ht])
    split
    · exact List.forall_mem_cons.mpr ⟨Nat.le_refl p, hus⟩
    · exact List.forall_mem_cons.mpr ⟨Nat.le_refl p, h⟩
  · exact List.forall_mem_cons.mpr ⟨Nat.le_refl p, h⟩

theorem le_position_tokens (p : Nat) (text : List Char) :
    ∀ t ∈ tokens p text, p ≤ t.position := by
  induction text generalizing p with
  | nil => simp [tokens]
  | cons c cs ih =>
    have hcs : ∀ t ∈ tokens (p + c.utf8Size) cs, p ≤ t.position := by
      intro t ht
      have hle := ih (p + c.utf8Size) t ht
      omega
    unfold tokens
    split
    · exact le_position_consLetter hcs c.toLower
    · split
      · exact List.forall_mem_cons.mpr ⟨Nat.le_refl p, hcs⟩
      · exact hcs

/-- A word that stands at the beginning begins with a letter or digit there. -/
theorem isAlphanum_of_tokens_eq {p : Nat} {text letters : List Char} {us : List Token}
    (h : tokens p text = ⟨.word letters, p⟩ :: us) : ∃ c ∈ text.head?, c.isAlphanum = true := by
  cases text with
  | nil => cases h
  | cons c cs =>
    cases hc : c.isAlphanum with
    | true => exact ⟨c, rfl, hc⟩
    | false =>
      rw [tokens, if_neg (by simp [hc])] at h
      cases hs : Lexeme.sign? c with
      | some l =>
        simp only [hs, List.cons.injEq, Token.mk.injEq] at h
        rcases sign?_eq_some hs with rfl | rfl | rfl | rfl <;> (cases hs; cases h.1.1)
      | none =>
        simp only [hs] at h
        have hle := le_position_tokens (p + c.utf8Size) cs ⟨.word letters, p⟩ (by simp [h])
        have hsize := c.utf8Size_pos
        simp only at hle
        omega

theorem Scans.spells {text : List Char} {ts : List Token} (h : Scans 0 text ts) :
    Spells text (ts.map Token.lexeme) := by
  intro p
  have hmoved : tokens p text = ts.map (Token.moved (· + p)) := by
    rw [← h.tokens_eq, ← tokens_add, Nat.zero_add]
  refine ⟨tokens p text, scans_tokens h.admitted p, ?_⟩
  rw [hmoved, List.map_map]
  rfl

end Recurrence
