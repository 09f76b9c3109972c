import Recurrence.Proofs.CursorMarks
import Recurrence.Proofs.FaultPositions

/-! Characters that no period is written in. The first one of a text is reported, whatever else is
wrong with the text before it or behind it, and nothing else is reported as one. -/

namespace Recurrence

/-- A blank, a sign, or an ASCII letter or digit. -/
def InLanguage (c : Char) : Prop :=
  c ∈ [' ', '\t', '\n', '\x0c', '\r'] ∨ c ∈ ['{', '}', ',', '-'] ∨
    'A' ≤ c ∧ c ≤ 'Z' ∨ 'a' ≤ c ∧ c ≤ 'z' ∨ '0' ≤ c ∧ c ≤ '9'

theorem isAlphanum_iff {c : Char} :
    c.isAlphanum = true ↔ 'A' ≤ c ∧ c ≤ 'Z' ∨ 'a' ≤ c ∧ c ≤ 'z' ∨ '0' ≤ c ∧ c ≤ '9' := by
  have hupper : c.isUpper = decide ('A' ≤ c ∧ c ≤ 'Z') := rfl
  have hlower : c.isLower = (decide ('a' ≤ c) && decide (c ≤ 'z')) := rfl
  have hdigit : c.isDigit = (decide ('0' ≤ c) && decide (c ≤ '9')) := rfl
  have hclasses : c.isAlphanum = ((c.isUpper || c.isLower) || c.isDigit) := rfl
  rw [hclasses, hupper, hlower, hdigit]
  simp only [Bool.or_eq_true, Bool.and_eq_true, decide_eq_true_eq, or_assoc]

theorem isAdmitted_iff_inLanguage {c : Char} : isAdmitted c = true ↔ InLanguage c := by
  have hblank : isBlank c = true ↔ c ∈ [' ', '\t', '\n', '\x0c', '\r'] := by
    simp [isBlank, or_assoc]
  rw [isAdmitted_iff, hblank, isAlphanum_iff, InLanguage]

/-- Before `c`, which stands at byte `p`, are characters of the language only. -/
def FirstForeign (text : List Char) (c : Char) (p : Nat) : Prop :=
  ∃ before after, text = before ++ c :: after ∧ byteLength before = p ∧ ¬ InLanguage c ∧
    ∀ d ∈ before, InLanguage d

theorem intruder?_eq_some_iff {text : List Char} {c : Char} {p : Nat} :
    intruder? 0 text = some (c, p) ↔ FirstForeign text c p := by
  constructor
  · intro h
    obtain ⟨before, after, htext, hp, hc, hbefore⟩ := exists_append_of_intruder? h
    refine ⟨before, after, htext, by rwa [Nat.zero_add] at hp, ?_, ?_⟩
    · rw [← isAdmitted_iff_inLanguage, hc]
      exact Bool.false_ne_true
    · exact fun d hd => isAdmitted_iff_inLanguage.mp (hbefore d hd)
  · rintro ⟨before, after, rfl, rfl, hc, hbefore⟩
    rw [← isAdmitted_iff_inLanguage] at hc
    rw [intruder?_append fun d hd => isAdmitted_iff_inLanguage.mpr (hbefore d hd), intruder?,
      if_neg hc, Nat.zero_add]

theorem exists_firstForeign_iff {text : List Char} :
    (∃ c p, FirstForeign text c p) ↔ ∃ c ∈ text, ¬ InLanguage c := by
  constructor
  · rintro ⟨c, p, before, after, rfl, -, hc, -⟩
    exact ⟨c, by simp, hc⟩
  · rintro ⟨d, hd, hforeign⟩
    cases hi : intruder? 0 text with
    | none =>
      have hadmitted := intruder?_eq_none_iff.mp hi d hd
      exact absurd (isAdmitted_iff_inLanguage.mp hadmitted) hforeign
    | some found => exact ⟨found.1, found.2, intruder?_eq_some_iff.mp hi⟩

/-- The bytes are cut into marks up to the first character that is foreign, and no further. -/
theorem Descent.marksFrom_eq_throw_iff {text : String} {passes : Nat}
    (hpasses : text.utf8ByteSize < passes) {c : Char} {p : Nat} :
    marksFrom text passes 0 [] = throw (.fault (.intruder c p)) ↔
      FirstForeign text.toList c p := by
  rw [← intruder?_eq_some_iff]
  cases hi : intruder? 0 text.toList with
  | none =>
    rw [marksFrom_eq_marks (intruder?_eq_none_iff.mp hi) hpasses]
    exact iff_of_false nofun nofun
  | some found =>
    obtain ⟨d, q⟩ := found
    rw [marksFrom_eq_throw hi hpasses]
    constructor
    · rintro ⟨⟩
      rfl
    · rintro ⟨⟩
      rfl

namespace Period

/-- What the tokens are refused for is never a character. -/
theorem ofTokens_ne_intruder (ts : List Token) (length : Nat) (c : Char) (p : Nat) :
    ofTokens ts length ≠ .error (.intruder c p) := fun h => cites_of_ofTokens h

theorem ofChars_eq_intruder_iff {text : List Char} {c : Char} {p : Nat} :
    ofChars text = .error (.intruder c p) ↔ FirstForeign text c p := by
  rw [← intruder?_eq_some_iff]
  cases hi : intruder? 0 text with
  | none =>
    rw [ofChars_of_admitted (intruder?_eq_none_iff.mp hi)]
    exact iff_of_false (ofTokens_ne_intruder _ _ c p) (by simp)
  | some found =>
    have hfault : ofChars text = .error (.intruder found.1 found.2) := by simp only [ofChars, hi]
    simp [hfault, Prod.ext_iff]

/-- A text is refused for a character where there is one that is not of the language, and then for
the first of them. Where its bytes are cut into marks the cut ends at that character, too. -/
theorem parse_eq_intruder_iff (text : String) :
    (∀ c p, parse text = .error (.intruder c p) ↔ FirstForeign text.toList c p) ∧
    ((∃ c p, parse text = .error (.intruder c p)) ↔ ∃ c ∈ text.toList, ¬ InLanguage c) ∧
    ∀ passes, text.utf8ByteSize < passes → ∀ c p,
      Descent.marksFrom text passes 0 [] = throw (.fault (.intruder c p)) ↔
        FirstForeign text.toList c p := by
  have hparse : ∀ c p, parse text = .error (.intruder c p) ↔ FirstForeign text.toList c p :=
    fun _ _ => ofChars_eq_intruder_iff
  refine ⟨hparse, ?_, fun passes hpasses c p => Descent.marksFrom_eq_throw_iff hpasses⟩
  rw [← exists_firstForeign_iff]
  exact exists_congr fun c => exists_congr fun p => hparse c p

/-- A stray brace, an hour out of range and a second foreign character are all passed over. -/
theorem parse_eq_intruder_iff_of_other_faults :
    FirstForeign "\x7d, hr \x7b99 ß é".toList 'ß' 10 ∧
      parse "\x7d, hr \x7b99 ß é" = .error (.intruder 'ß' 10) ∧
      "\x7d, hr \x7b99 ß é".utf8ByteSize < 20 ∧
      Descent.marksFrom "\x7d, hr \x7b99 ß é" 20 0 [] = throw (.fault (.intruder 'ß' 10)) :=
  have hfirst : FirstForeign "\x7d, hr \x7b99 ß é".toList 'ß' 10 := intruder?_eq_some_iff.mp rfl
  have hsize : "\x7d, hr \x7b99 ß é".utf8ByteSize < 20 := by decide
  have hiff := parse_eq_intruder_iff "\x7d, hr \x7b99 ß é"
  ⟨hfirst, (hiff.1 _ _).mpr hfirst, hsize, (hiff.2.2 20 hsize _ _).mpr hfirst⟩

end Period

end Recurrence
