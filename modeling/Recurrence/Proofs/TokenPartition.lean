import Recurrence.Proofs.ForeignCharacters

/-! The tokens of a text and its blanks part its bytes among them. Where the tokens begin, how far
they go and what is written there is told by the bytes, and every byte belongs to one token or is
a blank. -/

namespace Recurrence

/-- The number of bytes a lexeme is written with. -/
def Lexeme.width : Lexeme → Nat
  | word letters => letters.length
  | _ => 1

/-- The byte at `i` is one of those the token is written with. -/
def Token.Covers (i : Nat) (t : Token) : Prop :=
  t.position ≤ i ∧ i < t.position + t.lexeme.width

instance (i : Nat) : DecidablePred (Token.Covers i) := fun _ => inferInstanceAs (Decidable (_ ∧ _))

theorem Lexeme.width_of_sign? {c : Char} {l : Lexeme} (h : sign? c = some l) : l.width = 1 := by
  rcases sign?_eq_some h with rfl | rfl | rfl | rfl <;> (cases h; rfl)

namespace Scans

variable {p : Nat} {text : List Char} {ts : List Token}

theorem countP_covers_eq_zero (h : Scans p text ts) {i : Nat} (hi : i < p) :
    ts.countP (Token.Covers i) = 0 := by
  refine List.countP_eq_zero.mpr fun t ht => ?_
  have hle := h.le_position t ht
  have hnot : ¬ t.Covers i := by
    rintro ⟨hle', -⟩
    omega
  simpa using hnot

theorem countP_covers_cons {l : Lexeme} (h : Scans (p + l.width) text ts) (i : Nat) :
    (⟨l, p⟩ :: ts).countP (Token.Covers (p + i)) =
      if i < l.width then 1 else ts.countP (Token.Covers (p + i)) := by
  by_cases hi : i < l.width
  · have hcovers : Token.Covers (p + i) ⟨l, p⟩ := ⟨Nat.le_add_right p i, Nat.add_lt_add_left hi p⟩
    rw [if_pos hi, List.countP_cons_of_pos (by simpa using hcovers),
      h.countP_covers_eq_zero (Nat.add_lt_add_left hi p)]
  · have hnot : ¬ Token.Covers (p + i) ⟨l, p⟩ := fun hcovers =>
      hi (Nat.lt_of_add_lt_add_left hcovers.2)
    rw [if_neg hi, List.countP_cons_of_neg (by simpa using hnot)]

/-- One token has the byte at `p + i`, or none if it is a blank. -/
theorem countP_covers (h : Scans p text ts) {i : Nat} {c : Char} (hc : text[i]? = some c) :
    ts.countP (Token.Covers (p + i)) = if isBlank c then 0 else 1 := by
  induction h generalizing i with
  | nil => cases hc
  | @blank p b cs ts hb hscan ih =>
    cases i with
    | zero =>
      cases hc
      rw [if_pos hb]
      exact hscan.countP_covers_eq_zero (Nat.lt_succ_self p)
    | succ i => rw [← ih hc, Nat.add_assoc, Nat.add_comm 1]
  | @sign p b l cs ts hb hscan ih =>
    have hwidth := Lexeme.width_of_sign? hb
    rw [countP_covers_cons (hwidth ▸ hscan), hwidth]
    cases i with
    | zero =>
      cases hc
      simp [isBlank_of_sign? hb]
    | succ i => rw [if_neg (by omega), ← ih hc, Nat.add_assoc, Nat.add_comm 1]
  | @word p run cs ts hne hrun hbreak hscan ih =>
    have hwidth : (Lexeme.word (run.map Char.toLower)).width = run.length := List.length_map _
    rw [countP_covers_cons (hwidth ▸ hscan), hwidth]
    by_cases hi : i < run.length
    · rw [List.getElem?_append_left hi] at hc
      have hletter := hrun c (List.mem_of_getElem? hc)
      simp [hi, isBlank_of_isAlphanum hletter]
    · have hle := Nat.le_of_not_lt hi
      rw [List.getElem?_append_right hle] at hc
      rw [if_neg hi, ← ih hc, Nat.add_assoc, Nat.add_sub_cancel' hle]

theorem lt_position_of_cons {q : Nat} (h : Scans q text ts) (hq : p < q) :
    ∀ n ∈ ts.map Token.position ++ [q + text.length], p < n := by
  intro n hn
  rcases List.mem_append.mp hn with hn | hn
  · obtain ⟨t, ht, rfl⟩ := List.mem_map.mp hn
    exact Nat.lt_of_lt_of_le hq (h.le_position t ht)
  · rw [List.mem_singleton.mp hn]
    omega

theorem pairwise_position (h : Scans p text ts) :
    (ts.map Token.position ++ [p + text.length]).Pairwise (· < ·) := by
  induction h with
  | nil => simp
  | blank _ _ ih => rwa [add_length_cons] at ih
  | @sign p c l cs ts _ hscan ih =>
    have hfirst := hscan.lt_position_of_cons (Nat.lt_succ_self p)
    rw [add_length_cons] at ih hfirst
    exact List.pairwise_cons.mpr ⟨hfirst, ih⟩
  | @word p run cs ts hne _ _ hscan ih =>
    have hpos := List.length_pos_iff.mpr hne
    have hfirst := hscan.lt_position_of_cons (Nat.lt_add_of_pos_right hpos)
    rw [Nat.add_assoc, ← List.length_append] at ih hfirst
    exact List.pairwise_cons.mpr ⟨hfirst, ih⟩

end Scans

namespace Descent

variable {text : String}

/-- The byte at `i` is a letter or digit. -/
def LetterAt (text : String) (i : Nat) : Prop :=
  ∃ c, byteAt? text i = some c ∧ c.isAlphanum = true

/-- From `p` on the bytes of the text are a longest run of letters and digits, and `letters` are
the same in small letters. -/
structure WordAt (text : String) (p : Nat) (letters : List Char) : Prop where
  ne_nil : letters ≠ []
  lower : ∀ i < letters.length, (byteAt? text (p + i)).map Char.toLower = letters[i]?
  inside : ∀ i < letters.length, LetterAt text (p + i)
  behind : ¬ LetterAt text (p + letters.length)
  before : ∀ i, i + 1 = p → ¬ LetterAt text i

theorem byteAt?_eq_getElem? (h : ∀ c ∈ text.toList, isAdmitted c = true) (i : Nat) :
    byteAt? text i = text.toList[i]? := by
  by_cases hi : i < text.toList.length
  · have hsplit : text.toList =
        text.toList.take i ++ text.toList[i] :: text.toList.drop (i + 1) := by simp
    have hlength : byteLength (text.toList.take i) = i := by
      rw [byteLength_of_admitted fun c hc => h c (List.mem_of_mem_take hc), List.length_take]
      omega
    have hbyte := byteAt?_of_admitted hsplit (h _ (List.getElem_mem hi))
    rw [hlength] at hbyte
    rw [hbyte, List.getElem?_eq_getElem hi]
  · have hbytes : (text.toList.flatMap String.utf8EncodeChar).length ≤ i := by
      rw [length_flatMap_utf8EncodeChar, byteLength_of_admitted h]
      exact Nat.le_of_not_lt hi
    rw [byteAt?, ← Array.getElem?_toList, toList_data_toByteArray, List.getElem?_eq_none hbytes,
      List.getElem?_eq_none (Nat.le_of_not_lt hi)]
    rfl

theorem wordAt_of_standsAt {p : Nat} {letters : List Char}
    (hadmitted : ∀ c ∈ text.toList, isAdmitted c = true)
    (h : StandsAt text.toList p (.word letters)) : WordAt text p letters := by
  obtain ⟨before, part, after, htext, rfl, ⟨hne, hpart, rfl⟩, hbefore, hafter⟩ := h
  have hlength : byteLength before = before.length := byteLength_of_admitted fun c hc =>
    hadmitted c (htext ▸ List.mem_append_left after (List.mem_append_left part hc))
  have hbyte : ∀ i, byteAt? text i = (before ++ (part ++ after))[i]? := fun i => by
    rw [byteAt?_eq_getElem? hadmitted, htext, List.append_assoc]
  have hword : ∀ i < (part.map Char.toLower).length,
      byteAt? text (byteLength before + i) = part[i]? := fun i hi => by
    rw [List.length_map] at hi
    rw [hbyte, hlength, List.getElem?_append_right (Nat.le_add_right ..), Nat.add_sub_cancel_left,
      List.getElem?_append_left hi]
  refine ⟨by simpa using hne, fun i hi => ?_, fun i hi => ?_, ?_, ?_⟩
  · rw [hword i hi, List.getElem?_map]
  · have hi' : i < part.length := by rwa [List.length_map] at hi
    refine ⟨part[i], ?_, hpart _ (List.getElem_mem hi')⟩
    rw [hword i hi, List.getElem?_eq_getElem hi']
  · rintro ⟨c, hc, hletter⟩
    have hhead : after.head? = some c := by
      rw [hbyte, hlength, List.length_map, ← List.append_assoc, ← List.length_append,
        List.getElem?_append_right (Nat.le_refl _), Nat.sub_self] at hc
      rwa [List.head?_eq_getElem?]
    exact absurd hletter (by simp [hafter.wordBreak hne hpart c hhead])
  · rintro i hi ⟨c, hc, hletter⟩
    obtain ⟨d, rest, rfl⟩ := List.exists_cons_of_ne_nil hne
    have hlast : before.getLast? = some c := by
      rw [hbyte, List.getElem?_append_left (by omega)] at hc
      rwa [List.getLast?_eq_getElem?, ← hlength, ← hi, Nat.add_sub_cancel]
    have hd := hpart d List.mem_cons_self
    exact absurd hd (by simp [hbefore c hlast d rfl hletter])

theorem sign?_of_standsAt {p : Nat} {l : Lexeme} (h : StandsAt text.toList p l)
    (hl : ∀ letters, l ≠ .word letters) : (byteAt? text p).bind Lexeme.sign? = some l := by
  obtain ⟨before, part, after, htext, rfl, hpart, -, -⟩ := h
  have hsplit : text.toList = before ++ (part ++ after) := by rw [htext, List.append_assoc]
  cases l with
  | word letters => exact absurd rfl (hl letters)
  | _ =>
    cases hpart
    rw [byteAt?_of_admitted hsplit rfl]
    rfl

/-- The tokens of a text of the language, and its end, are cut from its bytes: the positions grow
up to the end, what a token is told by stands at its position, and a byte belongs to one token, or
to none if it is a blank. -/
theorem marksFrom_partition {text : String} (h : ∀ c ∈ text.toList, InLanguage c) {passes : Nat}
    (hpasses : text.utf8ByteSize < passes) :
    ∃ ts, tokens 0 text.toList = ts ∧
      marksFrom text passes 0 [] = pure (ts.map Token.mark ++ [(none, text.utf8ByteSize)]) ∧
      (ts.map Token.position ++ [text.utf8ByteSize]).Pairwise (· < ·) ∧
      (∀ p letters, ⟨.word letters, p⟩ ∈ ts → WordAt text p letters) ∧
      (∀ p l, ⟨l, p⟩ ∈ ts → (∀ letters, l ≠ .word letters) →
        (byteAt? text p).bind Lexeme.sign? = some l) ∧
      ∀ i < text.utf8ByteSize, ∃ c, byteAt? text i = some c ∧
        ts.countP (Token.Covers i) = if isBlank c then 0 else 1 := by
  have hadmitted : ∀ c ∈ text.toList, isAdmitted c = true := fun c hc =>
    isAdmitted_iff_inLanguage.mpr (h c hc)
  have hscan := scans_tokens hadmitted 0
  have hsize : text.utf8ByteSize = text.toList.length := by
    rw [utf8ByteSize_eq, byteLength_of_admitted hadmitted]
  refine ⟨_, rfl, ?_, ?_, fun p letters ht => ?_, fun p l ht hl => ?_, fun i hi => ?_⟩
  · rw [marksFrom_eq_marks hadmitted hpasses, marks, ← utf8ByteSize_eq]
  · have hpositions := hscan.pairwise_position
    rwa [Nat.zero_add, ← hsize] at hpositions
  · exact wordAt_of_standsAt hadmitted (hscan.standsAt ht)
  · exact sign?_of_standsAt (hscan.standsAt ht) hl
  · rw [hsize] at hi
    have hcovers := hscan.countP_covers (List.getElem?_eq_getElem hi)
    rw [Nat.zero_add] at hcovers
    refine ⟨text.toList[i], ?_, hcovers⟩
    rw [byteAt?_eq_getElem? hadmitted, List.getElem?_eq_getElem hi]

/-- Capital letters, two blanks, and words with a sign close by. -/
theorem marksFrom_partition_of_capitals :
    (∀ c ∈ "WD  \x7bMon-fri\x7d".toList, InLanguage c) ∧
      "WD  \x7bMon-fri\x7d".utf8ByteSize < 14 ∧
      marksFrom "WD  \x7bMon-fri\x7d" 14 0 [] =
        pure [(some (.word ['w', 'd']), 0), (some .opening, 4), (some (.word ['m', 'o', 'n']), 5),
          (some .dash, 8), (some (.word ['f', 'r', 'i']), 9), (some .closing, 12), (none, 13)] ∧
      WordAt "WD  \x7bMon-fri\x7d" 5 ['m', 'o', 'n'] := by
  have hlanguage : ∀ c ∈ "WD  \x7bMon-fri\x7d".toList, InLanguage c := fun c hc =>
    isAdmitted_iff_inLanguage.mp ((intruder?_eq_none_iff (p := 0)).mp rfl c hc)
  have hpasses : "WD  \x7bMon-fri\x7d".utf8ByteSize < 14 := by decide
  obtain ⟨ts, rfl, hmarks, -, hwords, -⟩ := marksFrom_partition hlanguage hpasses
  exact ⟨hlanguage, hpasses, hmarks, hwords 5 _ (by decide)⟩

end Descent

end Recurrence
