import Mathlib.Data.String.Basic
import Recurrence.Proofs.CursorReader
import Recurrence.Proofs.TokenPlaces

/-! The marks that are cut from the bytes of a text are its tokens and its end, or the first
character that is not admitted is found. No byte of a longer character is taken for a sign, a letter
or a blank, so the text is only cut where characters end. -/

namespace Recurrence

theorem toList_data_toByteArray (text : String) :
    text.toByteArray.data.toList = text.toList.flatMap String.utf8EncodeChar := by
  rw [← String.utf8Encode_toList, List.utf8Encode, List.data_toByteArray]

theorem length_flatMap_utf8EncodeChar (text : List Char) :
    (text.flatMap String.utf8EncodeChar).length = byteLength text := by
  induction text with
  | nil => rfl
  | cons c cs ih =>
    rw [List.flatMap_cons, List.length_append, String.length_utf8EncodeChar, ih, byteLength]

theorem utf8ByteSize_eq (text : String) : text.utf8ByteSize = byteLength text.toList := by
  rw [← utf8ByteSize_ofList, String.ofList_toList]

theorem utf8Len_eq (text : List Char) : String.utf8Len text = byteLength text := by
  rw [← utf8ByteSize_ofList, String.utf8ByteSize_ofList]

theorem isAdmitted_of_large {c : Char} (h : 128 ≤ c.val.toNat) : isAdmitted c = false := by
  cases hc : isAdmitted c with
  | false => rfl
  | true =>
    have hsize := utf8Size_of_isAdmitted hc
    rw [Char.utf8Size_eq_one_iff, UInt32.le_iff_toNat_le] at hsize
    have h127 : (127 : UInt32).toNat = 127 := rfl
    omega

theorem toNat_ofUInt8_ofNat (n : Nat) :
    (Char.ofUInt8 (UInt8.ofNat n)).val.toNat = n % 256 :=
  (UInt8.toNat_toUInt32 _).trans UInt8.toNat_ofNat'

theorem classes_of_not_admitted {c : Char} (h : isAdmitted c = false) :
    isBlank c = false ∧ c.isAlphanum = false ∧ Lexeme.sign? c = none := by
  simpa [isAdmitted, and_assoc] using h

/-- The first byte of a character is the character itself, or none that is admitted. -/
theorem exists_utf8EncodeChar_eq_cons (c : Char) :
    ∃ b bs, String.utf8EncodeChar c = b :: bs ∧
      (Char.ofUInt8 b = c ∨ isAdmitted c = false ∧ isAdmitted (Char.ofUInt8 b) = false) := by
  have hlarge : ∀ n, 128 ≤ n → n < 256 → isAdmitted (Char.ofUInt8 (UInt8.ofNat n)) = false := by
    intro n hle hlt
    apply isAdmitted_of_large
    rw [toNat_ofUInt8_ofNat]
    omega
  unfold String.utf8EncodeChar
  simp only
  split
  · refine ⟨_, _, rfl, .inl (Char.ext (UInt32.toNat_inj.mp ?_))⟩
    rw [toNat_ofUInt8_ofNat]
    omega
  · have hc : isAdmitted c = false := isAdmitted_of_large (by omega)
    split
    · exact ⟨_, _, rfl, .inr ⟨hc, hlarge _ (by omega) (by omega)⟩⟩
    · split
      · exact ⟨_, _, rfl, .inr ⟨hc, hlarge _ (by omega) (by omega)⟩⟩
      · exact ⟨_, _, rfl, .inr ⟨hc, hlarge _ (by omega) (by omega)⟩⟩

namespace Descent

variable {text : String} {before : List Char}

theorem byteAt?_eq {after : List Char} (h : text.toList = before ++ after) :
    byteAt? text (byteLength before) =
      (after.flatMap String.utf8EncodeChar).head?.map Char.ofUInt8 := by
  rw [byteAt?, ← Array.getElem?_toList, toList_data_toByteArray, h, List.flatMap_append,
    ← length_flatMap_utf8EncodeChar, List.getElem?_append_right (Nat.le_refl _), Nat.sub_self,
    List.head?_eq_getElem?]

theorem byteAt?_end (h : text.toList = before) : byteAt? text (byteLength before) = none :=
  byteAt?_eq (by rw [h, List.append_nil] : text.toList = before ++ [])

theorem exists_byteAt?_eq {c : Char} {cs : List Char} (h : text.toList = before ++ c :: cs) :
    ∃ d, byteAt? text (byteLength before) = some d ∧
      (d = c ∨ isAdmitted c = false ∧ isAdmitted d = false) := by
  obtain ⟨b, bs, hb, hd⟩ := exists_utf8EncodeChar_eq_cons c
  refine ⟨Char.ofUInt8 b, ?_, hd⟩
  rw [byteAt?_eq h, List.flatMap_cons, hb]
  rfl

theorem byteAt?_of_admitted {c : Char} {cs : List Char} (h : text.toList = before ++ c :: cs)
    (hc : isAdmitted c = true) : byteAt? text (byteLength before) = some c := by
  obtain ⟨d, hd, rfl | ⟨hnot, -⟩⟩ := exists_byteAt?_eq h
  · exact hd
  · rw [hc] at hnot
    cases hnot

theorem slice_eq {part after : List Char} (h : text.toList = before ++ part ++ after) :
    slice text (byteLength before) (byteLength before + byteLength part) =
      pure (String.ofList part) := by
  have hstart : RestAt text.toList (byteLength before) (part ++ after) :=
    ⟨before, by rw [h, List.append_assoc], rfl⟩
  have hstop : RestAt text.toList (byteLength before + byteLength part) after :=
    ⟨before ++ part, h, byteLength_append before part⟩
  have hextract := String.extract_of_valid before part after
  rw [utf8Len_eq, utf8Len_eq, ← h, String.ofList_toList] at hextract
  rw [slice, if_pos, hextract]
  exact ⟨String.Pos.Raw.isValid_eq_true_iff.mpr hstart.isValid,
    String.Pos.Raw.isValid_eq_true_iff.mpr hstop.isValid, Nat.le_add_right _ _⟩

theorem wordEnd_eq {run rest : List Char} (h : text.toList = before ++ run ++ rest)
    (hrun : ∀ c ∈ run, c.isAlphanum = true) (hbreak : WordBreak rest) {passes : Nat}
    (hpasses : run.length < passes) :
    wordEnd text passes (byteLength before) = pure (byteLength before + byteLength run) := by
  induction run generalizing before passes with
  | nil =>
    rw [List.append_nil] at h
    obtain ⟨passes, rfl⟩ := Nat.exists_eq_add_one_of_ne_zero (Nat.ne_zero_of_lt hpasses)
    rw [wordEnd]
    cases rest with
    | nil =>
      rw [byteAt?_end (by simpa using h)]
      rfl
    | cons c cs =>
      obtain ⟨d, hd, hcases⟩ := exists_byteAt?_eq h
      have hletter : d.isAlphanum = false := by
        rcases hcases with rfl | ⟨-, hnot⟩
        · exact hbreak d rfl
        · exact (classes_of_not_admitted hnot).2.1
      rw [hd]
      simp [hletter, byteLength]
  | cons c run ih =>
    obtain ⟨passes, rfl⟩ := Nat.exists_eq_add_one_of_ne_zero (Nat.ne_zero_of_lt hpasses)
    have hc := hrun c (by simp)
    have hadmitted := isAdmitted_of_isAlphanum hc
    have hsize := utf8Size_of_isAdmitted hadmitted
    have hfirst : text.toList = before ++ c :: (run ++ rest) := by simpa using h
    have hnext : text.toList = before ++ [c] ++ run ++ rest := by simpa using h
    have hend := ih hnext (fun d hd => hrun d (by simp [hd])) (Nat.lt_of_succ_lt_succ hpasses)
    rw [byteLength_concat, hsize] at hend
    rw [wordEnd, byteAt?_of_admitted hfirst hadmitted]
    simp only [hc, if_true]
    rw [hend, byteLength, hsize, Nat.add_assoc]

section Cuts

variable (found : List Mark) {passes : Nat}

theorem marksFrom_end (h : text.toList = before) :
    marksFrom text (passes + 1) (byteLength before) found =
      pure (found ++ [(none, text.utf8ByteSize)]) := by
  rw [marksFrom, byteAt?_end h]

theorem marksFrom_blank {c : Char} {cs : List Char} (h : text.toList = before ++ c :: cs)
    (hc : isBlank c = true) :
    marksFrom text (passes + 1) (byteLength before) found =
      marksFrom text passes (byteLength before + 1) found := by
  rw [marksFrom, byteAt?_of_admitted h (isAdmitted_of_isBlank hc)]
  simp only [hc, if_true]

theorem marksFrom_sign {c : Char} {l : Lexeme} {cs : List Char}
    (h : text.toList = before ++ c :: cs) (hc : Lexeme.sign? c = some l) :
    marksFrom text (passes + 1) (byteLength before) found =
      marksFrom text passes (byteLength before + 1) (found ++ [(some l, byteLength before)]) := by
  rw [marksFrom, byteAt?_of_admitted h (isAdmitted_of_sign? hc)]
  simp [isBlank_of_sign? hc, hc]

theorem marksFrom_word {run rest : List Char} (h : text.toList = before ++ run ++ rest)
    (hne : run ≠ []) (hrun : ∀ c ∈ run, c.isAlphanum = true) (hbreak : WordBreak rest)
    (hpasses : run.length < passes + 1) :
    marksFrom text (passes + 1) (byteLength before) found =
      marksFrom text passes (byteLength before + byteLength run)
        (found ++ [(some (.word (run.map Char.toLower)), byteLength before)]) := by
  obtain ⟨c, cs, rfl⟩ := List.exists_cons_of_ne_nil hne
  have hc := hrun c (by simp)
  have hfirst : text.toList = before ++ c :: (cs ++ rest) := by simpa using h
  have hbyte := byteAt?_of_admitted hfirst (isAdmitted_of_isAlphanum hc)
  have hsign : Lexeme.sign? c = none := by
    cases hsign : Lexeme.sign? c with
    | none => rfl
    | some l => rw [isAlphanum_of_sign? hsign] at hc; cases hc
  rw [marksFrom, hbyte]
  simp [isBlank_of_isAlphanum hc, hsign, hc, wordEnd_eq h hrun hbreak hpasses, slice_eq h]

theorem marksFrom_intruder {c : Char} {cs : List Char} (h : text.toList = before ++ c :: cs)
    (hc : isAdmitted c = false) :
    marksFrom text (passes + 1) (byteLength before) found =
      throw (.fault (.intruder c (byteLength before))) := by
  obtain ⟨d, hbyte, hcases⟩ := exists_byteAt?_eq h
  have hd : isAdmitted d = false := by
    rcases hcases with rfl | ⟨-, hd⟩
    · exact hc
    · exact hd
  obtain ⟨hblank, hletter, hsign⟩ := classes_of_not_admitted hd
  have hsize : text.utf8ByteSize = byteLength before + byteLength (c :: cs) := by
    rw [utf8ByteSize_eq, h, byteLength_append]
  have hwhole : text.toList = before ++ c :: cs ++ [] := by rw [h, List.append_nil]
  have hslice := slice_eq hwhole
  rw [← hsize] at hslice
  rw [marksFrom, hbyte]
  simp [hblank, hletter, hsign, hslice]

end Cuts

/-- What is cut from a part of a text that no word runs out of: no pass is made without a byte. -/
theorem marksFrom_of_scans {p : Nat} {part rest : List Char} {ts : List Token}
    (hscan : Scans p part ts) (h : text.toList = before ++ part ++ rest)
    (hp : byteLength before = p) (hbreak : WordBreak rest) (found : List Mark) {passes : Nat}
    (hpasses : part.length < passes) :
    ∃ left, passes ≤ left + part.length ∧ marksFrom text passes p found =
      marksFrom text left (p + byteLength part) (found ++ ts.map Token.mark) := by
  induction hscan generalizing before found passes with
  | nil => exact ⟨passes, Nat.le_refl _, by simp [byteLength]⟩
  | @blank p c cs ts hc _ ih =>
    subst hp
    obtain ⟨passes, rfl⟩ := Nat.exists_eq_add_one_of_ne_zero (Nat.ne_zero_of_lt hpasses)
    have hfirst : text.toList = before ++ c :: (cs ++ rest) := by simpa using h
    have hnext : text.toList = before ++ [c] ++ cs ++ rest := by simpa using h
    have hsize := utf8Size_of_isAdmitted (isAdmitted_of_isBlank hc)
    obtain ⟨left, hleft, heq⟩ := ih hnext (by rw [byteLength_concat, hsize]) found
      (Nat.lt_of_succ_lt_succ hpasses)
    refine ⟨left, Nat.succ_le_succ hleft, ?_⟩
    rw [marksFrom_blank found hfirst hc, heq, byteLength, hsize, Nat.add_assoc]
  | @sign p c l cs ts hc _ ih =>
    subst hp
    obtain ⟨passes, rfl⟩ := Nat.exists_eq_add_one_of_ne_zero (Nat.ne_zero_of_lt hpasses)
    have hfirst : text.toList = before ++ c :: (cs ++ rest) := by simpa using h
    have hnext : text.toList = before ++ [c] ++ cs ++ rest := by simpa using h
    have hsize := utf8Size_of_isAdmitted (isAdmitted_of_sign? hc)
    obtain ⟨left, hleft, heq⟩ := ih hnext (by rw [byteLength_concat, hsize])
      (found ++ [(some l, byteLength before)]) (Nat.lt_of_succ_lt_succ hpasses)
    refine ⟨left, Nat.succ_le_succ hleft, ?_⟩
    rw [marksFrom_sign found hfirst hc, heq, byteLength, hsize, Nat.add_assoc, List.append_assoc]
    rfl
  | @word p run cs ts hne hrun hbreak' _ ih =>
    subst hp
    obtain ⟨passes, rfl⟩ := Nat.exists_eq_add_one_of_ne_zero (Nat.ne_zero_of_lt hpasses)
    have hfirst : text.toList = before ++ run ++ (cs ++ rest) := by simpa using h
    have hnext : text.toList = before ++ run ++ cs ++ rest := by simpa using h
    have hsize := byteLength_of_admitted fun c hc => isAdmitted_of_isAlphanum (hrun c hc)
    have hbehind : WordBreak (cs ++ rest) := by
      cases cs with
      | nil => exact hbreak
      | cons c cs => exact hbreak'.of_head?_eq rfl
    have hpos := List.length_pos_iff.mpr hne
    rw [List.length_append] at hpasses
    obtain ⟨left, hleft, heq⟩ := ih hnext (by rw [byteLength_append, hsize])
      (found ++ [(some (.word (run.map Char.toLower)), byteLength before)])
      (by omega : cs.length < passes)
    refine ⟨left, by rw [List.length_append]; omega, ?_⟩
    rw [marksFrom_word found hfirst hne hrun hbehind (by omega), hsize, heq, byteLength_append,
      hsize, Nat.add_assoc, List.append_assoc]
    rfl

theorem marksFrom_eq_marks (h : ∀ c ∈ text.toList, isAdmitted c = true) {passes : Nat}
    (hpasses : text.utf8ByteSize < passes) :
    marksFrom text passes 0 [] = pure (marks text.toList) := by
  have hscan := scans_tokens h 0
  have htext : text.toList = [] ++ text.toList ++ [] := by simp
  have hlength : text.toList.length < passes := by
    rwa [← byteLength_of_admitted h, ← utf8ByteSize_eq]
  obtain ⟨left, hleft, heq⟩ := marksFrom_of_scans hscan htext rfl .nil [] hlength
  obtain ⟨left, rfl⟩ := Nat.exists_eq_add_one_of_ne_zero (by omega : left ≠ 0)
  rw [heq, Nat.zero_add, marksFrom_end _ rfl, marks, utf8ByteSize_eq]
  rfl

theorem marksFrom_eq_throw {c : Char} {p : Nat} (h : intruder? 0 text.toList = some (c, p))
    {passes : Nat} (hpasses : text.utf8ByteSize < passes) :
    marksFrom text passes 0 [] = throw (.fault (.intruder c p)) := by
  obtain ⟨before, after, htext, rfl, hc, hbefore⟩ := exists_append_of_intruder? h
  have hscan := scans_tokens hbefore 0
  have hwhole : text.toList = [] ++ before ++ c :: after := htext
  have hbreak : WordBreak (c :: after) := .cons (classes_of_not_admitted hc).2.1 after
  have hlength : before.length < passes := by
    rw [utf8ByteSize_eq, htext, byteLength_append, byteLength_of_admitted hbefore] at hpasses
    omega
  obtain ⟨left, hleft, heq⟩ := marksFrom_of_scans hscan hwhole rfl hbreak [] hlength
  obtain ⟨left, rfl⟩ := Nat.exists_eq_add_one_of_ne_zero (by omega : left ≠ 0)
  rw [heq, Nat.zero_add, marksFrom_intruder _ htext hc]

end Descent

end Recurrence
