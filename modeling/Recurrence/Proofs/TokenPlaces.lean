import Recurrence.Proofs.TokenPositions

/-! Where a text shows its tokens. Each stands at its position, a word as a longest run of letters
and digits, and only blanks stand between one token and the next. -/

namespace Recurrence

/-- The text goes on with `rest` behind its first `p` bytes. -/
def RestAt (text : List Char) (p : Nat) (rest : List Char) : Prop :=
  ∃ before, text = before ++ rest ∧ byteLength before = p

theorem RestAt.end (text : List Char) : RestAt text (byteLength text) [] :=
  ⟨text, (List.append_nil text).symm, rfl⟩

theorem utf8ByteSize_ofList (text : List Char) :
    (String.ofList text).utf8ByteSize = byteLength text := by
  induction text with
  | nil => rfl
  | cons c cs ih => simp [byteLength, ← ih]

/-- Where the text is parted no character is. -/
theorem RestAt.isValid {text : String} {p : Nat} {rest : List Char}
    (h : RestAt text.toList p rest) : String.Pos.Raw.IsValid text ⟨p⟩ := by
  obtain ⟨before, htext, rfl⟩ := h
  refine String.Pos.Raw.isValid_iff_exists_append.mpr
    ⟨String.ofList before, String.ofList rest, ?_, ?_⟩
  · rw [← String.ofList_append, ← htext, String.ofList_toList]
  · rw [← utf8ByteSize_ofList]
    rfl

/-- The lexeme is written as `part`, where capital letters count as small ones. -/
def Lexeme.WrittenAs (part : List Char) : Lexeme → Prop
  | word letters =>
    part ≠ [] ∧ (∀ c ∈ part, c.isAlphanum = true) ∧ part.map Char.toLower = letters
  | l => part = l.text.toList

/-- The lexeme is written at `p`, and a word neither begins before nor goes on behind. -/
def StandsAt (text : List Char) (p : Nat) (l : Lexeme) : Prop :=
  ∃ before part after, text = before ++ part ++ after ∧ byteLength before = p ∧
    l.WrittenAs part ∧ Seam before part ∧ Seam part after

theorem Lexeme.WrittenAs.ne_nil {l : Lexeme} {part : List Char} (h : l.WrittenAs part) :
    part ≠ [] := by
  rintro rfl
  cases l with
  | word letters => exact h.1 rfl
  | _ => cases h

theorem byteLength_pos {text : List Char} (h : text ≠ []) : 0 < byteLength text := by
  obtain ⟨c, cs, rfl⟩ := List.exists_cons_of_ne_nil h
  exact Nat.add_pos_left c.utf8Size_pos _

theorem StandsAt.restAt {text : List Char} {p : Nat} {l : Lexeme} (h : StandsAt text p l) :
    ∃ rest, RestAt text p rest := by
  obtain ⟨before, part, after, rfl, hp, -⟩ := h
  exact ⟨part ++ after, before, List.append_assoc .., hp⟩

theorem StandsAt.lt_byteLength {text : List Char} {p : Nat} {l : Lexeme} (h : StandsAt text p l) :
    p < byteLength text := by
  obtain ⟨before, part, after, rfl, rfl, hpart, -⟩ := h
  have hpos := byteLength_pos hpart.ne_nil
  rw [byteLength_append, byteLength_append]
  omega

theorem Seam.blanks {a blanks b c : List Char} (h : Seam a (blanks ++ b ++ c))
    (hblank : ∀ d ∈ blanks, isBlank d = true) (hb : b ≠ []) : Seam (a ++ blanks) b := by
  rcases List.eq_nil_or_concat blanks with rfl | ⟨blanks, d, rfl⟩
  · obtain ⟨e, b, rfl⟩ := List.exists_cons_of_ne_nil hb
    simpa [Seam] using h
  · have hd := isAlphanum_of_isBlank (hblank d (by simp))
    simp [Seam, hd]

namespace Scans

theorem uncons {p : Nat} {text : List Char} {t : Token} {ts : List Token}
    (h : Scans p text (t :: ts)) :
    ∃ blanks part after, text = blanks ++ part ++ after ∧ (∀ c ∈ blanks, isBlank c = true) ∧
      t.position = p + blanks.length ∧ t.lexeme.WrittenAs part ∧ Seam part after ∧
      Scans (t.position + part.length) after ts := by
  generalize hall : t :: ts = all at h
  induction h with
  | nil => cases hall
  | @blank p c cs _ hc _ ih =>
    obtain ⟨blanks, part, after, rfl, hblanks, hpos, hrest⟩ := ih hall
    refine ⟨c :: blanks, part, after, rfl, List.forall_mem_cons.mpr ⟨hc, hblanks⟩, ?_, hrest⟩
    rw [hpos, add_length_cons]
  | @sign p c l cs _ hc h _ =>
    cases hall
    refine ⟨[], [c], cs, rfl, by simp, rfl, ?_, Seam.cons (.nil cs) (isAlphanum_of_sign? hc), h⟩
    rcases sign?_eq_some hc with rfl | rfl | rfl | rfl <;>
      (cases hc; simp [Lexeme.WrittenAs, Lexeme.text])
  | @word p run cs _ hne hrun hbreak h _ =>
    cases hall
    exact ⟨[], run, cs, rfl, by simp, rfl, ⟨hne, hrun, rfl⟩, .of_wordBreak hbreak run, h⟩

theorem split_at {p : Nat} {text : List Char} {ts us : List Token} {t : Token}
    (h : Scans p text (ts ++ t :: us)) :
    ∃ before part after, text = before ++ part ++ after ∧ t.position = p + before.length ∧
      t.lexeme.WrittenAs part ∧ Seam before part ∧ Seam part after ∧
      Scans (t.position + part.length) after us := by
  obtain ⟨a, b, rfl, -, hb, hseam⟩ := h.cut
  obtain ⟨blanks, part, after, rfl, hblanks, hpos, hpart, hafter, hrest⟩ := hb.uncons
  refine ⟨a ++ blanks, part, after, by simp, ?_, hpart, hseam.blanks hblanks hpart.ne_nil, hafter,
    hrest⟩
  rw [hpos, List.length_append, Nat.add_assoc]

variable {text : List Char} {ts us : List Token}

theorem length_le {p : Nat} (h : Scans p text ts) : ts.length ≤ text.length := by
  induction h with
  | nil => exact Nat.le_refl 0
  | blank _ _ ih => exact Nat.le_succ_of_le ih
  | sign _ _ ih => exact Nat.succ_le_succ ih
  | word hne _ _ _ ih =>
    have hpos := List.length_pos_iff.mpr hne
    rw [List.length_cons, List.length_append]
    omega

theorem byteLength_left {before rest : List Char} (h : Scans 0 (before ++ rest) ts) :
    byteLength before = before.length :=
  byteLength_of_admitted fun c hc => h.admitted c (List.mem_append_left rest hc)

theorem standsAt {t : Token} (h : Scans 0 text ts) (ht : t ∈ ts) :
    StandsAt text t.position t.lexeme := by
  obtain ⟨before, after, rfl⟩ := List.append_of_mem ht
  obtain ⟨a, part, b, rfl, hpos, hpart, ha, hb, -⟩ := h.split_at
  rw [List.append_assoc] at h
  refine ⟨a, part, b, rfl, ?_, hpart, ha, hb⟩
  rw [hpos, h.byteLength_left, Nat.zero_add]

theorem restAt_of_empty {p q : Nat}
    (h : Scans 0 text (ts ++ ⟨.opening, p⟩ :: ⟨.closing, q⟩ :: us)) :
    ∃ blanks rest, (∀ c ∈ blanks, isBlank c = true) ∧
      RestAt text p ('{' :: (blanks ++ '}' :: rest)) := by
  obtain ⟨before, part, after, rfl, hpos, hpart, -, -, hafter⟩ := h.split_at
  obtain ⟨blanks, part', rest, rfl, hblanks, -, hpart', -, -⟩ := hafter.uncons
  obtain rfl : part = ['{'] := by simpa [Lexeme.WrittenAs, Lexeme.text] using hpart
  obtain rfl : part' = ['}'] := by simpa [Lexeme.WrittenAs, Lexeme.text] using hpart'
  rw [List.append_assoc] at h
  refine ⟨blanks, rest, hblanks, before, ?_, ?_⟩
  · simp
  · rw [h.byteLength_left]
    simpa using hpos.symm

end Scans

/-- The text up to the first character that is not admitted. -/
theorem exists_append_of_intruder? {p q : Nat} {c : Char} {text : List Char}
    (h : intruder? p text = some (c, q)) :
    ∃ before after, text = before ++ c :: after ∧ p + byteLength before = q ∧
      isAdmitted c = false ∧ ∀ d ∈ before, isAdmitted d = true := by
  induction text generalizing p with
  | nil => cases h
  | cons d ds ih =>
    rw [intruder?] at h
    by_cases hd : isAdmitted d = true
    · rw [if_pos hd] at h
      obtain ⟨before, after, rfl, rfl, hc, hbefore⟩ := ih h
      refine ⟨d :: before, after, rfl, ?_, hc, List.forall_mem_cons.mpr ⟨hd, hbefore⟩⟩
      rw [byteLength, Nat.add_assoc]
    · rw [if_neg hd] at h
      cases h
      exact ⟨[], ds, rfl, rfl, Bool.eq_false_iff.mpr hd, by simp⟩

end Recurrence
