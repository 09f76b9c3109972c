import Mathlib
import Recurrence.CommandLine.Command
import Recurrence.Proofs.JoinedByComma
import Recurrence.Proofs.RepeatedCheck

/-! The line that is printed for a period that can be read. It can be given for the expression in
every command, although the unconstrained period is printed as another one: both hold always. -/

namespace Recurrence

theorem not_mem_intercalate {c : Char} {sep : String} {parts : List String} (hsep : c ∉ sep.toList)
    (hparts : ∀ part ∈ parts, c ∉ part.toList) : c ∉ (sep.intercalate parts).toList := by
  rw [String.toList_intercalate]
  induction parts with
  | nil => simp
  | cons part parts ih =>
    have hfirst := hparts part List.mem_cons_self
    have hrest := ih fun other hother => hparts other (List.mem_cons_of_mem _ hother)
    cases parts with
    | nil => simpa using hfirst
    | cons next parts =>
      simp only [List.map_cons, List.intercalate_cons_cons, List.mem_append, not_or] at hrest ⊢
      exact ⟨⟨hfirst, hsep⟩, hrest⟩

theorem newline_not_mem_toString (n : Nat) : '\n' ∉ (toString n).toList := by
  rw [Nat.toString_eq_repr, Nat.toList_repr]
  intro hmem
  exact absurd (isDigit_of_mem_toDigits hmem) (by decide)

theorem Span.newline_not_mem_text (r : Span) : '\n' ∉ r.text.toList := by
  have hdash : '\n' ∉ "-".toList := by decide
  unfold text
  split
  · exact newline_not_mem_toString r.low
  · simp only [String.toList_append, List.mem_append, newline_not_mem_toString, hdash, or_self,
      not_false_eq_true]

theorem Clause.newline_not_mem_text (c : Clause) : '\n' ∉ c.text.toList := by
  have hname : '\n' ∉ c.scale.name.toList := by
    cases c.scale <;> decide
  have hspans : '\n' ∉ (" ".intercalate (c.spans.map Span.text)).toList := by
    apply not_mem_intercalate (by decide)
    simp [Span.newline_not_mem_text]
  have hopening : '\n' ∉ " \x7b".toList := by decide
  have hclosing : '\n' ∉ "\x7d".toList := by decide
  simp only [text, String.toList_append, List.mem_append, hname, hopening, hspans, hclosing,
    or_self, not_false_eq_true]

theorem SubPeriod.newline_not_mem_text (sub : SubPeriod) : '\n' ∉ sub.text.toList := by
  cases sub with
  | always => decide
  | never => decide
  | clauses cs =>
    apply not_mem_intercalate (by decide)
    simp [Clause.newline_not_mem_text]

namespace Period

/-- What is shown for a period. -/
def line (p : Period) : String := if p.isUnconstrained then "always" else p.text

/-- What is read back from the line. -/
def ofLine (p : Period) : Period := if p.isUnconstrained then ⟨[.always]⟩ else p

theorem newline_not_mem_line (p : Period) : '\n' ∉ p.line.toList := by
  unfold line
  split
  · decide
  · apply not_mem_intercalate (by decide)
    simp [SubPeriod.newline_not_mem_text]

theorem parse_line {text : String} {p : Period} (h : parse text = .ok p) :
    parse p.line = .ok p.ofLine := by
  unfold line ofLine
  split
  · rfl
  · exact parse_text_of_parse h

theorem line_ofLine (p : Period) : p.ofLine.line = p.line := by
  by_cases h : p.isUnconstrained = true
  · have hline : p.line = "always" := if_pos h
    rw [ofLine, if_pos h, hline]
    decide
  · rw [ofLine, if_neg h]

theorem holds_ofLine (p : Period) (t : DateTime) : p.ofLine.holds t = p.holds t := by
  by_cases h : p.isUnconstrained = true
  · rw [ofLine, if_pos h, holds, holds, h]
    rfl
  · rw [ofLine, if_neg h]

theorem head?_ne_dash_of_parse {text : String} {p : Period} (h : parse text = .ok p) :
    text.toList.head? ≠ some '-' := by
  intro hhead
  obtain ⟨cs, htext⟩ := List.head?_eq_some_iff.mp hhead
  have hchars : ofChars ('-' :: cs) = .ok p := htext ▸ h
  cases hi : intruder? 0 ('-' :: cs) with
  | some found =>
    simp only [ofChars, hi] at hchars
    cases hchars
  | none =>
    simp only [ofChars, hi] at hchars
    cases hchars

end Period

section Alike

variable {expression expression' : String} {p p' : Period}

/-- Checks of two periods that hold alike fail alike, or find the same. -/
theorem checkIn_alike (h : Period.parse expression = .ok p)
    (h' : Period.parse expression' = .ok p') (hholds : ∀ t, p'.holds t = p.holds t)
    (zones : ZoneTable) (datetime timezone : String) :
    (∃ fault, checkIn zones expression datetime timezone = .error fault ∧
        checkIn zones expression' datetime timezone = .error fault) ∨
      ∃ c c', checkIn zones expression datetime timezone = .ok c ∧
        checkIn zones expression' datetime timezone = .ok c' ∧ c'.inside = c.inside := by
  cases htimestamp : Timestamp.parse datetime with
  | error fault =>
    exact .inl ⟨_, checkIn_of_timestampFault h htimestamp, checkIn_of_timestampFault h' htimestamp⟩
  | ok t =>
    cases hzone : zones timezone with
    | none =>
      exact .inl ⟨_, checkIn_of_no_zone h htimestamp hzone, checkIn_of_no_zone h' htimestamp hzone⟩
    | some offsetAt =>
      exact .inr ⟨_, _, checkIn_of_zone h htimestamp hzone, checkIn_of_zone h' htimestamp hzone,
        hholds _⟩

namespace Outcome

theorem ofParse_of_parse (h : Period.parse expression = .ok p) :
    ofParse expression false = lines 0 p.line := by
  rw [ofParse, h]
  rfl

theorem exists_parse_of_status (h : (ofParse expression false).status = 0) :
    ∃ p, Period.parse expression = .ok p := by
  cases hparse : Period.parse expression with
  | ok p => exact ⟨p, rfl⟩
  | error fault =>
    rw [ofParse, hparse] at h
    cases h

theorem ofCheck_alike (h : Period.parse expression = .ok p)
    (h' : Period.parse expression' = .ok p') (hholds : ∀ t, p'.holds t = p.holds t)
    (zones : ZoneTable) (datetime timezone : String) (json : Bool) :
    (ofCheck zones expression' datetime timezone json).status =
        (ofCheck zones expression datetime timezone json).status ∧
      (json = false → (ofCheck zones expression' datetime timezone json).output =
        (ofCheck zones expression datetime timezone json).output) := by
  unfold ofCheck
  rcases checkIn_alike h h' hholds zones datetime timezone with
    ⟨fault, hcheck, hcheck'⟩ | ⟨c, c', hcheck, hcheck', hinside⟩
  · rw [hcheck, hcheck']
    exact ⟨rfl, fun _ => rfl⟩
  · rw [hcheck, hcheck']
    constructor
    · simp only [lines, hinside]
    · rintro rfl
      simp only [lines, hinside, Bool.false_eq_true, if_false]

end Outcome

end Alike

namespace Outcome

theorem ofParse_json_of_blank {expression : String} (h : Blank expression.toList) :
    ofParse expression true = lines 0
      ((Json.object [("canonical", .text ""), ("sub_periods", .list [])]).pretty 0) := by
  have hparse : Period.parse expression = .ok .unconstrained := Period.ofChars_of_blank h
  rw [ofParse, hparse]
  rfl

/-- An expression that `parse` accepts is shown in one line, which does not begin like an option,
and the line can be given for the expression: `parse` shows it again, and `check` ends alike, at any
instant and in any zone of whatever zones there are, and prints alike unless JSON is asked for. The
unconstrained period is shown as `always`, although its own text and structure are empty. -/
theorem exists_line_for_expression {zones : ZoneTable} {now : DateTime} {expression : String}
    (hstatus : (ofCommand zones now (.parse expression false)).status = 0) :
    ∃ line : String, '\n' ∉ line.toList ∧ line.toList.head? ≠ some '-' ∧
      ofCommand zones now (.parse expression false) = ⟨0, line ++ "\n", ""⟩ ∧
      (∀ zones' now', ofCommand zones' now' (.parse line false) = ⟨0, line ++ "\n", ""⟩) ∧
      (∀ zones' now' datetime? zone json,
        let checked (text : String) := ofCommand zones' now' (.check text datetime? zone json)
        (checked line).status = (checked expression).status ∧
          (json = false → (checked line).output = (checked expression).output)) ∧
      (Blank expression.toList → line = "always" ∧
        Period.parse expression = .ok ⟨[]⟩ ∧
        ofCommand zones now (.parse expression true) = lines 0
          ((Json.object [("canonical", .text ""), ("sub_periods", .list [])]).pretty 0)) := by
  obtain ⟨p, hparse⟩ := exists_parse_of_status hstatus
  have hline := Period.parse_line hparse
  have hagain : ofParse p.line false = lines 0 p.line := by
    rw [ofParse_of_parse hline, Period.line_ofLine]
  refine ⟨p.line, p.newline_not_mem_line, Period.head?_ne_dash_of_parse hline,
    ofParse_of_parse hparse, fun _ _ => hagain, ?_, ?_⟩
  · intro zones' now' datetime? zone json
    exact ofCheck_alike hparse hline p.holds_ofLine zones' _ zone json
  · intro hblank
    have hnone : Period.parse expression = .ok .unconstrained := Period.ofChars_of_blank hblank
    obtain rfl : p = .unconstrained := Except.ok.inj (hparse.symm.trans hnone)
    exact ⟨rfl, hnone, ofParse_json_of_blank hblank⟩

/-- A blank expression, and the check of it where no instant is given. -/
theorem exists_line_for_expression_of_blank :
    (ofCommand .named .epoch (.parse " \t" false)).status = 0 ∧
      ofCommand .named .epoch (.parse " \t" false) = ⟨0, "always\n", ""⟩ ∧
      ofCommand .named .epoch (.parse "always" false) = ⟨0, "always\n", ""⟩ ∧
      ∀ zones now,
        (ofCommand zones now (.check "always" none "Asia/Tokyo" false)).output =
          (ofCommand zones now (.check " \t" none "Asia/Tokyo" false)).output := by
  have hstatus : (ofCommand .named .epoch (.parse " \t" false)).status = 0 := rfl
  obtain ⟨line, -, -, hprinted, hagain, hchecked, hblank⟩ := exists_line_for_expression hstatus
  obtain ⟨rfl, -, -⟩ := hblank (by simp [Blank, isBlank])
  exact ⟨hstatus, hprinted, hagain .named .epoch,
    fun zones now => (hchecked zones now none "Asia/Tokyo" false).2 rfl⟩

end Outcome

end Recurrence
