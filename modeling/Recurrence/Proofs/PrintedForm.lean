import Recurrence.Period.Printer
import Recurrence.Proofs.WellFormed

/-! The printed form of a period is read back as that period, if it can be read from a text at
all. -/

namespace Recurrence

theorem isDigit_of_mem_toDigits {n : Nat} {c : Char} (h : c ∈ Nat.toDigits 10 n) :
    c.isDigit = true := Nat.isDigit_of_mem_toDigits (by decide) (by decide) h

theorem toLower_of_isDigit {c : Char} (h : c.isDigit = true) : c.toLower = c := by
  simp only [Char.isDigit, Bool.and_eq_true, decide_eq_true_eq, UInt32.le_iff_toNat_le] at h
  have hnot : ¬ (c.val ≥ 'A'.val ∧ c.val ≤ 'Z'.val) := by
    rintro ⟨hA, -⟩
    have hA' := UInt32.le_iff_toNat_le.mp hA
    have : '9'.val.toNat < 'A'.val.toNat := by decide
    omega
  exact dif_neg hnot

theorem spells_digits (n : Nat) : Spells (Nat.toDigits 10 n) [.word (Nat.toDigits 10 n)] := by
  refine .word Nat.toDigits_ne_nil ?_ ?_
  · intro c hc
    simp [Char.isAlphanum, isDigit_of_mem_toDigits hc]
  · have hmap : (Nat.toDigits 10 n).map Char.toLower = (Nat.toDigits 10 n).map id :=
      List.map_congr_left fun c hc => toLower_of_isDigit (isDigit_of_mem_toDigits hc)
    exact hmap.trans (List.map_id _)

theorem Scale.spells_of_named? {word : List Char} {s : Scale} (h : named? word = some s) :
    Spells word [.word word] := by
  obtain rfl | rfl : word = s.name.toList ∨ word = s.code.toList := by
    simpa using List.find?_some h
  · cases s <;> exact .word (by simp [name]) (by simp [name]) rfl
  · cases s <;> exact .word (by simp [code]) (by simp [code]) rfl

theorem numeral?_toDigits (n : Nat) : numeral? (Nat.toDigits 10 n) = some n := by
  have hdigits : digits? (Nat.toDigits 10 n) = some n := by
    have hall : (Nat.toDigits 10 n).all Char.isDigit = true :=
      List.all_eq_true.mpr fun c hc => isDigit_of_mem_toDigits hc
    simp only [digits?, ne_eq, Nat.toDigits_ne_nil, not_false_eq_true, hall, and_self, if_true,
      Nat.ofDigitChars_ten_toDigits]
  unfold numeral?
  split
  · rename_i word hplus
    have hc : '+' ∈ Nat.toDigits 10 n := by simp [hplus]
    exact absurd (isDigit_of_mem_toDigits hc) (by decide)
  · exact hdigits

namespace Scale

theorem le_greatestNumber_of_admits {s : Scale} {n : Nat} (h : s.Admits n) : n ≤ greatestNumber := by
  cases s with
  | year => exact h
  | _ => exact Nat.le_trans h.2 (by decide)

theorem valueOf_toDigits {s : Scale} {n : Nat} (h : s.Admits n) :
    s.valueOf (Nat.toDigits 10 n) = .ok n := by
  have hle := le_greatestNumber_of_admits h
  have hfilter : (some n).filter (· ≤ greatestNumber) = some n := by simp [hle]
  simp only [valueOf, numeral?_toDigits, hfilter, within_of_admits h]

end Scale

def Span.lexemes (r : Span) : List Lexeme :=
  if r.low = r.high then [.word (Nat.toDigits 10 r.low)]
  else [.word (Nat.toDigits 10 r.low), .dash, .word (Nat.toDigits 10 r.high)]

def Clause.lexemes (c : Clause) : List Lexeme :=
  .word c.scale.name.toList :: .opening :: (c.spans.flatMap Span.lexemes ++ [.closing])

def SubPeriod.lexemes : SubPeriod → List Lexeme
  | always => [.word "always".toList]
  | never => [.word "never".toList]
  | clauses cs => cs.flatMap Clause.lexemes

theorem Span.spells_range (low high : Nat) :
    Spells (Nat.toDigits 10 low ++ '-' :: Nat.toDigits 10 high)
      [.word (Nat.toDigits 10 low), .dash, .word (Nat.toDigits 10 high)] := by
  have hrest : Spells ('-' :: Nat.toDigits 10 high) [.dash, .word (Nat.toDigits 10 high)] :=
    .sign rfl (spells_digits high)
  exact (spells_digits low).append hrest (.of_wordBreak (.cons (by decide) _) _)

theorem Span.spells_text (r : Span) : Spells r.text.toList r.lexemes := by
  unfold Span.text Span.lexemes
  by_cases h : r.low = r.high
  · rw [if_pos h, if_pos h, Nat.toString_eq_repr, Nat.toList_repr]
    exact spells_digits r.low
  · rw [if_neg h, if_neg h]
    simpa [Nat.toString_eq_repr] using Span.spells_range r.low r.high

theorem intercalate_nil_eq_flatMap {α : Type} (as : List α) (lexemes : α → List Lexeme) :
    [].intercalate (as.map lexemes) = as.flatMap lexemes := by
  induction as with
  | nil => rfl
  | cons a as ih =>
    cases as with
    | nil => simp
    | cons b as => simpa using ih

theorem Spells.spaced {α : Type} {text : α → String} {lexemes : α → List Lexeme} {as : List α}
    (h : ∀ a ∈ as, Spells (text a).toList (lexemes a)) :
    Spells (" ".intercalate (as.map text)).toList (as.flatMap lexemes) := by
  have hspace : ∀ {rest ls}, Spells rest ls → Spells ([' '] ++ rest) ([] ++ ls) :=
    fun hrest => hrest.blank (by decide)
  have hjoin := intercalate (fun rest => .cons (by decide) rest) hspace h
  rw [intercalate_nil_eq_flatMap] at hjoin
  simpa [String.toList_intercalate, Function.comp_def] using hjoin

theorem Spells.clause {word inner : List Char} {ls : List Lexeme} (hword : Spells word [.word word])
    (hinner : Spells inner ls) : Spells (word ++ ' ' :: '{' :: (inner ++ ['}']))
      (.word word :: .opening :: (ls ++ [.closing])) := by
  have hclosing : Spells ['}'] [.closing] := .sign rfl .nil
  have hend := hinner.append hclosing (.of_wordBreak (.cons (by decide) _) _)
  have hopening : Spells (' ' :: '{' :: (inner ++ ['}'])) (.opening :: (ls ++ [.closing])) :=
    .blank (by decide) (.sign rfl hend)
  exact hword.append hopening (.of_wordBreak (.cons (by decide) _) _)

theorem Clause.spells_text (c : Clause) : Spells c.text.toList c.lexemes := by
  have hspans : Spells (" ".intercalate (c.spans.map Span.text)).toList
      (c.spans.flatMap Span.lexemes) := .spaced fun r _ => r.spells_text
  have hclause := (Scale.spells_of_named? (Scale.named?_name c.scale)).clause hspans
  simpa [Clause.text, Clause.lexemes] using hclause

theorem SubPeriod.spells_text (sub : SubPeriod) : Spells sub.text.toList sub.lexemes := by
  cases sub with
  | always => exact .word (by simp [text]) (by simp [text]) rfl
  | never => exact .word (by simp [text]) (by simp [text]) rfl
  | clauses cs => exact .spaced fun c _ => c.spells_text

theorem Period.spells_text (p : Period) :
    Spells p.text.toList ([Lexeme.comma].intercalate (p.subPeriods.map SubPeriod.lexemes)) := by
  have hcomma : ∀ {rest ls}, Spells rest ls → Spells ([',', ' '] ++ rest) ([.comma] ++ ls) :=
    fun hrest => .sign rfl (hrest.blank (by decide))
  have hjoin := Spells.intercalate (fun rest => .cons (by decide) (' ' :: rest)) hcomma
    fun sub (_ : sub ∈ p.subPeriods) => sub.spells_text
  simpa [Period.text, String.toList_intercalate, Function.comp_def] using hjoin

theorem Span.derives {s : Scale} {r : Span} (hlow : s.Admits r.low) (hhigh : s.Admits r.high) :
    DerivesSpan s r.lexemes r := by
  obtain ⟨low, high⟩ := r
  unfold Span.lexemes
  by_cases h : low = high
  · subst h
    rw [if_pos rfl]
    exact .single (Scale.valueOf_toDigits hlow)
  · rw [if_neg h]
    exact .range (Scale.valueOf_toDigits hlow) (Scale.valueOf_toDigits hhigh)

theorem Clause.WellFormed.derives {c : Clause} (h : c.WellFormed) : DerivesClause c.lexemes c := by
  have hspans : Many (DerivesSpan c.scale) (c.spans.flatMap Span.lexemes) c.spans :=
    .flatMap fun r hr => Span.derives (h.admits r hr).1 (h.admits r hr).2
  exact .mk (Scale.named?_name c.scale) hspans h.spans_ne_nil

theorem SubPeriod.WellFormed.derives {sub : SubPeriod} (h : sub.WellFormed) :
    DerivesSubPeriod sub.lexemes sub := by
  cases h with
  | always => exact .always
  | never => exact .never
  | clauses hne _ h => exact .clauses (.flatMap fun c hc => (h c hc).derives) hne

theorem derivesPeriod_of_wellFormed {subs : List SubPeriod} (hne : subs ≠ [])
    (h : ∀ sub ∈ subs, sub.WellFormed) :
    DerivesPeriod ([Lexeme.comma].intercalate (subs.map SubPeriod.lexemes)) subs := by
  induction subs with
  | nil => exact absurd rfl hne
  | cons sub subs ih =>
    have hsub : DerivesPeriod sub.lexemes [sub] := .one (h sub (by simp)).derives
    cases subs with
    | nil => simpa using hsub
    | cons next subs =>
      have hrest := ih (by simp) fun other hother => h other (List.mem_cons_of_mem _ hother)
      simpa using hsub.append hrest

namespace Period

theorem WellFormed.writes {p : Period} (h : p.WellFormed) : Writes p.text.toList p.subPeriods := by
  obtain ⟨ts, hscan, hts⟩ := p.spells_text 0
  refine ⟨ts, hscan, ?_⟩
  by_cases hne : p.subPeriods = []
  · rw [hne, List.map_nil, List.intercalate_nil] at hts
    exact .inl ⟨List.map_eq_nil_iff.mp hts, hne⟩
  · exact .inr (hts ▸ derivesPeriod_of_wellFormed hne h)

theorem WellFormed.map_gathered {p : Period} (h : p.WellFormed) :
    p.subPeriods.map SubPeriod.gathered = p.subPeriods := by
  have hmap : p.subPeriods.map SubPeriod.gathered = p.subPeriods.map id :=
    List.map_congr_left fun sub hsub => SubPeriod.gathered_of_wellFormed (h sub hsub)
  exact hmap.trans (List.map_id _)

/-- Reading undoes printing on the well-formed periods and on no others. -/
theorem parse_text_eq_self_iff (p : Period) : parse p.text = .ok p ↔ p.WellFormed := by
  constructor
  · intro h
    exact wellFormed_of_ofChars h
  · intro h
    have hparse := ofChars_of_writes h.writes
    rwa [h.map_gathered] at hparse

end Period

end Recurrence
