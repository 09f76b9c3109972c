import Recurrence.Json
import Recurrence.Proofs.PrintedForm

/-! The written form of a JSON value stands for no other value. What is written of a value shows
where it ends, if no letter or digit comes next: so the parts of a list can be told from each other,
and a text from what is behind its quote. -/

namespace Recurrence

/-- Where `written a` is read, and no letter or digit behind it, nothing else that is written can be
read. -/
def Delimited {α : Type} (written : α → List Char) (a : α) : Prop :=
  ∀ {a' rest rest'}, WordBreak rest → WordBreak rest' →
    written a ++ rest = written a' ++ rest' → a = a' ∧ rest = rest'

theorem takeWhile_toDigits (n : Nat) {rest : List Char} (h : WordBreak rest) :
    (Nat.toDigits 10 n ++ rest).takeWhile Char.isDigit = Nat.toDigits 10 n := by
  have hrest : rest.takeWhile Char.isDigit = [] := by
    cases rest with
    | nil => rfl
    | cons c cs =>
      have hc : (c.isAlpha || c.isDigit) = false := h c rfl
      simp [(Bool.or_eq_false_iff.mp hc).2]
  rw [List.takeWhile_append_of_pos fun c hc => isDigit_of_mem_toDigits hc, hrest, List.append_nil]

theorem delimited_digits (n : Nat) : Delimited (Nat.toDigits 10) n := by
  intro n' rest rest' hrest hrest' h
  have hdigits : Nat.toDigits 10 n = Nat.toDigits 10 n' := by
    rw [← takeWhile_toDigits n hrest, h, takeWhile_toDigits n' hrest']
  rw [hdigits] at h
  refine ⟨?_, List.append_cancel_left h⟩
  rw [← Nat.ofDigitChars_ten_toDigits (n := n), hdigits, Nat.ofDigitChars_ten_toDigits]

namespace Json

/-- One value of a row of hexadecimal digits. -/
def hexValue (c : Char) : Nat := if c.isDigit then c.toNat - 48 else c.toNat - 87

theorem hexValue_digitChar : ∀ n < 16, hexValue (Nat.digitChar n) = n := by decide

/-- The character that a backslash and what comes behind it stand for, and the rest. -/
def unescapeMark : List Char → Option (Char × List Char)
  | 'u' :: _ :: _ :: c :: d :: rest => some (Char.ofNat (16 * hexValue c + hexValue d), rest)
  | 'b' :: rest => some ('\x08', rest)
  | 't' :: rest => some ('\x09', rest)
  | 'n' :: rest => some ('\x0a', rest)
  | 'f' :: rest => some ('\x0c', rest)
  | 'r' :: rest => some ('\x0d', rest)
  | c :: rest => some (c, rest)
  | [] => none

/-- The first character of a quoted text, and the rest. -/
def unescape : List Char → Option (Char × List Char)
  | [] => none
  | c :: rest => if c = '\\' then unescapeMark rest else some (c, rest)

theorem unescape_escape (c : Char) (rest : List Char) :
    unescape (escape c ++ rest) = some (c, rest) := by
  unfold escape
  split
  any_goals rfl
  split
  · rename_i hc
    have hvalue : 16 * (c.toNat / 16) + c.toNat % 16 = c.toNat := Nat.div_add_mod ..
    simp [unescape, unescapeMark, hexPair, hexValue_digitChar _ (by omega : c.toNat / 16 < 16),
      hexValue_digitChar _ (by omega : c.toNat % 16 < 16), hvalue]
  · rename_i hbackslash _ _ _ _ _ _
    exact if_neg hbackslash

theorem escape_ne_quote {c : Char} {rest rest' : List Char} : escape c ++ rest ≠ '"' :: rest' := by
  intro h
  have hc : some (c, rest) = some ('"', rest') := by
    rw [← unescape_escape c rest, h]
    rfl
  obtain ⟨rfl, rfl⟩ : c = '"' ∧ rest = rest' := by simpa using hc
  simp [escape] at h

theorem quoted_inj {cs cs' rest rest' : List Char}
    (h : cs.flatMap escape ++ '"' :: rest = cs'.flatMap escape ++ '"' :: rest') :
    cs = cs' ∧ rest = rest' := by
  induction cs generalizing cs' with
  | nil =>
    cases cs' with
    | nil => simpa using h
    | cons c' cs' =>
      simp only [List.flatMap_nil, List.nil_append, List.flatMap_cons, List.append_assoc] at h
      exact absurd h.symm escape_ne_quote
  | cons c cs ih =>
    simp only [List.flatMap_cons, List.append_assoc] at h
    cases cs' with
    | nil => exact absurd h escape_ne_quote
    | cons c' cs' =>
      simp only [List.flatMap_cons, List.append_assoc] at h
      have hunescape := congrArg unescape h
      rw [unescape_escape, unescape_escape] at hunescape
      obtain ⟨rfl, hrest⟩ : c = c' ∧ _ := by simpa using hunescape
      obtain ⟨rfl, rfl⟩ := ih hrest
      exact ⟨rfl, rfl⟩

theorem toList_quote (s : String) :
    (quote s).toList = '"' :: (s.toList.flatMap escape ++ ['"']) := by
  simp [quote]

/-- A quoted text shows where it ends, whatever comes next. -/
theorem quote_inj {s s' : String} {rest rest' : List Char}
    (h : (quote s).toList ++ rest = (quote s').toList ++ rest') : s = s' ∧ rest = rest' := by
  rw [toList_quote, toList_quote] at h
  simp only [List.cons_append, List.append_assoc, List.cons.injEq, true_and, List.nil_append] at h
  have ⟨hs, hrest⟩ := quoted_inj h
  exact ⟨String.toList_inj.mp hs, hrest⟩

section parts

variable {α : Type} {written : α → List Char} {gap rest rest' : List Char} {items items' : List α}

/-- The parts of a list, each with a comma in front. -/
def commaBefore (written : α → List Char) (gap : List Char) (items : List α) : List Char :=
  items.flatMap fun item => ',' :: (gap ++ written item)

theorem wordBreak_commaBefore (items : List α) (rest : List Char) :
    WordBreak (commaBefore written gap items ++ '\n' :: rest) := by
  cases items with
  | nil => exact .cons (by decide) rest
  | cons item items => exact .cons (by decide) _

theorem commaBefore_inj (hitems : ∀ item ∈ items, Delimited written item)
    (h : commaBefore written gap items ++ '\n' :: rest =
      commaBefore written gap items' ++ '\n' :: rest') : items = items' ∧ rest = rest' := by
  induction items generalizing items' with
  | nil =>
    cases items' with
    | nil => simpa [commaBefore] using h
    | cons item' items' => simp [commaBefore] at h
  | cons item items ih =>
    cases items' with
    | nil => simp [commaBefore] at h
    | cons item' items' =>
      simp only [commaBefore, List.flatMap_cons, List.cons_append, List.append_assoc,
        List.cons.injEq, true_and, List.append_cancel_left_eq] at h
      obtain ⟨rfl, hrest⟩ := hitems item (by simp) (wordBreak_commaBefore items rest)
        (wordBreak_commaBefore items' rest') h
      obtain ⟨rfl, rfl⟩ := ih (fun other hother => hitems other (by simp [hother])) hrest
      exact ⟨rfl, rfl⟩

theorem toList_lineBreak (depth : Nat) :
    (lineBreak depth).toList = '\n' :: List.replicate (2 * depth) ' ' := by
  simp [lineBreak]

theorem toList_intercalate_comma (part : String) (parts : List String) :
    (",".intercalate (part :: parts)).toList =
      part.toList ++ parts.flatMap fun other => ',' :: other.toList := by
  induction parts generalizing part with
  | nil => simp
  | cons other parts ih => simp [ih]

variable {left right : String} {depth : Nat} {text : α → String}

theorem toList_enclose_cons (item : α) (items : List α) :
    (enclose left right depth ((item :: items).map text)).toList =
      left.toList ++ ((lineBreak (depth + 1)).toList ++ (text item).toList ++
        (commaBefore (String.toList ∘ text) (lineBreak (depth + 1)).toList items ++
          (lineBreak depth).toList) ++ right.toList) := by
  rw [enclose, List.map_cons, List.map_cons, if_neg (by simp)]
  simp only [String.toList_append, toList_intercalate_comma, List.map_map, List.flatMap_map,
    Function.comp_apply, List.append_assoc, commaBefore]

theorem enclose_nil_ne (hright : ∀ {rest rest'}, right.toList ++ rest ≠ '\n' :: rest') (item : α) :
    (enclose left right depth []).toList ++ rest ≠
      (enclose left right depth ((item :: items).map text)).toList ++ rest' := by
  intro h
  rw [toList_enclose_cons] at h
  simp only [enclose, List.isEmpty_nil, if_true, String.toList_append, List.append_assoc,
    List.append_cancel_left_eq, toList_lineBreak, List.cons_append] at h
  exact hright h

theorem enclose_inj (hright : ∀ {rest rest'}, right.toList ++ rest ≠ '\n' :: rest')
    (hitems : ∀ item ∈ items, Delimited (String.toList ∘ text) item)
    (h : (enclose left right depth (items.map text)).toList ++ rest =
      (enclose left right depth (items'.map text)).toList ++ rest') :
    items = items' ∧ rest = rest' := by
  cases items with
  | nil =>
    cases items' with
    | nil => exact ⟨rfl, List.append_cancel_left h⟩
    | cons item' items' => exact absurd h (enclose_nil_ne hright item')
  | cons item items =>
    cases items' with
    | nil => exact absurd h.symm (enclose_nil_ne hright item)
    | cons item' items' =>
      rw [toList_enclose_cons, toList_enclose_cons] at h
      let indent := List.replicate (2 * depth) ' '
      -- The first part has no comma in front: one is put there on both sides.
      have hcomma : commaBefore (String.toList ∘ text) (lineBreak (depth + 1)).toList
            (item :: items) ++ '\n' :: (indent ++ right.toList ++ rest) =
          commaBefore (String.toList ∘ text) (lineBreak (depth + 1)).toList
            (item' :: items') ++ '\n' :: (indent ++ right.toList ++ rest') := by
        simpa [commaBefore, toList_lineBreak] using h
      obtain ⟨hsame, hrest⟩ := commaBefore_inj hitems hcomma
      exact ⟨hsame, List.append_cancel_left hrest⟩

end parts

theorem prettyItems_eq_map (depth : Nat) (items : List Json) :
    prettyItems depth items = items.map (pretty depth) := by
  induction items with
  | nil => rfl
  | cons item items ih => rw [prettyItems, ih, List.map_cons]

def fieldText (depth : Nat) (field : String × Json) : String :=
  quote field.1 ++ ": " ++ field.2.pretty depth

theorem prettyFields_eq_map (depth : Nat) (fields : List (String × Json)) :
    prettyFields depth fields = fields.map (fieldText depth) := by
  induction fields with
  | nil => rfl
  | cons field fields ih => rw [prettyFields, ih, List.map_cons, fieldText]

/-- What the first character of a written value tells of it: any digit tells as much as `0`, and `f`
as much as `t`. -/
def initialOf (c : Char) : Char := if c.isDigit then '0' else if c = 'f' then 't' else c

def initial : Json → Char
  | null => 'n'
  | boolean _ => 't'
  | number _ => '0'
  | text _ => '"'
  | list _ => '['
  | object _ => '{'

theorem head?_enclose {left : Char} {rest : List Char} (right : String) (depth : Nat)
    (parts : List String) :
    ((enclose (String.singleton left) right depth parts).toList ++ rest).head? = some left := by
  unfold enclose
  split <;> simp

theorem initialOf_toDigits (n : Nat) (rest : List Char) :
    (Nat.toDigits 10 n ++ rest).head?.map initialOf = some '0' := by
  cases hdigits : Nat.toDigits 10 n with
  | nil => exact absurd hdigits Nat.toDigits_ne_nil
  | cons c cs =>
    have hc : c.isDigit = true := isDigit_of_mem_toDigits (hdigits ▸ List.mem_cons_self)
    simp [initialOf, hc]

theorem head?_pretty (depth : Nat) (j : Json) (rest : List Char) :
    ((j.pretty depth).toList ++ rest).head?.map initialOf = some j.initial := by
  cases j with
  | null => simp [pretty, initial, initialOf]
  | boolean b => cases b <;> simp [pretty, initial, initialOf]
  | number n =>
    rw [pretty, Nat.toString_eq_repr, Nat.toList_repr]
    exact initialOf_toDigits n rest
  | text s => simp [pretty, toList_quote, initial, initialOf]
  | list items =>
    rw [pretty, show "[" = String.singleton '[' from rfl, head?_enclose]
    rfl
  | object fields =>
    rw [pretty, show "\x7b" = String.singleton '{' from rfl, head?_enclose]
    rfl

/-- A claim about the values of a list and of the fields of an object carries over to the whole. -/
@[elab_as_elim]
theorem induction {motive : Json → Prop} (null : motive .null)
    (boolean : ∀ b, motive (.boolean b)) (number : ∀ n, motive (.number n))
    (text : ∀ s, motive (.text s))
    (list : ∀ items, (∀ item ∈ items, motive item) → motive (.list items))
    (object : ∀ fields, (∀ field ∈ fields, motive field.2) → motive (.object fields))
    (j : Json) : motive j :=
  @Json.rec motive (fun items => ∀ item ∈ items, motive item)
    (fun fields => ∀ field ∈ fields, motive field.2) (fun field => motive field.2)
    null boolean number text list object
    (by simp) (fun _ _ head tail => List.forall_mem_cons.mpr ⟨head, tail⟩)
    (by simp) (fun _ _ head tail => List.forall_mem_cons.mpr ⟨head, tail⟩)
    (fun _ _ value => value) j

theorem delimited_fieldText {depth : Nat} {field : String × Json}
    (h : Delimited (String.toList ∘ pretty depth) field.2) :
    Delimited (String.toList ∘ fieldText depth) field := by
  intro field' rest rest' hrest hrest' htext
  simp only [Function.comp_apply, fieldText, String.toList_append, List.append_assoc] at htext
  have ⟨hkey, htext⟩ := quote_inj htext
  obtain ⟨hvalue, hrest⟩ := h hrest hrest' (List.append_cancel_left htext)
  exact ⟨Prod.ext hkey hvalue, hrest⟩

theorem initial_eq_of_pretty {depth : Nat} {j j' : Json} {rest rest' : List Char}
    (h : (j.pretty depth).toList ++ rest = (j'.pretty depth).toList ++ rest') :
    j.initial = j'.initial := by
  have hsome : some j.initial = some j'.initial := by
    rw [← head?_pretty depth j rest, h, head?_pretty]
  exact Option.some.inj hsome

theorem delimited_pretty (j : Json) (depth : Nat) : Delimited (String.toList ∘ pretty depth) j := by
  induction j using Json.induction generalizing depth with
  | null =>
    intro j' rest rest' _ _ h
    have hinitial := initial_eq_of_pretty h
    cases j' with
    | null => exact ⟨rfl, List.append_cancel_left h⟩
    | _ => simp [initial] at hinitial
  | boolean b =>
    intro j' rest rest' _ _ h
    have hinitial := initial_eq_of_pretty h
    cases j' with
    | boolean b' => cases b <;> cases b' <;> simp_all [pretty]
    | _ => simp [initial] at hinitial
  | number n =>
    intro j' rest rest' hrest hrest' h
    have hinitial := initial_eq_of_pretty h
    cases j' with
    | number n' =>
      simp only [Function.comp_apply, pretty, Nat.toString_eq_repr, Nat.toList_repr] at h
      obtain ⟨rfl, hsame⟩ := delimited_digits n hrest hrest' h
      exact ⟨rfl, hsame⟩
    | _ => simp [initial] at hinitial
  | text s =>
    intro j' rest rest' _ _ h
    have hinitial := initial_eq_of_pretty h
    cases j' with
    | text s' =>
      obtain ⟨rfl, hsame⟩ := quote_inj h
      exact ⟨rfl, hsame⟩
    | _ => simp [initial] at hinitial
  | list items ih =>
    intro j' rest rest' _ _ h
    have hinitial := initial_eq_of_pretty h
    cases j' with
    | list items' =>
      simp only [Function.comp_apply, pretty, prettyItems_eq_map] at h
      obtain ⟨rfl, hsame⟩ := enclose_inj (by simp) (fun item hitem => ih item hitem _) h
      exact ⟨rfl, hsame⟩
    | _ => simp [initial] at hinitial
  | object fields ih =>
    intro j' rest rest' _ _ h
    have hinitial := initial_eq_of_pretty h
    cases j' with
    | object fields' =>
      simp only [Function.comp_apply, pretty, prettyFields_eq_map] at h
      obtain ⟨rfl, hsame⟩ :=
        enclose_inj (by simp) (fun field hfield => delimited_fieldText (ih field hfield _)) h
      exact ⟨rfl, hsame⟩
    | _ => simp [initial] at hinitial

/-- No two values are written alike. -/
theorem pretty_inj {depth : Nat} {j j' : Json} : j.pretty depth = j'.pretty depth ↔ j = j' := by
  refine ⟨fun h => ?_, fun h => h ▸ rfl⟩
  have hend : WordBreak [] := .nil
  have htext : (j.pretty depth).toList ++ [] = (j'.pretty depth).toList ++ [] := by rw [h]
  exact (delimited_pretty j depth hend hend htext).1

end Json

end Recurrence
