import Mathlib.Data.List.Perm.Basic
import Recurrence.Proofs.JoinedByComma
import Recurrence.Proofs.Meaning
import Recurrence.Proofs.WellFormed

/-! What is written and what is read, counted: a sub-period for each part between commas and a span
for each item between braces, wherever its clause ends up. -/

namespace Recurrence

open scoped List

/-- The items in a row of lexemes. A word between braces begins one, unless it is a second bound. -/
def itemsFrom (inside : Bool) : List Lexeme → Nat
  | [] => 0
  | .opening :: ls => itemsFrom true ls
  | .closing :: ls => itemsFrom false ls
  | .dash :: .word _ :: ls => itemsFrom inside ls
  | .word _ :: ls => (if inside then 1 else 0) + itemsFrom inside ls
  | _ :: ls => itemsFrom inside ls

def itemCount (text : List Char) : Nat := itemsFrom false ((tokens 0 text).map Token.lexeme)

/-- The spans, each with the scale that it is on. -/
def Clause.items (c : Clause) : List (Scale × Span) := c.spans.map fun r => (c.scale, r)

def SubPeriod.items : SubPeriod → List (Scale × Span)
  | always | never => []
  | clauses cs => cs.flatMap Clause.items

def Period.items (p : Period) : List (Scale × Span) := p.subPeriods.flatMap SubPeriod.items

namespace SubPeriod

theorem items_addClause (c : Clause) (ds : List Clause) :
    (addClause c ds).flatMap Clause.items ~ ds.flatMap Clause.items ++ c.items := by
  induction ds with
  | nil => simp [addClause]
  | cons d ds ih =>
    by_cases hs : d.scale = c.scale
    · have hitems : ({ d with spans := d.spans ++ c.spans } : Clause).items = d.items ++ c.items := by
        simp [Clause.items, hs]
      rw [addClause, if_pos hs, List.flatMap_cons, List.flatMap_cons, hitems, List.append_assoc,
        List.append_assoc]
      exact List.perm_append_comm.append_left d.items
    · rw [addClause, if_neg hs, List.flatMap_cons, List.flatMap_cons, List.append_assoc]
      exact ih.append_left d.items

theorem items_gather (merged cs : List Clause) :
    (gather merged cs).flatMap Clause.items ~
      merged.flatMap Clause.items ++ cs.flatMap Clause.items := by
  induction cs generalizing merged with
  | nil => simp [gather]
  | cons c cs ih =>
    rw [gather_cons, List.flatMap_cons, ← List.append_assoc]
    exact (ih _).trans ((items_addClause c merged).append_right _)

theorem items_gathered (sub : SubPeriod) : sub.gathered.items ~ sub.items := by
  cases sub with
  | always => rfl
  | never => rfl
  | clauses cs => exact items_gather [] cs

end SubPeriod

theorem Period.items_gathered (subs : List SubPeriod) :
    items ⟨subs.map SubPeriod.gathered⟩ ~ items ⟨subs⟩ := by
  rw [items, List.flatMap_map]
  exact List.Perm.flatMap_left subs fun sub _ => sub.items_gathered

theorem itemsFrom_comma (inside : Bool) (ls : List Lexeme) :
    itemsFrom inside (.comma :: ls) = itemsFrom inside ls := rfl

section Items

variable {ls : List Lexeme}

theorem Many.itemsFrom_append {α : Type} {derives : List Lexeme → α → Prop} {as : List α}
    {inside : Bool} {items : α → List (Scale × Span)}
    (hpart : ∀ ls a, derives ls a → ∀ rest,
      itemsFrom inside (ls ++ rest) = (items a).length + itemsFrom inside rest)
    (h : Many derives ls as) (rest : List Lexeme) :
    itemsFrom inside (ls ++ rest) = (as.flatMap items).length + itemsFrom inside rest := by
  induction h generalizing rest with
  | nil => simp
  | snoc _ hlast ih =>
    rw [List.append_assoc, ih, hpart _ _ hlast]
    simp only [List.flatMap_append, List.length_append, List.flatMap_singleton]
    omega

theorem DerivesSpan.itemsFrom_append {s : Scale} {r : Span} (h : DerivesSpan s ls r)
    (rest : List Lexeme) : itemsFrom true (ls ++ rest) = 1 + itemsFrom true rest := by
  cases h with
  | single _ => simp [itemsFrom]
  | range _ _ => simp [itemsFrom]

theorem DerivesClause.itemsFrom_append {c : Clause} (h : DerivesClause ls c)
    (rest : List Lexeme) :
    itemsFrom false (ls ++ rest) = c.items.length + itemsFrom false rest := by
  cases h with
  | @mk word s ls spans _ hspans _ =>
    have hpart : ∀ ls r, DerivesSpan s ls r → ∀ rest,
        itemsFrom true (ls ++ rest) = [(s, r)].length + itemsFrom true rest :=
      fun _ _ hspan => hspan.itemsFrom_append
    have hitems := hspans.itemsFrom_append hpart (.closing :: rest)
    rw [← List.map_eq_flatMap] at hitems
    simpa [itemsFrom, Clause.items] using hitems

theorem DerivesSubPeriod.itemsFrom_append {sub : SubPeriod} (h : DerivesSubPeriod ls sub)
    (rest : List Lexeme) :
    itemsFrom false (ls ++ rest) = sub.items.length + itemsFrom false rest := by
  cases h with
  | always => simp [itemsFrom, SubPeriod.items]
  | none => simp [itemsFrom, SubPeriod.items]
  | never => simp [itemsFrom, SubPeriod.items]
  | clauses h _ => exact h.itemsFrom_append (fun _ _ hclause => hclause.itemsFrom_append) rest

theorem DerivesPeriod.itemsFrom_append {subs : List SubPeriod} (h : DerivesPeriod ls subs)
    (rest : List Lexeme) :
    itemsFrom false (ls ++ rest) = (Period.mk subs).items.length + itemsFrom false rest := by
  induction h generalizing rest with
  | one hsub => simpa [Period.items] using hsub.itemsFrom_append rest
  | snoc _ hlast ih =>
    rw [List.append_assoc, ih, List.cons_append, itemsFrom_comma, hlast.itemsFrom_append]
    simp only [Period.items, List.flatMap_append, List.length_append, List.flatMap_singleton]
    omega

end Items

section Commas

variable {ls : List Lexeme}

theorem Many.not_mem {α : Type} {derives : List Lexeme → α → Prop} {as : List α} {l : Lexeme}
    (hpart : ∀ ls a, derives ls a → l ∉ ls) (h : Many derives ls as) : l ∉ ls := by
  induction h with
  | nil => simp
  | snoc _ hlast ih =>
    rw [List.mem_append]
    rintro (hl | hl)
    · exact ih hl
    · exact hpart _ _ hlast hl

theorem DerivesSpan.comma_not_mem {s : Scale} {r : Span} (h : DerivesSpan s ls r) :
    Lexeme.comma ∉ ls := by
  cases h with
  | single _ => simp
  | range _ _ => simp

theorem DerivesClause.comma_not_mem {c : Clause} (h : DerivesClause ls c) :
    Lexeme.comma ∉ ls := by
  obtain ⟨-, hspans, -⟩ := h
  have hinner := hspans.not_mem fun _ _ hspan => hspan.comma_not_mem
  simpa using hinner

theorem DerivesSubPeriod.comma_not_mem {sub : SubPeriod} (h : DerivesSubPeriod ls sub) :
    Lexeme.comma ∉ ls := by
  cases h with
  | always => simp
  | none => simp
  | never => simp
  | clauses h _ => exact h.not_mem fun _ _ hclause => hclause.comma_not_mem

theorem DerivesPeriod.length_eq {subs : List SubPeriod} (h : DerivesPeriod ls subs) :
    subs.length = ls.count .comma + 1 := by
  induction h with
  | one hsub => simp [List.count_eq_zero.mpr hsub.comma_not_mem]
  | snoc _ hlast ih =>
    simp [List.count_append, List.count_eq_zero.mpr hlast.comma_not_mem, ih]

theorem Scans.count_comma {p : Nat} {text : List Char} {ts : List Token} (h : Scans p text ts) :
    (ts.map Token.lexeme).count .comma = text.count ',' := by
  induction h with
  | nil => rfl
  | @blank _ c _ _ hc _ ih =>
    have hne : c ≠ ',' := by
      rintro rfl
      cases hc
    rw [List.count_cons_of_ne hne, ih]
  | sign hc _ ih =>
    rcases sign?_eq_some hc with rfl | rfl | rfl | rfl <;> (cases hc; simp [ih])
  | @word _ run _ _ _ hrun _ _ ih =>
    have hnone : ',' ∉ run := fun hc => Bool.noConfusion (hrun ',' hc)
    rw [List.map_cons, List.count_cons_of_ne (by simp), ih, List.count_append,
      List.count_eq_zero.mpr hnone, Nat.zero_add]

end Commas

namespace Period

theorem length_items_of_writes {text : List Char} {subs : List SubPeriod}
    (h : Writes text subs) : (Period.mk subs).items.length = itemCount text := by
  obtain ⟨ts, hscan, hsubs⟩ := h
  rw [itemCount, hscan.tokens_eq]
  rcases hsubs with ⟨rfl, rfl⟩ | hsubs
  · rfl
  · simpa [itemsFrom] using (hsubs.itemsFrom_append []).symm

theorem length_of_writes {text : List Char} {subs : List SubPeriod} (h : Writes text subs)
    (hne : subs ≠ []) : subs.length = text.count ',' + 1 := by
  obtain ⟨ts, hscan, ⟨-, hnil⟩ | hsubs⟩ := h
  · exact absurd hnil hne
  · rw [hsubs.length_eq, hscan.count_comma]

/-- What is read from a text is well formed, has a sub-period for each part between commas unless
the text is blank, and has the items that are written, each as often and on the same scale. -/
theorem parse_wellFormed {text : String} {p : Period} (h : parse text = .ok p) :
    p.WellFormed ∧ (p.subPeriods = [] ↔ Blank text.toList) ∧
      (¬ Blank text.toList → p.subPeriods.length = text.toList.count ',' + 1) ∧
      p.items.length = itemCount text.toList ∧
      ∃ subs, Writes text.toList subs ∧ p.items ~ (Period.mk subs).items := by
  have hwellFormed := wellFormed_of_ofChars h
  obtain ⟨subs, hwrites, rfl⟩ := writes_of_ofChars h
  have hblank : Blank text.toList ↔ subs = [] := blank_iff_of_writes hwrites
  have hitems := items_gathered subs
  refine ⟨hwellFormed, ?_, ?_, ?_, subs, hwrites, hitems⟩
  · rw [hblank, List.map_eq_nil_iff]
  · rw [hblank, List.length_map]
    exact length_of_writes hwrites
  · rw [hitems.length_eq, length_items_of_writes hwrites]

/-- The two clauses on the hour become one, with all three items. -/
theorem parse_wellFormed_of_repeated_scale :
    let period : Period := ⟨[.clauses [⟨.hour, [.single 9, ⟨17, 5⟩, .single 0]⟩,
      ⟨.weekday, [.single 2]⟩], .never]⟩
    parse "hr\x7b9 17-5\x7d wd\x7bmon\x7d hr\x7b0\x7d,never" = .ok period ∧
      period.WellFormed ∧
      2 = "hr\x7b9 17-5\x7d wd\x7bmon\x7d hr\x7b0\x7d,never".toList.count ',' + 1 ∧
      4 = itemCount "hr\x7b9 17-5\x7d wd\x7bmon\x7d hr\x7b0\x7d,never".toList := by
  intro period
  have hparse : parse "hr\x7b9 17-5\x7d wd\x7bmon\x7d hr\x7b0\x7d,never" = .ok period := rfl
  obtain ⟨hwellFormed, hblank, hcommas, hitems, -⟩ := parse_wellFormed hparse
  have hne : ¬ Blank "hr\x7b9 17-5\x7d wd\x7bmon\x7d hr\x7b0\x7d,never".toList := by
    rw [← hblank]
    exact List.cons_ne_nil _ _
  exact ⟨hparse, hwellFormed, hcommas hne, hitems⟩

end Period

end Recurrence
