import Recurrence.Proofs.Meaning
import Recurrence.Proofs.PrintedForm

/-! Periods of one clause or a few as they are written, with either word for each scale. -/

namespace Recurrence

theorem Spells.writes {text : List Char} {ls : List Lexeme} {subs : List SubPeriod}
    (h : Spells text ls) (hsubs : DerivesPeriod ls subs) : Writes text subs := by
  obtain ⟨ts, hscan, hts⟩ := h 0
  exact ⟨ts, hscan, .inr (hts ▸ hsubs)⟩

theorem Many.singles {s : Scale} {words : List (List Char)} {values : List Nat}
    (h : words.map s.valueOf = values.map .ok) :
    Many (DerivesSpan s) (words.map .word) (values.map .single) := by
  induction words generalizing values with
  | nil =>
    obtain rfl := List.map_eq_nil_iff.mp h.symm
    exact .nil
  | cons word words ih =>
    obtain ⟨value, values, rfl, hvalue, hvalues⟩ := List.map_eq_cons_iff.mp h.symm
    have hfirst : Many (DerivesSpan s) [.word word] [.single value] :=
      nil.snoc (.single hvalue.symm)
    exact hfirst.append (ih hvalues.symm)

theorem DerivesClause.singles {word : List Char} {s : Scale} (hs : Scale.named? word = some s)
    (words : List (List Char)) (values : List Nat) (h : words.map s.valueOf = values.map .ok)
    (hne : values ≠ []) :
    DerivesClause (.word word :: .opening :: (words.map .word ++ [.closing]))
      ⟨s, values.map .single⟩ :=
  .mk hs (.singles h) (by simpa using hne)

/-- The clause with one span only. -/
def Clause.spanning (s : Scale) (low high : Nat) : Clause := ⟨s, [⟨low, high⟩]⟩

/-- A text whose lexemes derive the clause. -/
def WritesClause (text : List Char) (c : Clause) : Prop :=
  ∃ ls, Spells text ls ∧ DerivesClause ls c

theorem writesClause_single {word : List Char} {s : Scale} {value : Nat}
    (hs : Scale.named? word = some s) (h : s.Admits value) :
    WritesClause (word ++ ' ' :: '{' :: (Nat.toDigits 10 value ++ ['}'])) ⟨s, [.single value]⟩ :=
  have hspan : DerivesSpan s [.word (Nat.toDigits 10 value)] (.single value) :=
    .single (Scale.valueOf_toDigits h)
  ⟨_, (Scale.spells_of_named? hs).clause (spells_digits value),
    .mk hs (Many.nil.snoc hspan) (List.cons_ne_nil _ _)⟩

theorem writesClause_range {word : List Char} {s : Scale} {low high : Nat}
    (hs : Scale.named? word = some s) (hlow : s.Admits low) (hhigh : s.Admits high) :
    WritesClause (word ++ ' ' :: '{' :: ((Nat.toDigits 10 low ++ '-' :: Nat.toDigits 10 high) ++
      ['}'])) (.spanning s low high) :=
  have hspan : DerivesSpan s [.word (Nat.toDigits 10 low), .dash, .word (Nat.toDigits 10 high)]
      ⟨low, high⟩ := .range (Scale.valueOf_toDigits hlow) (Scale.valueOf_toDigits hhigh)
  ⟨_, (Scale.spells_of_named? hs).clause (Span.spells_range low high),
    .mk hs (Many.nil.snoc hspan) (List.cons_ne_nil _ _)⟩

namespace Period

theorem ofChars_of_spells {text : List Char} {ls : List Lexeme} {cs : List Clause}
    (h : Spells text ls) (hcs : Many DerivesClause ls cs) (hne : cs ≠ []) :
    ofChars text = .ok ⟨[.ofClauses cs]⟩ :=
  ofChars_of_writes (h.writes (.one (.clauses hcs hne)))

theorem parse_range {word : String} {s : Scale} {low high : Nat}
    (hs : Scale.named? word.toList = some s) (hlow : s.Admits low) (hhigh : s.Admits high) :
    parse (word ++ " \x7b" ++ toString low ++ "-" ++ toString high ++ "\x7d") =
      .ok ⟨[.clauses [.spanning s low high]]⟩ := by
  obtain ⟨ls, hspells, hclause⟩ := writesClause_range hs hlow hhigh
  have hchars := ofChars_of_spells hspells (Many.nil.snoc hclause) (by simp)
  have hone : SubPeriod.ofClauses [.spanning s low high] = .clauses [.spanning s low high] := rfl
  simpa [parse, Nat.toString_eq_repr, hone] using hchars

theorem holdsAt_range {word : String} {s : Scale} {low high : Nat}
    (hs : Scale.named? word.toList = some s) (hlow : s.Admits low) (hhigh : s.Admits high)
    (t : DateTime) :
    holdsAt (word ++ " \x7b" ++ toString low ++ "-" ++ toString high ++ "\x7d") t =
      .ok ((Clause.spanning s low high).holds t) := by
  rw [holdsAt_of_parse (parse_range hs hlow hhigh)]
  simp [holds, isUnconstrained, SubPeriod.holds]

end Period

end Recurrence
