import Recurrence.Period.Reader
import Recurrence.Proofs.TokenScan

/-! The grammar of written periods. A derivation yields the clauses as they stand in the text;
those of one scale are gathered afterwards. -/

namespace Recurrence

/-- Parts one after the other, each of which derives a member of the list. -/
inductive Many {α : Type} (derives : List Lexeme → α → Prop) : List Lexeme → List α → Prop
  | nil : Many derives [] []
  | snoc {ls ls' : List Lexeme} {as : List α} {a : α} (h : Many derives ls as)
      (h' : derives ls' a) : Many derives (ls ++ ls') (as ++ [a])

/-- `item := value ('-' value)?` -/
inductive DerivesSpan (s : Scale) : List Lexeme → Span → Prop
  | single {word : List Char} {value : Nat} (h : s.valueOf word = .ok value) :
      DerivesSpan s [.word word] (.single value)
  | range {word word' : List Char} {low high : Nat} (h : s.valueOf word = .ok low)
      (h' : s.valueOf word' = .ok high) : DerivesSpan s [.word word, .dash, .word word'] ⟨low, high⟩

/-- `clause := scale '{' item+ '}'` -/
inductive DerivesClause : List Lexeme → Clause → Prop
  | mk {word : List Char} {s : Scale} {ls : List Lexeme} {spans : List Span}
      (hs : Scale.named? word = some s) (h : Many (DerivesSpan s) ls spans) (hne : spans ≠ []) :
      DerivesClause (.word word :: .opening :: (ls ++ [.closing])) ⟨s, spans⟩

/-- `sub_period := 'always' | 'none' | 'never' | clause+` -/
inductive DerivesSubPeriod : List Lexeme → SubPeriod → Prop
  | always : DerivesSubPeriod [.word "always".toList] .always
  | none : DerivesSubPeriod [.word "none".toList] .always
  | never : DerivesSubPeriod [.word "never".toList] .never
  | clauses {ls : List Lexeme} {cs : List Clause} (h : Many DerivesClause ls cs) (hne : cs ≠ []) :
      DerivesSubPeriod ls (.clauses cs)

/-- `period := sub_period (',' sub_period)*` -/
inductive DerivesPeriod : List Lexeme → List SubPeriod → Prop
  | one {ls : List Lexeme} {sub : SubPeriod} (h : DerivesSubPeriod ls sub) : DerivesPeriod ls [sub]
  | snoc {ls ls' : List Lexeme} {subs : List SubPeriod} {sub : SubPeriod}
      (h : DerivesPeriod ls subs) (h' : DerivesSubPeriod ls' sub) :
      DerivesPeriod (ls ++ .comma :: ls') (subs ++ [sub])

namespace Many

variable {α : Type} {derives : List Lexeme → α → Prop}

theorem append {ls ls' : List Lexeme} {as as' : List α} (h : Many derives ls as)
    (h' : Many derives ls' as') : Many derives (ls ++ ls') (as ++ as') := by
  induction h' with
  | nil => simpa using h
  | snoc _ hlast ih => simpa [List.append_assoc] using ih.snoc hlast

theorem flatMap {as : List α} {lexemes : α → List Lexeme} (h : ∀ a ∈ as, derives (lexemes a) a) :
    Many derives (as.flatMap lexemes) as := by
  induction as with
  | nil => exact .nil
  | cons a as ih =>
    have ha : Many derives (lexemes a) [a] := nil.snoc (h a (by simp))
    exact ha.append (ih fun b hb => h b (by simp [hb]))

theorem forall_mem {ls : List Lexeme} {as : List α} (h : Many derives ls as) {holds : α → Prop}
    (hpart : ∀ ls a, derives ls a → holds a) : ∀ a ∈ as, holds a := by
  induction h with
  | nil => simp
  | snoc _ hlast ih =>
    intro b hb
    rcases List.mem_append.mp hb with hb | hb
    · exact ih b hb
    · exact List.mem_singleton.mp hb ▸ hpart _ _ hlast

theorem ne_nil {ls : List Lexeme} {as : List α} (h : Many derives ls as)
    (hpart : ∀ ls a, derives ls a → ls ≠ []) (hne : as ≠ []) : ls ≠ [] := by
  cases h with
  | nil => exact absurd rfl hne
  | snoc _ hlast => exact List.append_ne_nil_of_right_ne_nil _ (hpart _ _ hlast)

end Many

theorem DerivesSubPeriod.ne_nil {ls : List Lexeme} {sub : SubPeriod}
    (h : DerivesSubPeriod ls sub) : ls ≠ [] := by
  cases h with
  | always => simp
  | none => simp
  | never => simp
  | clauses h hne => exact h.ne_nil (fun _ _ hc => by cases hc; simp) hne

theorem DerivesPeriod.ne_nil {ls : List Lexeme} {subs : List SubPeriod}
    (h : DerivesPeriod ls subs) : ls ≠ [] ∧ subs ≠ [] := by
  cases h with
  | one h => exact ⟨h.ne_nil, by simp⟩
  | snoc h h' => exact ⟨by simp, by simp⟩

theorem DerivesPeriod.subPeriod {ls : List Lexeme} {sub : SubPeriod} (h : DerivesPeriod ls [sub]) :
    DerivesSubPeriod ls sub := by
  generalize hsubs : [sub] = subs at h
  cases h with
  | one h =>
    cases hsubs
    exact h
  | @snoc _ _ before _ h _ =>
    have hnil : before = [] := by
      cases before with
      | nil => rfl
      | cons _ _ => simp at hsubs
    exact absurd hnil h.ne_nil.2

theorem DerivesSubPeriod.many {ls : List Lexeme} {cs : List Clause}
    (h : DerivesSubPeriod ls (.clauses cs)) : Many DerivesClause ls cs ∧ cs ≠ [] := by
  cases h with
  | clauses h hne => exact ⟨h, hne⟩

theorem DerivesPeriod.append {ls ls' : List Lexeme} {subs subs' : List SubPeriod}
    (h : DerivesPeriod ls subs) (h' : DerivesPeriod ls' subs') :
    DerivesPeriod (ls ++ .comma :: ls') (subs ++ subs') := by
  induction h' with
  | one hlast => exact h.snoc hlast
  | snoc _ hlast ih => simpa [List.append_assoc] using ih.snoc hlast

/-- A text without tokens writes no sub-period. -/
def Writes (text : List Char) (subs : List SubPeriod) : Prop :=
  ∃ ts, Scans 0 text ts ∧ (ts = [] ∧ subs = [] ∨ DerivesPeriod (ts.map Token.lexeme) subs)

/-- What a sub-period amounts to as it is written. -/
def SubPeriod.gathered : SubPeriod → SubPeriod
  | clauses cs => ofClauses cs
  | sub => sub

end Recurrence
