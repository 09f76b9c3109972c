import Mathlib
import Recurrence.CommandLine.Command
import Recurrence.Proofs.JsonText
import Recurrence.Proofs.RepeatedCheck

/-! A period is recovered from its JSON value, with the fields of every object in any order. -/

namespace Recurrence

namespace Json

/-- Values with the same structure, where the order of the fields of an object does not count. -/
inductive Same : Json → Json → Prop
  | null : Same null null
  | boolean (b : Bool) : Same (boolean b) (boolean b)
  | number (n : Nat) : Same (number n) (number n)
  | text (s : String) : Same (text s) (text s)
  | list {items items' : List Json} (h : List.Forall₂ Same items items') :
    Same (list items) (list items')
  | object {fields fields' : List (String × Json)}
    (h : ∀ key, Option.Rel Same (fields.lookup key) (fields'.lookup key)) :
    Same (object fields) (object fields')

theorem Same.refl (j : Json) : Same j j := by
  induction j using Json.induction with
  | null => exact .null
  | boolean b => exact .boolean b
  | number n => exact .number n
  | text s => exact .text s
  | list items ih => exact .list (List.forall₂_same.mpr ih)
  | object fields ih =>
    refine .object fun key => ?_
    cases hlookup : fields.lookup key with
    | none => exact .none
    | some value =>
      obtain ⟨before, behind, rfl, -⟩ := List.lookup_eq_some_iff.mp hlookup
      exact .some (ih (key, value) (by simp))

variable {α : Type} {read? : Json → Option α} {j j' : Json}

def number? : Json → Option Nat
  | number n => some n
  | _ => none

def text? : Json → Option String
  | text s => some s
  | _ => none

/-- The value of a field, read by `read?`. -/
def field? (key : String) (read? : Json → Option α) : Json → Option α
  | object fields => (fields.lookup key).bind read?
  | _ => none

/-- The values of a list, each read by `read?`. -/
def items? (read? : Json → Option α) : Json → Option (List α)
  | list items => items.mapM read?
  | _ => none

theorem Same.number?_eq (h : Same j j') : j.number? = j'.number? := by
  cases h <;> rfl

theorem Same.text?_eq (h : Same j j') : j.text? = j'.text? := by
  cases h <;> rfl

theorem bind_eq_of_rel (hread : ∀ {v v'}, Same v v' → read? v = read? v') {v? v'? : Option Json}
    (h : Option.Rel Same v? v'?) : v?.bind read? = v'?.bind read? := by
  cases h with
  | none => rfl
  | some h => exact hread h

theorem Same.field?_eq (hread : ∀ {v v'}, Same v v' → read? v = read? v') (key : String)
    (h : Same j j') : j.field? key read? = j'.field? key read? := by
  cases h with
  | object h => exact bind_eq_of_rel hread (h key)
  | _ => rfl

theorem Same.items?_eq (hread : ∀ {v v'}, Same v v' → read? v = read? v') (h : Same j j') :
    j.items? read? = j'.items? read? := by
  cases h with
  | list h =>
    simp only [items?]
    induction h with
    | nil => rfl
    | cons hitem _ ih => rw [List.mapM_cons, List.mapM_cons, hread hitem, ih]
  | _ => rfl

theorem items?_map {write : α → Json} (h : ∀ a, read? (write a) = some a) (as : List α) :
    (list (as.map write)).items? read? = some as := by
  simp only [items?]
  induction as with
  | nil => rfl
  | cons a as ih => simp [h a, ih]

end Json

open Json (Same)

def Span.ofJson? (j : Json) : Option Span := do
  return ⟨← j.field? "low" Json.number?, ← j.field? "high" Json.number?⟩

def Scale.ofName? (name : String) : Option Scale := all.find? (·.name == name)

def Clause.ofJson? (j : Json) : Option Clause := do
  let scale ← Scale.ofName? (← j.field? "scale" Json.text?)
  return ⟨scale, ← j.field? "ranges" (Json.items? Span.ofJson?)⟩

def SubPeriod.ofJson? (j : Json) : Option SubPeriod := do
  match ← j.field? "kind" Json.text? with
  | "always" => return always
  | "never" => return never
  | "clauses" => return clauses (← j.field? "clauses" (Json.items? Clause.ofJson?))
  | _ => none

def Period.ofJson? (j : Json) : Option Period := do
  return ⟨← j.items? SubPeriod.ofJson?⟩

theorem Scale.ofName?_name (s : Scale) : ofName? s.name = some s := by
  cases s <;> decide

theorem Span.ofJson?_toJson (r : Span) : ofJson? r.toJson = some r := rfl

theorem Clause.ofJson?_toJson (c : Clause) : ofJson? c.toJson = some c := by
  have hscale : c.toJson.field? "scale" Json.text? = some c.scale.name := rfl
  have hspans : c.toJson.field? "ranges" (Json.items? Span.ofJson?) = some c.spans :=
    Json.items?_map Span.ofJson?_toJson c.spans
  simp [ofJson?, hscale, hspans, Scale.ofName?_name]

theorem SubPeriod.ofJson?_toJson (sub : SubPeriod) : ofJson? sub.toJson = some sub := by
  cases sub with
  | always => rfl
  | never => rfl
  | clauses cs =>
    have hkind : (clauses cs).toJson.field? "kind" Json.text? = some "clauses" := rfl
    have hclauses : (clauses cs).toJson.field? "clauses" (Json.items? Clause.ofJson?) = some cs :=
      Json.items?_map Clause.ofJson?_toJson cs
    simp [ofJson?, hkind, hclauses]

theorem Span.ofJson?_congr {j j' : Json} (h : Same j j') : ofJson? j = ofJson? j' := by
  rw [ofJson?, h.field?_eq Same.number?_eq, h.field?_eq Same.number?_eq, ofJson?]

theorem Clause.ofJson?_congr {j j' : Json} (h : Same j j') : ofJson? j = ofJson? j' := by
  rw [ofJson?, h.field?_eq Same.text?_eq, h.field?_eq (Same.items?_eq Span.ofJson?_congr), ofJson?]

theorem SubPeriod.ofJson?_congr {j j' : Json} (h : Same j j') : ofJson? j = ofJson? j' := by
  rw [ofJson?, h.field?_eq Same.text?_eq, h.field?_eq (Same.items?_eq Clause.ofJson?_congr),
    ofJson?]

namespace Period

theorem ofJson?_toJson (p : Period) : ofJson? p.toJson = some p := by
  have hsubs : p.toJson.items? SubPeriod.ofJson? = some p.subPeriods :=
    Json.items?_map SubPeriod.ofJson?_toJson p.subPeriods
  simp [ofJson?, hsubs]

theorem ofJson?_congr {j j' : Json} (h : Same j j') : ofJson? j = ofJson? j' := by
  rw [ofJson?, h.items?_eq SubPeriod.ofJson?_congr, ofJson?]

theorem ofJson?_of_same {p : Period} {j : Json} (h : Same p.toJson j) : ofJson? j = some p :=
  (ofJson?_congr h).symm.trans p.ofJson?_toJson

theorem same_toJson_iff {p q : Period} : Same p.toJson q.toJson ↔ p = q := by
  constructor
  · intro h
    exact Option.some.inj ((ofJson?_of_same h).symm.trans q.ofJson?_toJson)
  · rintro rfl
    exact .refl _

theorem toJson_inj {p q : Period} : p.toJson = q.toJson ↔ p = q :=
  ⟨fun h => same_toJson_iff.mp (h ▸ .refl _), fun h => h ▸ rfl⟩

theorem text_inj_of_parse {text text' : String} {p q : Period} (h : parse text = .ok p)
    (h' : parse text' = .ok q) : p.text = q.text ↔ p = q := by
  refine ⟨fun hsame => ?_, fun hsame => hsame ▸ rfl⟩
  have hp := parse_text_of_parse h
  rw [hsame, parse_text_of_parse h'] at hp
  exact (Except.ok.inj hp).symm

/-- What a period is shown as, when its structure is asked for. -/
def shown (p : Period) : Json := .object [("canonical", .text p.text), ("sub_periods", p.toJson)]

theorem shown_inj {p q : Period} : p.shown = q.shown ↔ p = q := by
  refine ⟨fun h => ?_, fun h => h ▸ rfl⟩
  simp only [shown, Json.object.injEq, List.cons.injEq, Prod.mk.injEq, true_and, and_true] at h
  exact toJson_inj.mp h.2

end Period

theorem Outcome.ofParse_json_inj {text text' : String} {p q : Period}
    (h : Period.parse text = .ok p) (h' : Period.parse text' = .ok q) :
    ofParse text true = ofParse text' true ↔ p = q := by
  have hprinted : ∀ {text p}, Period.parse text = .ok p →
      ofParse text true = lines 0 (p.shown.pretty 0) := by
    intro text p h
    rw [ofParse, h]
    rfl
  rw [hprinted h, hprinted h']
  refine ⟨fun hsame => ?_, fun hsame => hsame ▸ rfl⟩
  have hline : p.shown.pretty 0 ++ "\n" = q.shown.pretty 0 ++ "\n" := congrArg output hsame
  have hshown : p.shown.pretty 0 = q.shown.pretty 0 := by simpa using hline
  exact Period.shown_inj.mp (Json.pretty_inj.mp hshown)

/-- The JSON value of a period holds all of it: a value with its structure, and a text it is written
as, belong to no other period. Of the periods that are read from a text, the printed form tells as
much. -/
theorem Period.toJson_faithful (p q : Period) :
    (∀ j, Same p.toJson j → ofJson? j = some p) ∧ ofJson? p.toJson = some p ∧
    (Same p.toJson q.toJson ↔ p = q) ∧ (p.toJson = q.toJson ↔ p = q) ∧
    (∀ depth, p.toJson.pretty depth = q.toJson.pretty depth ↔ p = q) ∧
    ∀ text text', parse text = .ok p → parse text' = .ok q →
      (p.text = q.text ↔ p = q) ∧ (Same p.toJson q.toJson ↔ p.text = q.text) ∧
      (Outcome.ofParse text true = Outcome.ofParse text' true ↔ p = q) := by
  refine ⟨fun j h => ofJson?_of_same h, p.ofJson?_toJson, same_toJson_iff, toJson_inj,
    fun depth => Json.pretty_inj.trans toJson_inj, fun text text' h h' => ?_⟩
  have htext := text_inj_of_parse h h'
  exact ⟨htext, same_toJson_iff.trans htext.symm, Outcome.ofParse_json_inj h h'⟩

/-- Two periods that hold at the same instants, one with a value written twice. -/
theorem Period.toJson_faithful_of_repetition :
    ∃ p q, parse "wd \x7bmon\x7d" = .ok p ∧ parse "wday \x7b2 Mon\x7d" = .ok q ∧
      ¬ Same p.toJson q.toJson ∧ p.text ≠ q.text ∧
      Outcome.ofParse "wd \x7bmon\x7d" true ≠ Outcome.ofParse "wday \x7b2 Mon\x7d" true := by
  let p : Period := ⟨[.clauses [⟨.weekday, [.single 2]⟩]]⟩
  let q : Period := ⟨[.clauses [⟨.weekday, [.single 2, .single 2]⟩]]⟩
  have hp : parse "wd \x7bmon\x7d" = .ok p := rfl
  have hq : parse "wday \x7b2 Mon\x7d" = .ok q := rfl
  have hne : p ≠ q := by decide
  obtain ⟨-, -, hsame, -, -, hparse⟩ := Period.toJson_faithful p q
  obtain ⟨htext, -, hprinted⟩ := hparse _ _ hp hq
  exact ⟨p, q, hp, hq, mt hsame.mp hne, mt htext.mp hne, mt hprinted.mp hne⟩

end Recurrence
