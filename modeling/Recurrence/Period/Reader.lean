import Recurrence.Period.Basic
import Recurrence.Period.Fault

/-! Reading a period, one token after the other. A sub-period is `always` (also written `none`) or
`never`, or one clause or more; a clause is a scale and, in braces, one value or span or more. A
reading holds what the tokens so far have settled and nothing of how they were written, and a token
is refused as soon as no text behind it could make the whole a period. -/

namespace Recurrence

/-- What stands last between the braces, where more tokens may change what it means. -/
inductive Item
  | none
  | value (low : Nat)
  | dash (low position : Nat)
  | span (low high : Nat)
  deriving DecidableEq

/-- A clause between its braces; `brace` is the position of the first. -/
structure Listing where
  scale : Scale
  brace : Nat
  spans : List Span
  item : Item
  deriving DecidableEq

namespace Listing

/-- The spans when nothing more is to come for the last one. -/
def settled (l : Listing) : Except Fault (List Span) :=
  match l.item with
  | .none => .ok l.spans
  | .value low => .ok (l.spans ++ [.single low])
  | .dash _ p => .error (.span .noUpperBound l.scale p)
  | .span low high => .ok (l.spans ++ [⟨low, high⟩])

def word (letters : List Char) (l : Listing) : Except Fault Listing :=
  match l.scale.valueOf letters with
  | .error fault => .error (.value fault)
  | .ok value =>
    match l.item with
    | .none => .ok { l with item := .value value }
    | .value low => .ok { l with spans := l.spans ++ [.single low], item := .value value }
    | .dash low _ => .ok { l with item := .span low value }
    | .span low high => .ok { l with spans := l.spans ++ [⟨low, high⟩], item := .value value }

def dash (p : Nat) (l : Listing) : Except Fault Listing :=
  match l.item with
  | .none => .error (.span .noLowerBound l.scale p)
  | .value low => .ok { l with item := .dash low p }
  | .dash _ q => .error (.span .noUpperBound l.scale q)
  | .span _ _ => .error (.span .thirdBound l.scale p)

def closing (l : Listing) : Except Fault Clause := do
  let spans ← l.settled
  if spans.isEmpty then throw (.noValues l.scale l.brace)
  return ⟨l.scale, spans⟩

end Listing

/-- How far a sub-period has been read; `clauses` are those that stand before, as written. -/
inductive Progress
  | start
  | whole (sub : SubPeriod)
  | clauses (clauses : List Clause)
  | scale (clauses : List Clause) (scale : Scale)
  | listing (clauses : List Clause) (listing : Listing)
  deriving DecidableEq

def SubPeriod.ofWord? (word : List Char) : Option SubPeriod :=
  if word = "always".toList ∨ word = "none".toList then some always
  else if word = "never".toList then some never
  else none

namespace Progress

def clause (clauses : List Clause) (letters : List Char) (p : Nat) : Except Fault Progress :=
  match Scale.named? letters with
  | some s => .ok (.scale clauses s)
  | none => .error (.unknownScale letters p)

def word (letters : List Char) (p : Nat) : Progress → Except Fault Progress
  | start =>
    match SubPeriod.ofWord? letters with
    | some sub => .ok (.whole sub)
    | none => clause [] letters p
  | whole _ => .error (.unexpected (some (.word letters)) .separator p)
  | clauses cs => clause cs letters p
  | scale _ _ => .error (.unexpected (some (.word letters)) .brace p)
  | listing cs l => return .listing cs (← l.word letters)

def opening (p : Nat) : Progress → Except Fault Progress
  | start | clauses _ => .error (.unexpected (some .opening) .scale p)
  | whole _ => .error (.unexpected (some .opening) .separator p)
  | scale cs s => .ok (.listing cs ⟨s, p, [], .none⟩)
  | listing _ l => do
    let _ ← l.settled
    throw (.nestedBrace p)

def closing (p : Nat) : Progress → Except Fault Progress
  | start | clauses _ => .error (.strayBrace p)
  | whole _ => .error (.unexpected (some .closing) .separator p)
  | scale _ _ => .error (.unexpected (some .closing) .brace p)
  | listing cs l => return .clauses (cs ++ [← l.closing])

def dash (p : Nat) : Progress → Except Fault Progress
  | start | clauses _ => .error (.unexpected (some .dash) .scale p)
  | whole _ => .error (.unexpected (some .dash) .separator p)
  | scale _ _ => .error (.unexpected (some .dash) .brace p)
  | listing cs l => return .listing cs (← l.dash p)

/-- Ends the sub-period at a comma, or at the end of the text where `found` is `none`. -/
def finish (found : Option Lexeme) (p : Nat) : Progress → Except Fault SubPeriod
  | start => .error (.emptySubPeriod p)
  | whole sub => .ok sub
  | clauses cs => .ok (.ofClauses cs)
  | scale _ _ => .error (.unexpected found .brace p)
  | listing _ l => do
    let _ ← l.settled
    throw (.openBrace l.scale l.brace)

end Progress

/-- The sub-periods before the last comma, and what follows it. -/
structure Reading where
  done : List SubPeriod
  progress : Progress
  deriving DecidableEq

namespace Reading

def initial : Reading := ⟨[], .start⟩

def step (r : Reading) (t : Token) : Except Fault Reading :=
  match t.lexeme with
  | .word letters => return { r with progress := ← r.progress.word letters t.position }
  | .opening => return { r with progress := ← r.progress.opening t.position }
  | .closing => return { r with progress := ← r.progress.closing t.position }
  | .dash => return { r with progress := ← r.progress.dash t.position }
  | .comma => return ⟨r.done ++ [← r.progress.finish (some .comma) t.position], .start⟩

def finish (r : Reading) (length : Nat) : Except Fault Period :=
  if r = initial then .ok .unconstrained
  else return ⟨r.done ++ [← r.progress.finish none length]⟩

end Reading

namespace Period

def ofTokens (ts : List Token) (length : Nat) : Except Fault Period := do
  (← ts.foldlM Reading.step Reading.initial).finish length

def ofChars (text : List Char) : Except Fault Period :=
  match intruder? 0 text with
  | some (c, p) => .error (.intruder c p)
  | none => ofTokens (tokens 0 text) (byteLength text)

/-- A blank text is the unconstrained period. -/
def parse (text : String) : Except Fault Period := ofChars text.toList

def holdsAt (text : String) (t : DateTime) : Except Fault Bool := return (← parse text).holds t

end Period

end Recurrence
