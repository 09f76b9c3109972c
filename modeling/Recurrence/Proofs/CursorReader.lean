import Recurrence.Proofs.EarliestFault

/-! Reading by recursive descent. The bytes of a text are cut into marks first, and then a cursor
moves over the marks: each part of a period has a reader of its own, that looks at the mark under
the cursor and decides whether to move on. Only the order of looking and moving keeps the cursor on
the marks and makes the loops end; a loop that goes on after its last pass is a mishap as well. -/

namespace Recurrence

/-- What no reader should come to. -/
inductive Mishap
  /-- A loop has not ended within its passes. -/
  | endless
  /-- The cursor is behind the last mark, or leaves it. -/
  | pastEnd
  /-- A text is cut within a character. -/
  | withinCharacter
  /-- A clause or a value is read where no word stands. -/
  | noWord
  /-- Marks are left over behind the last sub-period. -/
  | unread
  deriving DecidableEq

inductive Halt
  | fault (fault : Fault)
  | mishap (mishap : Mishap)
  deriving DecidableEq

/-- Behind the tokens of a text stands the mark of its end. -/
abbrev Mark := Option Lexeme × Nat

/-- A reader that moves a cursor. -/
abbrev Descent := StateT Nat (Except Halt)

namespace Descent

section Bytes

variable (text : String)

def slice (start stop : Nat) : Except Halt String :=
  if String.Pos.Raw.isValid text ⟨start⟩ ∧ String.Pos.Raw.isValid text ⟨stop⟩ ∧ start ≤ stop then
    return String.Pos.Raw.extract text ⟨start⟩ ⟨stop⟩
  else throw (.mishap .withinCharacter)

def byteAt? (i : Nat) : Option Char := text.toByteArray.data[i]?.map Char.ofUInt8

def wordEnd : Nat → Nat → Except Halt Nat
  | 0, _ => throw (.mishap .endless)
  | passes + 1, i =>
    match byteAt? text i with
    | some c => if c.isAlphanum then wordEnd passes (i + 1) else return i
    | none => return i

/-- The marks of a text from its byte `i` on, put behind those that are `found`. -/
def marksFrom : Nat → Nat → List Mark → Except Halt (List Mark)
  | 0, _, _ => throw (.mishap .endless)
  | passes + 1, i, found =>
    match byteAt? text i with
    | none => return found ++ [(none, text.utf8ByteSize)]
    | some c =>
      if isBlank c then marksFrom passes (i + 1) found
      else
        match Lexeme.sign? c with
        | some sign => marksFrom passes (i + 1) (found ++ [(some sign, i)])
        | none =>
          if c.isAlphanum then do
            let stop ← wordEnd text (passes + 1) i
            let run ← slice text i stop
            marksFrom passes stop (found ++ [(some (.word (run.toList.map Char.toLower)), i)])
          else do
            let rest ← slice text i text.utf8ByteSize
            throw (.fault (.intruder (rest.toList.headD '\ufffd') i))

end Bytes

section Marks

variable (marks : List Mark)

def current : Descent Mark := do
  match marks[← get]? with
  | some mark => return mark
  | none => throw (.mishap .pastEnd)

/-- Moves the cursor to the next mark, which there has to be. -/
def advance : Descent Unit := do
  let k ← get
  if k + 1 < marks.length then set (k + 1) else throw (.mishap .pastEnd)

def value (s : Scale) : Descent Nat := do
  match ← current marks with
  | (some (.word letters), _) =>
    match s.valueOf letters with
    | .ok value =>
      advance marks
      return value
    | .error fault => throw (.fault (.value fault))
  | _ => throw (.mishap .noWord)

def span (s : Scale) : Descent Span := do
  let low ← value marks s
  match ← current marks with
  | (some .dash, p) =>
    advance marks
    match ← current marks with
    | (some (.word _), _) =>
      let high ← value marks s
      match ← current marks with
      | (some .dash, q) => throw (.fault (.span .thirdBound s q))
      | _ => return ⟨low, high⟩
    | _ => throw (.fault (.span .noUpperBound s p))
  | _ => return .single low

/-- The spans up to the closing brace, put behind those that stand before. -/
def spans (s : Scale) (brace : Nat) : Nat → List Span → Descent (List Span)
  | 0, _ => throw (.mishap .endless)
  | passes + 1, before => do
    match ← current marks with
    | (some .closing, _) =>
      advance marks
      return before
    | (some (.word _), _) =>
      let r ← span marks s
      spans s brace passes (before ++ [r])
    | (some .opening, p) => throw (.fault (.nestedBrace p))
    | (some .dash, p) => throw (.fault (.span .noLowerBound s p))
    | _ => throw (.fault (.openBrace s brace))

def clause (passes : Nat) : Descent Clause := do
  match ← current marks with
  | (some (.word letters), p) =>
    match Scale.named? letters with
    | none => throw (.fault (.unknownScale letters p))
    | some s =>
      advance marks
      match ← current marks with
      | (some .opening, brace) =>
        advance marks
        let rs ← spans marks s brace passes []
        if rs.isEmpty then throw (.fault (.noValues s brace)) else return ⟨s, rs⟩
      | (found, q) => throw (.fault (.unexpected found .brace q))
  | _ => throw (.mishap .noWord)

def clauses : Nat → List Clause → Descent (List Clause)
  | 0, _ => throw (.mishap .endless)
  | passes + 1, before => do
    match ← current marks with
    | (none, _) | (some .comma, _) => return before
    | (some (.word _), _) =>
      let c ← clause marks (passes + 1)
      clauses passes (before ++ [c])
    | (some .closing, p) => throw (.fault (.strayBrace p))
    | (found, p) => throw (.fault (.unexpected found .scale p))

def keyword? : Option Lexeme → Option SubPeriod
  | some (.word letters) => SubPeriod.ofWord? letters
  | _ => none

def subPeriod (passes : Nat) : Descent SubPeriod := do
  match ← current marks with
  | (none, p) | (some .comma, p) => throw (.fault (.emptySubPeriod p))
  | (found, _) =>
    match keyword? found with
    | some sub =>
      advance marks
      match ← current marks with
      | (none, _) | (some .comma, _) => return sub
      | (next, q) => throw (.fault (.unexpected next .separator q))
    | none =>
      let cs ← clauses marks passes []
      return .ofClauses cs

/-- The sub-periods behind the commas, put behind those that stand before. -/
def subPeriods : Nat → List SubPeriod → Descent (List SubPeriod)
  | 0, _ => throw (.mishap .endless)
  | passes + 1, before => do
    match ← current marks with
    | (some .comma, _) =>
      advance marks
      let sub ← subPeriod marks (passes + 1)
      subPeriods passes (before ++ [sub])
    | _ => return before

def period (passes : Nat) : Descent Period := do
  match ← current marks with
  | (none, _) => return .unconstrained
  | _ =>
    let sub ← subPeriod marks passes
    let subs ← subPeriods marks passes [sub]
    match ← current marks with
    | (none, _) => return ⟨subs⟩
    | _ => throw (.mishap .unread)

end Marks

/-- Every loop may make so many passes. -/
def parse (passes : Nat) (text : String) : Except Halt Period := do
  let marks ← marksFrom text passes 0 []
  (period marks passes).run' 0

end Descent

end Recurrence
