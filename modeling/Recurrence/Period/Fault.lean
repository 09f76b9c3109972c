import Recurrence.Period.Token
import Recurrence.Scale.Value

/-! Why a text is no period. Positions count bytes of UTF-8 from the beginning of the text. -/

namespace Recurrence

inductive SpanFault
  | noLowerBound
  | noUpperBound
  | thirdBound
  deriving DecidableEq

inductive Wanted
  | scale
  | brace
  | separator
  deriving DecidableEq

inductive Fault
  | intruder (character : Char) (position : Nat)
  | unknownScale (word : List Char) (position : Nat)
  | strayBrace (position : Nat)
  | nestedBrace (position : Nat)
  /-- A sub-period that ends before the brace at `position` is closed. -/
  | openBrace (scale : Scale) (position : Nat)
  | noValues (scale : Scale) (position : Nat)
  | emptySubPeriod (position : Nat)
  | value (fault : ValueFault)
  | span (fault : SpanFault) (scale : Scale) (position : Nat)
  /-- `found` is `none` at the end of the text. -/
  | unexpected (found : Option Lexeme) (wanted : Wanted) (position : Nat)
  deriving DecidableEq

def SpanFault.message : SpanFault → String
  | noLowerBound => "range has no lower bound"
  | noUpperBound => "range has no upper bound"
  | thirdBound => "a range takes exactly two bounds"

def Wanted.text : Wanted → String
  | scale => "a scale"
  | brace => "'\x7b'"
  | separator => "',' or end of expression"

def Fault.message : Fault → String
  | intruder c p => s!"Unexpected character '{c}' at position {p}"
  | unknownScale word p => s!"Unknown scale '{String.ofList word}' at position {p}"
  | strayBrace p => s!"Unbalanced braces: unexpected '\x7d' at position {p}"
  | nestedBrace p => s!"Unbalanced braces: nested '\x7b' at position {p}"
  | openBrace scale p =>
    s!"Unbalanced braces: missing '\x7d' for '{scale.name}' opened at position {p}"
  | noValues scale p => s!"Empty value list for {scale.label} at position {p}"
  | emptySubPeriod p => s!"Empty sub-period at position {p}"
  | value fault => fault.message
  | span fault scale p => s!"Invalid range for {scale.label} at position {p}: {fault.message}"
  | unexpected (some lexeme) wanted p =>
    s!"Unexpected '{lexeme.text}' at position {p}, expected {wanted.text}"
  | unexpected none wanted p =>
    s!"Unexpected end of expression at position {p}, expected {wanted.text}"

end Recurrence
