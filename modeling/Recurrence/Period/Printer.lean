import Recurrence.Period.Basic

/-! The written form of a period: full names of scales, numbers for values, one space between two
spans or clauses and a comma and a space between two sub-periods. -/

namespace Recurrence

def Span.text (r : Span) : String :=
  if r.low = r.high then toString r.low else toString r.low ++ "-" ++ toString r.high

def Clause.text (c : Clause) : String :=
  c.scale.name ++ " \x7b" ++ " ".intercalate (c.spans.map Span.text) ++ "\x7d"

def SubPeriod.text : SubPeriod → String
  | always => "always"
  | never => "never"
  | clauses cs => " ".intercalate (cs.map Clause.text)

def Period.text (p : Period) : String := ", ".intercalate (p.subPeriods.map SubPeriod.text)

end Recurrence
