import Recurrence.Json
import Recurrence.Period.Basic

/-! The structure of a period as a JSON value. -/

namespace Recurrence

def Span.toJson (r : Span) : Json := .object [("low", .number r.low), ("high", .number r.high)]

def Clause.toJson (c : Clause) : Json :=
  .object [("scale", .text c.scale.name), ("ranges", .list (c.spans.map Span.toJson))]

def SubPeriod.toJson : SubPeriod → Json
  | always => .object [("kind", .text "always")]
  | never => .object [("kind", .text "never")]
  | clauses cs => .object [("kind", .text "clauses"), ("clauses", .list (cs.map Clause.toJson))]

def Period.toJson (p : Period) : Json := .list (p.subPeriods.map SubPeriod.toJson)

end Recurrence
