import Recurrence.Scale.Basic

/-! Recurring periods of time. A period is any one of its sub-periods, a sub-period is all of its
clauses at once, and a clause holds one scale to any one of its spans. -/

namespace Recurrence

/-- The values from `low` to `high`, both included; where `high` is less, those from `low` to the
end of the scale and from its beginning to `high`. -/
structure Span where
  low : Nat
  high : Nat
  deriving DecidableEq

namespace Span

def single (value : Nat) : Span := ⟨value, value⟩

def wraps (r : Span) : Bool := r.high < r.low

/-- The bounds are compared after each is read as a field of the scale at `t`. -/
def holds (scale : Scale) (t : DateTime) (r : Span) : Bool :=
  let low := scale.denote t r.low
  let high := scale.denote t r.high
  if low ≤ high then low ≤ scale.field t && scale.field t ≤ high
  else low ≤ scale.field t || scale.field t ≤ high

end Span

structure Clause where
  scale : Scale
  spans : List Span
  deriving DecidableEq

def Clause.holds (t : DateTime) (c : Clause) : Bool := c.spans.any (Span.holds c.scale t)

inductive SubPeriod
  | always
  | never
  | clauses (cs : List Clause)
  deriving DecidableEq

namespace SubPeriod

def holds (t : DateTime) : SubPeriod → Bool
  | always => true
  | never => false
  | clauses cs => cs.all (Clause.holds t)

/-- Puts the spans of a clause behind those of the clause that has its scale already, or the clause
itself last. -/
def addClause (c : Clause) : List Clause → List Clause
  | [] => [c]
  | d :: ds => if d.scale = c.scale then { d with spans := d.spans ++ c.spans } :: ds
    else d :: addClause c ds

/-- The sub-period with one clause for each scale that is named, in the order of first mention. -/
def ofClauses (cs : List Clause) : SubPeriod :=
  clauses (cs.foldl (fun merged c => addClause c merged) [])

end SubPeriod

/-- Without a sub-period a period is unconstrained. -/
structure Period where
  subPeriods : List SubPeriod
  deriving DecidableEq

namespace Period

def unconstrained : Period := ⟨[]⟩

def isUnconstrained (p : Period) : Bool := p.subPeriods.isEmpty

def holds (t : DateTime) (p : Period) : Bool :=
  p.isUnconstrained || p.subPeriods.any (SubPeriod.holds t)

end Period

end Recurrence
