import Recurrence.Json
import Recurrence.Period.Printer
import Recurrence.Period.Reader
import Recurrence.Timestamp.Reader
import Recurrence.Timestamp.Writer
import Recurrence.Zone.Catalogue

/-! Checking an instant against a period on the wall clock of a named zone. A zone enters a check by
one number, the offset of its clocks at the instant, and which zones there are is for a table to
say. -/

namespace Recurrence

structure Report where
  inside : Bool
  expression : String
  utc : String
  wallClock : String
  timezone : String
  weekday : String
  deriving DecidableEq

inductive CheckFault
  | expression (fault : Fault)
  | datetime (text : String) (fault : TimestampFault)
  | timezone (name : String)
  deriving DecidableEq

def CheckFault.message : CheckFault → String
  | expression fault => fault.message
  | datetime text fault => s!"Invalid datetime: '{text}': {fault.message}"
  | timezone name => s!"Invalid timezone: '{name}'"

namespace Report

/-- The clocks of the zone are ahead of UTC by `offset`. -/
def ofInstant (period : Period) (instant : DateTime) (timezone : String) (offset : Int) : Report :=
  let here := Timestamp.ofInstant instant offset
  { inside := period.holds here.clock
    expression := period.text
    utc := Timestamp.text ⟨instant, 0⟩
    wallClock := here.text
    timezone
    weekday := here.clock.date.weekdayName }

def toJson (r : Report) : Json :=
  .object [("in_period", .boolean r.inside), ("expression", .text r.expression),
    ("utc", .text r.utc), ("local", .text r.wallClock), ("timezone", .text r.timezone),
    ("weekday", .text r.weekday)]

end Report

/-- The first of the three texts that is not valid is the one reported. -/
def checkIn (zones : ZoneTable) (expression datetime timezone : String) :
    Except CheckFault Report := do
  let period ← (Period.parse expression).mapError .expression
  let timestamp ← (Timestamp.parse datetime).mapError (.datetime datetime)
  match zones timezone with
  | some offsetAt =>
    let instant := timestamp.instant
    return .ofInstant period instant timezone (offsetAt instant)
  | none => throw (.timezone timezone)

section Results

variable {zones : ZoneTable} {expression datetime timezone : String} {period : Period}
  {t : Timestamp}

theorem checkIn_of_fault {fault : Fault} (h : Period.parse expression = .error fault) :
    checkIn zones expression datetime timezone = .error (.expression fault) := by
  rw [checkIn, h]
  rfl

theorem checkIn_of_timestampFault {fault : TimestampFault}
    (h : Period.parse expression = .ok period) (h' : Timestamp.parse datetime = .error fault) :
    checkIn zones expression datetime timezone = .error (.datetime datetime fault) := by
  rw [checkIn, h, h']
  rfl

theorem checkIn_of_no_zone (h : Period.parse expression = .ok period)
    (h' : Timestamp.parse datetime = .ok t) (hzone : zones timezone = none) :
    checkIn zones expression datetime timezone = .error (.timezone timezone) := by
  rw [checkIn, h, h', hzone]
  rfl

theorem checkIn_of_zone {offsetAt : DateTime → Int} (h : Period.parse expression = .ok period)
    (h' : Timestamp.parse datetime = .ok t) (hzone : zones timezone = some offsetAt) :
    checkIn zones expression datetime timezone =
      .ok (.ofInstant period t.instant timezone (offsetAt t.instant)) := by
  rw [checkIn, h, h', hzone]
  rfl

theorem checkIn_eq_ok_iff {c : Report} :
    checkIn zones expression datetime timezone = .ok c ↔
      ∃ period t offsetAt, Period.parse expression = .ok period ∧
        Timestamp.parse datetime = .ok t ∧ zones timezone = some offsetAt ∧
        c = .ofInstant period t.instant timezone (offsetAt t.instant) := by
  cases hperiod : Period.parse expression with
  | error fault => simp [checkIn_of_fault hperiod]
  | ok period =>
    cases htimestamp : Timestamp.parse datetime with
    | error fault => simp [checkIn_of_timestampFault hperiod htimestamp]
    | ok t =>
      cases hzone : zones timezone with
      | none => simp [checkIn_of_no_zone hperiod htimestamp hzone]
      | some offsetAt => simp [checkIn_of_zone hperiod htimestamp hzone, eq_comm]

theorem checkIn_eq_error_iff {fault : CheckFault} :
    checkIn zones expression datetime timezone = .error fault ↔
      (∃ f, Period.parse expression = .error f ∧ fault = .expression f) ∨
      (∃ period, Period.parse expression = .ok period) ∧
        ((∃ f, Timestamp.parse datetime = .error f ∧ fault = .datetime datetime f) ∨
        (∃ t, Timestamp.parse datetime = .ok t) ∧
          zones timezone = none ∧ fault = .timezone timezone) := by
  cases hperiod : Period.parse expression with
  | error f => simp [checkIn_of_fault hperiod, eq_comm]
  | ok period =>
    cases htimestamp : Timestamp.parse datetime with
    | error f => simp [checkIn_of_timestampFault hperiod htimestamp, eq_comm]
    | ok t =>
      cases hzone : zones timezone with
      | none => simp [checkIn_of_no_zone hperiod htimestamp hzone, eq_comm]
      | some offsetAt => simp [checkIn_of_zone hperiod htimestamp hzone]

end Results

/-- A check in the zones of the catalogue. -/
def check : String → String → String → Except CheckFault Report := checkIn .named

end Recurrence
