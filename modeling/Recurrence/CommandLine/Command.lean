import Recurrence.Period.Json
import Recurrence.Report
import Recurrence.Scale.Catalogue

/-! What each command prints, and the status it ends with. -/

namespace Recurrence

inductive Command
  | check (expression : String) (datetime? : Option String) (zone : String) (json : Bool)
  | parse (expression : String) (json : Bool)
  | scales (json : Bool)
  deriving DecidableEq

structure Outcome where
  status : Nat
  output : String
  errors : String
  deriving DecidableEq

namespace Outcome

def lines (status : Nat) (output : String) : Outcome := ⟨status, output ++ "\n", ""⟩

def refusal (task expression message : String) : Outcome :=
  ⟨2, "", s!"Error: cannot {task} '{expression}': {message}\n"⟩

def ofCheck (zones : ZoneTable) (expression datetime zone : String) (json : Bool) : Outcome :=
  match checkIn zones expression datetime zone with
  | .error fault => refusal "check" expression fault.message
  | .ok report =>
    lines (if report.inside then 0 else 1)
      (if json then report.toJson.pretty 0 else if report.inside then "true" else "false")

/-- The unconstrained period, which has no written form of its own, is shown as `always`. -/
def ofParse (expression : String) (json : Bool) : Outcome :=
  match Period.parse expression with
  | .error fault => refusal "parse" expression fault.message
  | .ok period =>
    lines 0 <|
      if json then
        (Json.object [("canonical", .text period.text), ("sub_periods", period.toJson)]).pretty 0
      else if period.isUnconstrained then "always"
      else period.text

def ofScales (json : Bool) : Outcome :=
  lines 0 <|
    if json then (Json.list (Scale.all.map Scale.toJson)).pretty 0
    else "\n".intercalate (Scale.all.map Scale.row)

/-- An instant in UTC to the second, as a check reads it. -/
def instantText (t : DateTime) : String :=
  t.date.text ++ "T" ++ padded 2 t.time.hour ++ ":" ++ padded 2 t.time.minute ++ ":" ++
    padded 2 t.time.second ++ "Z"

/-- The outcome of a command at the instant `now`, which is checked where no other is given. -/
def ofCommand (zones : ZoneTable) (now : DateTime) : Command → Outcome
  | .check expression datetime? zone json =>
    ofCheck zones expression (datetime?.getD (instantText now)) zone json
  | .parse expression json => ofParse expression json
  | .scales json => ofScales json

end Outcome

end Recurrence
