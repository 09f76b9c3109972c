import Std.Time.DateTime.Timestamp
import Recurrence.CommandLine.Outcome

/-! The program: arguments, one variable of the environment and the clock in, text and a status
out. -/

namespace Recurrence

def DateTime.now : IO DateTime := do
  let sinceEpoch ← Std.Time.Timestamp.now
  return epoch.shift sinceEpoch.toSecondsSinceUnixEpoch.val

end Recurrence

open Recurrence in
def main (arguments : List String) : IO UInt32 := do
  let outcome := Outcome.ofArguments (← DateTime.now) (← IO.getEnv "INPERIOD_TZ") arguments
  IO.print outcome.output
  IO.eprint outcome.errors
  return outcome.status.toUInt32
