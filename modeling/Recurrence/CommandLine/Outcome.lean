import Recurrence.CommandLine.Arguments

/-! The outcome of the program for the arguments it is given, with the zones that it has. -/

namespace Recurrence

namespace Outcome

def usage : String :=
  "Usage: inperiod check EXPRESSION [--at DATETIME] [--tz ZONE] [--json]\n" ++
  "       inperiod parse EXPRESSION [--json]\n" ++
  "       inperiod scales [--json]\n" ++
  "       inperiod --version\n"

def ofArguments (now : DateTime) (defaultZone? : Option String) (arguments : List String) :
    Outcome :=
  match Request.ofArguments defaultZone? arguments with
  | some (.command command) => ofCommand .named now command
  | some .version => lines 0 "inperiod 0.1.0"
  | some .help => ⟨0, usage, ""⟩
  | none => ⟨2, "", usage⟩

end Outcome

end Recurrence
