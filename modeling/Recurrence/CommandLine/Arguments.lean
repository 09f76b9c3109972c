import Recurrence.CommandLine.Command

/-! The arguments of the program: a command, then in any order one expression and the options that
the command takes. Reading them is the outermost layer, which no command depends on; arguments that
make no request are read as `none`. -/

namespace Recurrence

inductive Verb
  | check
  | parse
  | scales
  deriving DecidableEq

def Verb.named? : String → Option Verb
  | "check" => some .check
  | "parse" => some .parse
  | "scales" => some .scales
  | _ => none

inductive Flag
  | datetime
  | zone
  | json
  deriving DecidableEq

namespace Flag

def named? : String → Option Flag
  | "--at" => some datetime
  | "--tz" => some zone
  | "--json" => some json
  | _ => none

def belongsTo (verb : Verb) (f : Flag) : Bool := verb = .check || f = .json

end Flag

inductive Request
  | command (command : Command)
  | version
  | help
  deriving DecidableEq

structure Given where
  expression? : Option String
  datetime? : Option String
  zone? : Option String
  json : Bool
  help : Bool
  deriving DecidableEq

namespace Given

def empty : Given := ⟨none, none, none, false, false⟩

def addExpression (verb : Verb) (text : String) (g : Given) : Option Given :=
  if verb = .scales ∨ g.expression?.isSome then none else some { g with expression? := some text }

/-- Adds an option, with its value if it has one, that is not given already. -/
def addFlag (value? : Option String) (g : Given) : Flag → Option Given
  | .datetime => do
    let value ← value?
    if g.datetime?.isSome then none else some { g with datetime? := some value }
  | .zone => do
    let value ← value?
    if g.zone?.isSome then none else some { g with zone? := some value }
  | .json => if value?.isSome || g.json then none else some { g with json := true }

end Given

/-- A single dash is an ordinary text. -/
def looksLikeOption (argument : String) : Bool :=
  match argument.toList with
  | '-' :: _ :: _ => true
  | _ => false

def leadingLetter? (argument : String) : Option Char :=
  match argument.toList with
  | '-' :: c :: _ => if c = '-' then none else some c
  | _ => none

/-- A request for help ends the reading, so letters behind the first do not matter. -/
def asksHelp (argument : String) : Bool :=
  argument = "--help" || leadingLetter? argument = some 'h'

def asksVersion (argument : String) : Bool :=
  argument = "--version" || leadingLetter? argument = some 'V'

/-- The name and the value of an argument such as `--at=V`; the value may be empty. -/
def splitOption (argument : String) : String × Option String :=
  let name := argument.toList.takeWhile (· ≠ '=')
  match argument.toList.drop name.length with
  | _ :: value => (String.ofList name, some (String.ofList value))
  | [] => (argument, none)

/-- Reads what follows the command; after `--` nothing is an option. -/
def readArguments (verb : Verb) (g : Given) : List String → Option Given
  | [] => some g
  | "--" :: rest => rest.foldlM (fun g text => g.addExpression verb text) g
  | argument :: rest =>
    if asksHelp argument then some { g with help := true }
    else if !looksLikeOption argument then do
      readArguments verb (← g.addExpression verb argument) rest
    else
      match (Flag.named? (splitOption argument).1).filter (Flag.belongsTo verb),
        (splitOption argument).2, rest with
      | none, _, _ => none
      | some .json, value?, rest => do readArguments verb (← g.addFlag value? .json) rest
      | some flag, some value, rest => do readArguments verb (← g.addFlag (some value) flag) rest
      | some _, none, [] => none
      | some flag, none, value :: rest =>
        if looksLikeOption value then none
        else do readArguments verb (← g.addFlag (some value) flag) rest

namespace Request

/-- A check that names no zone is made in `defaultZone?`, and without that in UTC. -/
def ofGiven (defaultZone? : Option String) (verb : Verb) (g : Given) : Option Request :=
  if g.help then some .help
  else
    match verb, g.expression? with
    | .scales, _ => some (.command (.scales g.json))
    | .parse, some expression => some (.command (.parse expression g.json))
    | .check, some expression =>
      let zone := (g.zone?.orElse fun _ => defaultZone?).getD "UTC"
      some (.command (.check expression g.datetime? zone g.json))
    | _, none => none

/-- Help is given on the program or on one command. -/
def ofTopics : List String → Option Request
  | [] | ["help"] => some .help
  | [topic] => (Verb.named? topic).map fun _ => .help
  | _ => none

def ofArguments (defaultZone? : Option String) : List String → Option Request
  | [] => none
  | "help" :: topics => ofTopics topics
  | argument :: rest =>
    if asksVersion argument then some .version
    else if asksHelp argument then some .help
    else do
      let verb ← Verb.named? argument
      ofGiven defaultZone? verb (← readArguments verb .empty rest)

end Request

end Recurrence
