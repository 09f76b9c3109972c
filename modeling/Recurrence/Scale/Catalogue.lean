import Recurrence.Json
import Recurrence.Scale.Basic

/-! The scales as a reader is shown them: a row of text each, or a JSON value each. -/

namespace Recurrence

namespace Scale

def toJson (s : Scale) : Json :=
  let (least, greatest) : Json × Json :=
    match s.bounds with
    | some (least, greatest) => (.number least, .number greatest)
    | none => (.null, .null)
  .object [("name", .text s.name), ("code", .text s.code), ("min", least), ("max", greatest)]

def boundsText (s : Scale) : String :=
  match s.bounds with
  | some (least, greatest) => s!"{least}-{greatest}"
  | none => "any (0-99 = year in current century)"

def column (width : Nat) (text : String) : String := String.ofList (text.toList.rightpad width ' ')

def row (s : Scale) : String := column 8 s.name ++ " " ++ column 4 s.code ++ " " ++ s.boundsText

end Scale

end Recurrence
