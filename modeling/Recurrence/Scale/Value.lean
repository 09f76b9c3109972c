import Recurrence.Scale.Basic

/-! Values as they are written: a number on every scale, and besides it the names of weekdays and
months and the hours of a twelve-hour clock. -/

namespace Recurrence

def greatestNumber : Nat := 4294967295

def digits? (word : List Char) : Option Nat :=
  if word ≠ [] ∧ word.all Char.isDigit then some (Nat.ofDigitChars 10 word 0) else none

/-- A number may have one plus sign in front. -/
def numeral? : List Char → Option Nat
  | '+' :: word => digits? word
  | word => digits? word

def weekdayHeads : List String := ["su", "mo", "tu", "we", "th", "fr", "sa"]

def monthHeads : List String :=
  ["jan", "feb", "mar", "apr", "may", "jun", "jul", "aug", "sep", "oct", "nov", "dec"]

/-- The place, from 1, of the head that a word of letters begins with: the rest of it is free. -/
def headNumber? (heads : List String) (word : List Char) : Option Nat :=
  if word.all Char.isAlpha then
    (heads.findIdx? fun head => head.toList.isPrefixOf word).map (· + 1)
  else none

/-- The hours before the half of the day that a clock hour ends with. -/
def halfDay? (ending : List Char) : Option Nat :=
  if ending = ['a', 'm'] then some 0
  else if ending = ['p', 'm'] then some 12
  else none

/-- A clock hour is 1 to 12 before `am` or `pm`; the twelfth comes before the first. -/
def clockHour? (word : List Char) : Option Nat := do
  let half ← halfDay? (word.drop (word.length - 2))
  let hour ← digits? (word.take (word.length - 2))
  if 1 ≤ hour ∧ hour ≤ 12 then some (hour % 12 + half) else none

def hourName? (word : List Char) : Option Nat :=
  if word = "noon".toList then some 12
  else if word = "midnight".toList then some 0
  else clockHour? word

namespace Scale

def symbol? (word : List Char) : Scale → Option Nat
  | weekday => headNumber? weekdayHeads word
  | month => headNumber? monthHeads word
  | hour => hourName? word
  | _ => none

end Scale

inductive ValueFault
  /-- A row of digits above `greatestNumber`. -/
  | tooLarge (scale : Scale) (word : List Char)
  | unknown (scale : Scale) (word : List Char)
  | outOfRange (scale : Scale) (value least greatest : Nat)
  deriving DecidableEq

namespace Scale

def expectation : Scale → String
  | weekday => "expected a number or a weekday name"
  | month => "expected a number or a month name"
  | hour => "expected 0-23, 1am-12pm, noon or midnight"
  | _ => "an integer value is required"

end Scale

def ValueFault.message : ValueFault → String
  | tooLarge scale word =>
    s!"Invalid value '{String.ofList word}' for {scale.label}: number is too large"
  | unknown scale word =>
    s!"Invalid value '{String.ofList word}' for {scale.label}: {scale.expectation}"
  | outOfRange scale value least greatest =>
    s!"{value} is not valid for {scale.label}: valid values are between {least} and {greatest}"

namespace Scale

def within (s : Scale) (value : Nat) : Except ValueFault Nat :=
  match s.bounds with
  | none => .ok value
  | some (least, greatest) =>
    if least ≤ value ∧ value ≤ greatest then .ok value
    else .error (.outOfRange s value least greatest)

/-- The value a word stands for. A row of digits is never looked up as a name; a number above
`greatestNumber` that is written with a sign is. -/
def valueOf (s : Scale) (word : List Char) : Except ValueFault Nat :=
  match (numeral? word).filter (· ≤ greatestNumber) with
  | some value => s.within value
  | none =>
    if (digits? word).isSome then .error (.tooLarge s word)
    else
      match s.symbol? word with
      | some value => s.within value
      | none => .error (.unknown s word)

end Scale

end Recurrence
