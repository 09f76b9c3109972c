import Recurrence.Period.Token
import Recurrence.Timestamp.Basic

/-! Reading a timestamp in the form of RFC 3339, from left to right up to the first mistake. -/

namespace Recurrence

inductive TimestampFault
  | tooShort
  | invalid
  | outOfRange
  | trailing
  deriving DecidableEq

def TimestampFault.message : TimestampFault → String
  | tooShort => "premature end of input"
  | invalid => "input contains invalid characters"
  | outOfRange => "input is out of range"
  | trailing => "trailing input"

namespace Timestamp

/-- A part of the form: its value and the text behind it. -/
abbrev Reader (α : Type) := StateT (List Char) (Except TimestampFault) α

def readDigits (count : Nat) : Reader Nat := fun text =>
  if (text.take count).length = count ∧ (text.take count).all Char.isDigit then
    .ok (Nat.ofDigitChars 10 (text.take count) 0, text.drop count)
  else .error .invalid

def readOne (accept : Char → Bool) : Reader Unit
  | [] => .error .tooShort
  | c :: text => if accept c then .ok ((), text) else .error .invalid

/-- Fails where fewer bytes than that are left. -/
def need (bytes : Nat) : Reader Unit := fun text =>
  if byteLength text < bytes then .error .tooShort else .ok ((), text)

def readDate : Reader Date := do
  let year ← readDigits 4
  readOne (· = '-')
  let month ← readDigits 2
  readOne (· = '-')
  let day ← readDigits 2
  match Date.of? year month day with
  | some date => return date
  | none => throw .outOfRange

/-- The digits of a fraction as nanoseconds: nine of them count. -/
def nanoseconds (digits : List Char) : Nat :=
  Nat.ofDigitChars 10 ((digits.take 9).rightpad 9 '0') 0

def readFraction : Reader Nat
  | '.' :: text =>
    if text.isEmpty then .error .tooShort
    else if (text.takeWhile Char.isDigit).isEmpty then .error .invalid
    else .ok (nanoseconds (text.takeWhile Char.isDigit), text.dropWhile Char.isDigit)
  | text => .ok (0, text)

/-- A sixtieth second is the leap second after the second before it. -/
def timeOf? (hour minute second nanosecond : Nat) : Option Time :=
  if second = 60 then Time.of? hour minute 59 nanosecond true
  else Time.of? hour minute second nanosecond false

def readTime : Reader Time := do
  let hour ← readDigits 2
  readOne (· = ':')
  let minute ← readDigits 2
  readOne (· = ':')
  let second ← readDigits 2
  let nanosecond ← readFraction
  match timeOf? hour minute second nanosecond with
  | some time => return time
  | none => throw .outOfRange

def readShift : Reader Nat := do
  need 2
  let hours ← readDigits 2
  readOne (· = ':')
  need 2
  let minutes ← readDigits 2
  if 60 ≤ minutes then throw .outOfRange
  return hours * 3600 + minutes * 60

/-- A minus is a hyphen or the sign U+2212. -/
def sign? : Char → Option Int
  | '+' => some 1
  | '-' | '\u2212' => some (-1)
  | _ => none

def readOffset : Reader Int
  | [] => .error .tooShort
  | c :: text =>
    if c = 'Z' ∨ c = 'z' then .ok (0, text)
    else
      match sign? c with
      | some sign => do
        let (seconds, rest) ← readShift text
        return (sign * seconds, rest)
      | none => .error .invalid

def readDateTime : Reader DateTime := do
  need 19
  let date ← readDate
  readOne fun c => c = 'T' || c = 't' || c = ' '
  return ⟨date, ← readTime⟩

/-- An offset is less than a day. -/
def ofChars (text : List Char) : Except TimestampFault Timestamp := do
  let (clock, text) ← readDateTime text
  let (offset, text) ← readOffset text
  if !text.isEmpty then throw .trailing
  if 86400 ≤ offset.natAbs then throw .outOfRange
  return ⟨clock, offset⟩

def parse (text : String) : Except TimestampFault Timestamp := ofChars text.toList

end Timestamp

end Recurrence
