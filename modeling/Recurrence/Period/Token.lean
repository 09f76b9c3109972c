/-! The tokens of a written period: words of letters and digits, and the four signs. Blanks only
part one word from another, and capital letters count as small ones. -/

namespace Recurrence

inductive Lexeme
  | word (letters : List Char)
  | opening
  | closing
  | comma
  | dash
  deriving DecidableEq

namespace Lexeme

def sign? : Char → Option Lexeme
  | '{' => some opening
  | '}' => some closing
  | ',' => some comma
  | '-' => some dash
  | _ => none

def text : Lexeme → String
  | word letters => String.ofList letters
  | opening => "\x7b"
  | closing => "\x7d"
  | comma => ","
  | dash => "-"

end Lexeme

structure Token where
  lexeme : Lexeme
  /-- The bytes of UTF-8 before the token. -/
  position : Nat
  deriving DecidableEq

def isBlank (c : Char) : Bool :=
  c = ' ' || c = '\t' || c = '\n' || c = '\x0c' || c = '\r'

def isAdmitted (c : Char) : Bool := isBlank c || c.isAlphanum || (Lexeme.sign? c).isSome

def byteLength : List Char → Nat
  | [] => 0
  | c :: cs => c.utf8Size + byteLength cs

/-- The first character that is not admitted, with its position; the text begins at `p`. -/
def intruder? (p : Nat) : List Char → Option (Char × Nat)
  | [] => none
  | c :: cs => if isAdmitted c then intruder? (p + c.utf8Size) cs else some (c, p)

/-- Puts a letter at `p` in front: it belongs to a word that follows at once. -/
def consLetter (letter : Char) (p : Nat) : List Token → List Token
  | ⟨.word letters, q⟩ :: ts =>
    if q = p + 1 then ⟨.word (letter :: letters), p⟩ :: ts
    else ⟨.word [letter], p⟩ :: ⟨.word letters, q⟩ :: ts
  | ts => ⟨.word [letter], p⟩ :: ts

def tokens (p : Nat) : List Char → List Token
  | [] => []
  | c :: cs =>
    if c.isAlphanum then consLetter c.toLower p (tokens (p + c.utf8Size) cs)
    else
      match Lexeme.sign? c with
      | some sign => ⟨sign, p⟩ :: tokens (p + c.utf8Size) cs
      | none => tokens (p + c.utf8Size) cs

end Recurrence
