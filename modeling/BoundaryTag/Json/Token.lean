import BoundaryTag.Json.Numeral
import BoundaryTag.Json.Quoted

set_option autoImplicit false

/-! # Tokens

A JSON text is a row of tokens with blanks between them. Where the text cannot be cut further, the
last token says so, and a reader that never gets there never notices: of all that is wrong with a
text, what comes first counts. -/

namespace BoundaryTag.Json

/-- The values that are words. -/
inductive Literal where
  | null
  | bool (b : Bool)
  deriving DecidableEq

/-- The tokens of a text. -/
inductive Token where
  | beginArray
  | endArray
  | beginObject
  | endObject
  | comma
  | colon
  /-- A string: whether it is complete, and what it says. -/
  | text (grammar : Except Failure Unit) (content : Except Failure (List Char))
  | number (value : Except Failure Numeral)
  | literal (value : Except Failure Literal)
  /-- A character that starts no token. -/
  | stray

namespace Token

/-- The characters between tokens. -/
def isBlank (c : Char) : Bool :=
  c = ' ' || c = '\t' || c = '\n' || c = '\r'

/-- A word that stands for a value. -/
def scanLiteral (word : List Char) (value : Literal) (s : List Char) : Token × List Char :=
  match scanChars word s with
  | .ok rest => (literal (.ok value), rest)
  | .error e => (literal (.error e), [])

/-- A string whose opening quote is gone. -/
def scanText (s : List Char) : Token × List Char :=
  let q := Quoted.scan s
  match q.after with
  | .ok rest => (text q.grammar q.content, rest)
  | .error _ => (text q.grammar q.content, [])

/-- A numeral. -/
def scanNumber (s : List Char) : Token × List Char :=
  match Numeral.scan s with
  | .ok (n, rest) => (number (.ok n), rest)
  | .error e => (number (.error e), [])

/-- The token that starts with a character, and the rest of the text; nothing is left after a token
    that is not complete. -/
def scan (c : Char) (s : List Char) : Token × List Char :=
  match c with
  | '[' => (beginArray, s)
  | ']' => (endArray, s)
  | '\x7b' => (beginObject, s)
  | '\x7d' => (endObject, s)
  | ',' => (comma, s)
  | ':' => (colon, s)
  | '"' => scanText s
  | 'n' => scanLiteral ['u', 'l', 'l'] .null s
  | 't' => scanLiteral ['r', 'u', 'e'] (.bool true) s
  | 'f' => scanLiteral ['a', 'l', 's', 'e'] (.bool false) s
  | c => if c = '-' ∨ c.isDigit then scanNumber (c :: s) else (stray, [])

theorem scanLiteral_length_le (word : List Char) (value : Literal) (s : List Char) :
    (scanLiteral word value s).2.length ≤ s.length := by
  unfold scanLiteral
  split
  · exact scanChars_length_le ‹_›
  · exact Nat.zero_le _

theorem scanText_length_le (s : List Char) : (scanText s).2.length ≤ s.length := by
  unfold scanText
  simp only
  split
  · exact Quoted.scan_length_le ‹_›
  · exact Nat.zero_le _

theorem scanNumber_length_le (c : Char) (s : List Char) :
    (scanNumber (c :: s)).2.length ≤ s.length := by
  unfold scanNumber
  split
  · exact Nat.le_of_lt_succ (Numeral.scan_length_lt ‹_›)
  · exact Nat.zero_le _

theorem scan_length_le (c : Char) (s : List Char) : (scan c s).2.length ≤ s.length := by
  unfold scan
  split
  case h_7 => exact scanText_length_le s
  case h_8 => exact scanLiteral_length_le ..
  case h_9 => exact scanLiteral_length_le ..
  case h_10 => exact scanLiteral_length_le ..
  case h_11 =>
    split
    · exact scanNumber_length_le ..
    · exact Nat.zero_le _
  all_goals exact Nat.le_refl _

/-- The tokens of a text. -/
def ofText : List Char → List Token
  | [] => []
  | c :: s =>
    if isBlank c then
      ofText s
    else
      (scan c s).1 :: ofText (scan c s).2
termination_by s => s.length
decreasing_by
  · exact Nat.lt_succ_self _
  · exact Nat.lt_succ_of_le (scan_length_le c s)

/-! ## Reading one token as a value -/

/-- Why a token is not the start of the value that is wanted. A complete value of another type is a
    type error, and so is any array or object; a number outside the range breaks the grammar. -/
def mismatch : Token → Failure
  | text _ (.error e) => e
  | text _ (.ok _) => .mistyped
  | number (.error e) => e
  | number (.ok n) => if n.inRange then .mistyped else .malformed
  | literal (.error e) => e
  | literal (.ok _) => .mistyped
  | beginArray => .mistyped
  | beginObject => .mistyped
  | _ => .malformed

/-- The token as a word. -/
def word (t : Token) : Except Failure Nat :=
  match t with
  | number (.ok n) =>
    match n.word? with
    | some w => .ok w
    | none => .error t.mismatch
  | _ => .error t.mismatch

/-- The token as a truth value. -/
def bool (t : Token) : Except Failure Bool :=
  match t with
  | literal (.ok (.bool b)) => .ok b
  | _ => .error t.mismatch

end Token

end BoundaryTag.Json
