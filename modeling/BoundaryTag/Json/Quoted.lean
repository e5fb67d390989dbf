set_option autoImplicit false

/-! # Quoted strings

Three kinds of failure end the reading of a text: it breaks the grammar, it is grammatical but says
something of the wrong kind, or it ends too early.

A string ends at the first quote that is not escaped. Its body is a row of pieces: characters, and
sixteen-bit units from `\u` escapes. The grammar does not ask how units pair up; what the string
says does, since two surrogates make one character and one alone makes none. -/

namespace BoundaryTag.Json

/-! ## Failures -/

/-- Why reading stopped. -/
inductive Failure where
  /-- The grammar allows nothing that starts like this. -/
  | malformed
  /-- A value of another type, a number outside the range, or a member given twice. -/
  | mistyped
  /-- The text ends inside something. -/
  | truncated
  deriving DecidableEq, Repr

/-- Nothing fits here: the text is malformed, or truncated if it is at its end. -/
def Failure.ofRest {α : Type} : List α → Failure
  | [] => .truncated
  | _ :: _ => .malformed

/-- Takes the given characters off the front and answers the rest. -/
def scanChars : List Char → List Char → Except Failure (List Char)
  | [], rest => .ok rest
  | _ :: _, [] => .error .truncated
  | c :: cs, d :: rest => if c = d then scanChars cs rest else .error .malformed

theorem scanChars_length_le {cs s rest : List Char} (h : scanChars cs s = .ok rest) :
    rest.length ≤ s.length := by
  fun_induction scanChars cs s with
  | case1 => cases h; exact Nat.le_refl _
  | case2 => cases h
  | case3 c cs rest' ih => exact Nat.le_succ_of_le (ih h)
  | case4 => cases h

/-! ## Strings -/

/-- A part of a string's body. -/
inductive Piece where
  | char (c : Char)
  /-- A unit written as four hexadecimal digits. -/
  | unit (n : Nat)
  deriving DecidableEq

/-- The body of a string as far as it goes, and what comes after the closing quote, or why there is
    none. -/
structure Quoted where
  pieces : List Piece
  after : Except Failure (List Char)

namespace Quoted

/-! ## Scanning -/

/-- The character that an escape of one letter stands for. -/
def escaped? : Char → Option Char
  | '"' => some '"'
  | '\\' => some '\\'
  | '/' => some '/'
  | 'b' => some '\x08'
  | 'f' => some '\x0c'
  | 'n' => some '\n'
  | 'r' => some '\r'
  | 't' => some '\t'
  | _ => none

/-- The value of a hexadecimal digit. -/
def hexValue? (c : Char) : Option Nat :=
  if '0' ≤ c ∧ c ≤ '9' then some (c.toNat - '0'.toNat)
  else if 'a' ≤ c ∧ c ≤ 'f' then some (c.toNat - 'a'.toNat + 10)
  else if 'A' ≤ c ∧ c ≤ 'F' then some (c.toNat - 'A'.toNat + 10)
  else none

/-- The unit that hexadecimal digits spell. -/
def unit? (digits : List Char) : Option Nat :=
  digits.foldlM (fun n c => (hexValue? c).map (16 * n + ·)) 0

/-- Whether a text has fewer than four bytes in UTF-8. -/
def lacksFourBytes (s : List Char) : Bool :=
  (s.take 4).foldl (fun n c => n + c.utf8Size) 0 < 4

/-- A body that stops here for a reason. -/
def broken (e : Failure) : Quoted :=
  ⟨[], .error e⟩

/-- A body with one more piece in front. -/
def push (p : Piece) (q : Quoted) : Quoted :=
  { q with pieces := p :: q.pieces }

/-- Scans a string from after its opening quote. Control characters have to be escaped. Whether four
    bytes are left for the digits of a unit is asked before the digits are looked at. -/
def scan : List Char → Quoted
  | [] => broken .truncated
  | '"' :: s => ⟨[], .ok s⟩
  | ['\\'] => broken .truncated
  | '\\' :: 'u' :: s =>
    if lacksFourBytes s then
      broken .truncated
    else
      match s with
      | a :: b :: c :: d :: s' =>
        match unit? [a, b, c, d] with
        | some n => (scan s').push (.unit n)
        | none => broken .malformed
      | _ => broken .malformed
  | '\\' :: c :: s =>
    match escaped? c with
    | some d => (scan s).push (.char d)
    | none => broken .malformed
  | c :: s => if c < ' ' then broken .malformed else (scan s).push (.char c)

theorem scan_length_le {s rest : List Char} (h : (scan s).after = .ok rest) :
    rest.length ≤ s.length := by
  fun_induction scan s with
  | case2 s => cases h; exact Nat.le_succ _
  | case5 a b c d s' _ n _ ih =>
    have := ih h
    simp only [List.length_cons]
    omega
  | case8 s c _ d _ ih =>
    have := ih h
    simp only [List.length_cons]
    omega
  | case11 c s _ _ _ _ _ ih => exact Nat.le_succ_of_le (ih h)
  | _ => cases h

/-! ## What a string says -/

/-- Units that come first in a pair. -/
def isLeading (n : Nat) : Bool :=
  0xd800 ≤ n && n ≤ 0xdbff

/-- Units that come second in a pair. -/
def isTrailing (n : Nat) : Bool :=
  0xdc00 ≤ n && n ≤ 0xdfff

/-- The character of a pair of units. -/
def paired (n k : Nat) : Char :=
  Char.ofNat (0x10000 + (n - 0xd800) * 0x400 + (k - 0xdc00))

/-- The characters of a body. A unit that needs a partner and has none is malformed, unless the body
    broke off right there, for then the break is what counts. -/
def decode (ending : Except Failure Unit) : List Piece → Except Failure (List Char)
  | [] => ending.map fun _ => []
  | .char c :: ps => (c :: ·) <$> decode ending ps
  | .unit n :: ps =>
    if isTrailing n then
      .error .malformed
    else if isLeading n then
      match ps with
      | .unit k :: ps =>
        if isTrailing k then (paired n k :: ·) <$> decode ending ps else .error .malformed
      | .char _ :: _ => .error .malformed
      | [] => ending.bind fun _ => .error .malformed
    else
      (Char.ofNat n :: ·) <$> decode ending ps

/-- Whether the string is complete. -/
def grammar (q : Quoted) : Except Failure Unit :=
  q.after.map fun _ => ()

/-- What the string says. -/
def content (q : Quoted) : Except Failure (List Char) :=
  decode q.grammar q.pieces

end Quoted

end BoundaryTag.Json
