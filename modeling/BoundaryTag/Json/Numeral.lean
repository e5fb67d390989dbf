import BoundaryTag.Json.Quoted
import BoundaryTag.Steps
import BoundaryTag.Word

set_option autoImplicit false

/-! # Numerals

A numeral has an integer part without needless leading zeros, and may have a sign, a fraction and
an exponent. A plain run of digits is read exactly. Everything else stands for a binary64 number:
its significand is the longest leading run of digits that fits in 64 bits, and significand and power
of ten are rounded, to nearest and ties to even, before they are multiplied. A numeral is in range
if that product is finite. -/

namespace BoundaryTag.Json

/-- A numeral, part by part. -/
structure Numeral where
  negative : Bool
  digits : List Char
  /-- The digits after the point, if there is one. -/
  fraction : Option (List Char)
  /-- Whether the exponent is negative, and its digits. -/
  exponent : Option (Bool × List Char)
  deriving DecidableEq

namespace Numeral

/-! ## Scanning

A scanner answers what it takes off the front of a text, and the rest. -/

/-- A run of digits, at least one. -/
def scanDigits (s : List Char) : Except Failure (List Char × List Char) :=
  match s.takeWhile Char.isDigit with
  | [] => .error (.ofRest s)
  | ds => .ok (ds, s.dropWhile Char.isDigit)

/-- An integer part: a lone zero, or digits that do not start with zero. -/
def scanInteger (s : List Char) : Except Failure (List Char × List Char) := do
  let (ds, rest) ← scanDigits s
  if ds.head? = some '0' ∧ ds ≠ ['0'] then
    throw .malformed
  else
    return (ds, rest)

/-- A point with its digits, if there is a point. -/
def scanFraction : List Char → Except Failure (Option (List Char) × List Char)
  | '.' :: s => do
    let (ds, rest) ← scanDigits s
    return (some ds, rest)
  | s => .ok (none, s)

/-- A sign, if there is one. -/
def scanSign : List Char → Bool × List Char
  | '+' :: s => (false, s)
  | '-' :: s => (true, s)
  | s => (false, s)

/-- An exponent, if there is one. -/
def scanExponent : List Char → Except Failure (Option (Bool × List Char) × List Char)
  | c :: s =>
    if c = 'e' ∨ c = 'E' then do
      let (negative, s) := scanSign s
      let (ds, rest) ← scanDigits s
      return (some (negative, ds), rest)
    else
      .ok (none, c :: s)
  | [] => .ok (none, [])

/-- A numeral without its sign. -/
def scanUnsigned (negative : Bool) (s : List Char) : Except Failure (Numeral × List Char) := do
  let (digits, s) ← scanInteger s
  let (fraction, s) ← scanFraction s
  let (exponent, s) ← scanExponent s
  return ({ negative, digits, fraction, exponent }, s)

/-- A numeral: a minus may come first, a plus may not. -/
def scan : List Char → Except Failure (Numeral × List Char)
  | '-' :: s => scanUnsigned true s
  | s => scanUnsigned false s

/-! ## Values -/

/-- The number that a run of digits spells. -/
def value (digits : List Char) : Nat :=
  Nat.ofDigitChars 10 digits 0

/-- The word that the numeral spells, if it is a plain run of digits and fits in 64 bits. -/
def word? (n : Numeral) : Option Nat :=
  if !n.negative && n.fraction.isNone && n.exponent.isNone && value n.digits < Word.limit then
    some (value n.digits)
  else
    none

/-- Appends digits to a significand as long as it fits in 64 bits. Answers the digits that no
    longer do as well. -/
def appendDigits (significand : Nat) : List Char → Nat × List Char
  | [] => (significand, [])
  | c :: cs =>
    let next := 10 * significand + value [c]
    if next < Word.limit then appendDigits next cs else (significand, c :: cs)

/-- Rounds to 53 significant bits, to nearest and ties to even. -/
def round53 (n : Nat) : Nat :=
  let unit := 1 <<< (n.log2 + 1 - 53)
  let down := n / unit
  let rest := n % unit
  if 2 * rest > unit ∨ (2 * rest = unit ∧ down % 2 = 1) then (down + 1) * unit else down * unit

/-- The least number that rounds to infinity: half a unit above the largest binary64 number. -/
def overflowBound : Nat := 1 <<< 1024 - 1 <<< 970

/-- The largest power of ten below the overflow bound. -/
def maxScale : Nat := 308

/-- The exponent as an integer; zero if there is none. -/
def exponentValue (n : Numeral) : Int :=
  match n.exponent with
  | none => 0
  | some (true, ds) => -(value ds : Int)
  | some (false, ds) => value ds

/-- Whether the numeral stands for a finite number. -/
def inRange (n : Numeral) : Bool :=
  let fraction := n.fraction.getD []
  let (integer, left) := appendDigits 0 n.digits
  let (significand, unused) := appendDigits integer fraction
  let places : Int := fraction.length - unused.length
  let scale : Int := left.length - places + n.exponentValue
  significand == 0 || scale ≤ 0 ||
    (scale ≤ maxScale && round53 significand * round53 (Nat.pow 10 scale.toNat) < overflowBound)

/-! ## Scanning makes progress -/

theorem scanDigits_length_lt {s ds rest : List Char} (h : scanDigits s = .ok (ds, rest)) :
    rest.length < s.length := by
  unfold scanDigits at h
  split at h
  · cases h
  · rename_i hne
    cases h
    have hl := congrArg List.length (List.takeWhile_append_dropWhile (p := Char.isDigit) (l := s))
    rw [List.length_append] at hl
    have hp : 0 < (s.takeWhile Char.isDigit).length := List.length_pos_iff.mpr hne
    omega

theorem scanInteger_length_lt {s ds rest : List Char} (h : scanInteger s = .ok (ds, rest)) :
    rest.length < s.length := by
  rw [scanInteger, bind_eq_ok_iff] at h
  obtain ⟨⟨ds', rest'⟩, hd, h⟩ := h
  dsimp only at h
  split at h
  · cases h
  · cases h
    exact scanDigits_length_lt hd

theorem scanFraction_length_le {s rest : List Char} {f : Option (List Char)}
    (h : scanFraction s = .ok (f, rest)) : rest.length ≤ s.length := by
  unfold scanFraction at h
  split at h
  · obtain ⟨⟨ds, rest'⟩, hd, h⟩ := bind_eq_ok_iff.mp h
    cases h
    exact Nat.le_succ_of_le (Nat.le_of_lt (scanDigits_length_lt hd))
  · cases h
    exact Nat.le_refl _

theorem scanSign_length_le (s : List Char) : (scanSign s).2.length ≤ s.length := by
  unfold scanSign
  split <;> simp

theorem scanExponent_length_le {s rest : List Char} {e : Option (Bool × List Char)}
    (h : scanExponent s = .ok (e, rest)) : rest.length ≤ s.length := by
  unfold scanExponent at h
  split at h
  · rename_i c s'
    split at h
    · obtain ⟨⟨ds, rest'⟩, hd, h⟩ := bind_eq_ok_iff.mp h
      cases h
      have hdigits : rest.length < (scanSign s').2.length := scanDigits_length_lt hd
      have hsign := scanSign_length_le s'
      rw [List.length_cons]
      omega
    · cases h
      exact Nat.le_refl _
  · cases h
    exact Nat.le_refl _

theorem scanUnsigned_length_lt {negative : Bool} {s rest : List Char} {n : Numeral}
    (h : scanUnsigned negative s = .ok (n, rest)) : rest.length < s.length := by
  obtain ⟨⟨ds, s₁⟩, hi, h⟩ := bind_eq_ok_iff.mp h
  obtain ⟨⟨f, s₂⟩, hf, h⟩ := bind_eq_ok_iff.mp h
  obtain ⟨⟨e, s₃⟩, he, h⟩ := bind_eq_ok_iff.mp h
  cases h
  have hinteger := scanInteger_length_lt hi
  have hfraction := scanFraction_length_le hf
  have hexponent := scanExponent_length_le he
  omega

theorem scan_length_lt {s rest : List Char} {n : Numeral} (h : scan s = .ok (n, rest)) :
    rest.length < s.length := by
  unfold scan at h
  split at h
  · exact Nat.lt_succ_of_lt (scanUnsigned_length_lt h)
  · exact scanUnsigned_length_lt h

end Numeral

end BoundaryTag.Json
