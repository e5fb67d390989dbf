import BoundaryTag.Json.Skip

set_option autoImplicit false

/-! # The grammar of texts

Which texts are values (`IsValue`), as the grammar has it and with no word about how they are read:
blanks may stand around every token, a string is a row of pieces that spell what it says, a numeral
has up to four parts, and brackets hold rows that commas part. Rows of elements that mean something
are `Row`, and `Enclosed` if brackets are around them. -/

namespace BoundaryTag.Json

/-- Nothing but characters that may stand between tokens. -/
def Blank (s : List Char) : Prop :=
  ∀ c ∈ s, Token.isBlank c = true

instance : DecidablePred Blank := fun s =>
  List.decidableBAll _ s

/-! ## Strings -/

namespace Quoted

/-- A character that stands for itself in a string. -/
def isPlain (c : Char) : Bool :=
  c ≠ '"' && c ≠ '\\' && !decide (c < ' ')

/-- How the pieces of a string's body are spelled: a character as itself or by an escape of one
    letter, and a unit by four hexadecimal digits. -/
inductive Spells : List Piece → List Char → Prop where
  | nil : Spells [] []
  | char {c : Char} {ps : List Piece} {s : List Char} (hc : isPlain c = true) (hs : Spells ps s) :
      Spells (.char c :: ps) (c :: s)
  | escape {e c : Char} {ps : List Piece} {s : List Char} (he : escaped? e = some c)
      (hs : Spells ps s) : Spells (.char c :: ps) ('\\' :: e :: s)
  | unit {d₁ d₂ d₃ d₄ : Char} {n : Nat} {ps : List Piece} {s : List Char}
      (hn : unit? [d₁, d₂, d₃, d₄] = some n) (hs : Spells ps s) :
      Spells (.unit n :: ps) ('\\' :: 'u' :: d₁ :: d₂ :: d₃ :: d₄ :: s)

/-- What the pieces of a string's body say, if every unit that needs a partner has one. -/
inductive Says : List Piece → List Char → Prop where
  | nil : Says [] []
  | char {c : Char} {ps : List Piece} {cs : List Char} (hs : Says ps cs) :
      Says (.char c :: ps) (c :: cs)
  | unit {n : Nat} {ps : List Piece} {cs : List Char} (hleading : isLeading n = false)
      (htrailing : isTrailing n = false) (hs : Says ps cs) :
      Says (.unit n :: ps) (Char.ofNat n :: cs)
  | pair {n k : Nat} {ps : List Piece} {cs : List Char} (hn : isLeading n = true)
      (hk : isTrailing k = true) (hs : Says ps cs) :
      Says (.unit n :: .unit k :: ps) (paired n k :: cs)

/-- The body of a string that says something. -/
def Writes (cs s : List Char) : Prop :=
  ∃ ps, Spells ps s ∧ Says ps cs

end Quoted

/-! ## Numerals -/

namespace Numeral

/-- A run of digits, at least one. -/
def IsDigits (ds : List Char) : Prop :=
  ds ≠ [] ∧ ∀ c ∈ ds, c.isDigit = true

/-- An integer part: digits that start with zero only if there are no more. -/
def IsInteger (ds : List Char) : Prop :=
  IsDigits ds ∧ (ds.head? = some '0' → ds = ['0'])

/-- How a fraction is spelled, or that there is none. -/
inductive SpellsFraction : Option (List Char) → List Char → Prop where
  | none : SpellsFraction none []
  | point {ds : List Char} (hds : IsDigits ds) : SpellsFraction (some ds) ('.' :: ds)

/-- How the sign of an exponent is spelled. -/
inductive SpellsSign : Bool → List Char → Prop where
  | none : SpellsSign false []
  | plus : SpellsSign false ['+']
  | minus : SpellsSign true ['-']

/-- How an exponent is spelled, or that there is none. -/
inductive SpellsExponent : Option (Bool × List Char) → List Char → Prop where
  | none : SpellsExponent none []
  | mark {m : Char} {negative : Bool} {sign ds : List Char} (hm : m = 'e' ∨ m = 'E')
      (hsign : SpellsSign negative sign) (hds : IsDigits ds) :
      SpellsExponent (some (negative, ds)) (m :: (sign ++ ds))

/-- How a numeral of any size is spelled. -/
inductive Spells : Numeral → List Char → Prop where
  | unsigned {i s t : List Char} {f : Option (List Char)} {e : Option (Bool × List Char)}
      (hi : IsInteger i) (hf : SpellsFraction f s) (he : SpellsExponent e t) :
      Spells ⟨false, i, f, e⟩ (i ++ (s ++ t))
  | minus {i s t : List Char} {f : Option (List Char)} {e : Option (Bool × List Char)}
      (hi : IsInteger i) (hf : SpellsFraction f s) (he : SpellsExponent e t) :
      Spells ⟨true, i, f, e⟩ ('-' :: (i ++ (s ++ t)))

end Numeral

/-! ## Values -/

/-- The character that opens a bracket. -/
def Bracket.opening : Bracket → Char
  | .array => '['
  | .object => '\x7b'

/-- The character that closes it. -/
def Bracket.closing : Bracket → Char
  | .array => ']'
  | .object => '\x7d'

/-- What the grammar speaks of. -/
inductive Phrase where
  | value
  | member
  /-- The elements between brackets, at least one, with their commas. -/
  | row (b : Bracket)

/-- What stands between brackets of a kind. -/
def Bracket.element : Bracket → Phrase
  | .array => .value
  | .object => .member

/-- The texts of the phrases. -/
inductive Derives : Phrase → List Char → Prop where
  | literal {w : List Char} (hw : w ∈ ["null".toList, "true".toList, "false".toList]) :
      Derives .value w
  | numeral {n : Numeral} {s : List Char} (hs : n.Spells s) : Derives .value s
  | text {ps : List Piece} {s : List Char} (hs : Quoted.Spells ps s) :
      Derives .value ('"' :: (s ++ ['"']))
  | empty {b : Bracket} {s : List Char} (hs : Blank s) :
      Derives .value (b.opening :: (s ++ [b.closing]))
  | enclosed {b : Bracket} {s : List Char} (hs : Derives (.row b) s) :
      Derives .value (b.opening :: (s ++ [b.closing]))
  | member {ps : List Piece} {k x y v : List Char} (hk : Quoted.Spells ps k) (hx : Blank x)
      (hy : Blank y) (hv : Derives .value v) :
      Derives .member ('"' :: (k ++ '"' :: (x ++ ':' :: (y ++ v))))
  | last {b : Bracket} {x s y : List Char} (hx : Blank x) (hs : Derives b.element s)
      (hy : Blank y) : Derives (.row b) (x ++ (s ++ y))
  | more {b : Bracket} {x s y r : List Char} (hx : Blank x) (hs : Derives b.element s)
      (hy : Blank y) (hr : Derives (.row b) r) : Derives (.row b) (x ++ (s ++ (y ++ ',' :: r)))

/-- The text of a value of any kind, nested to any depth. -/
def IsValue (s : List Char) : Prop :=
  Derives .value s

/-! ## Rows -/

section Rows

variable {α : Type}

/-- Texts of the elements, at least one, parted by commas and with blanks around each. -/
inductive Row (p : α → List Char → Prop) : List α → List Char → Prop where
  | last {e : α} {x s y : List Char} (hx : Blank x) (hs : p e s) (hy : Blank y) :
      Row p [e] (x ++ (s ++ y))
  | more {e : α} {es : List α} {x s y r : List Char} (hx : Blank x) (hs : p e s) (hy : Blank y)
      (hr : Row p es r) : Row p (e :: es) (x ++ (s ++ (y ++ ',' :: r)))

/-- Any number of elements between brackets. -/
inductive Enclosed (b : Bracket) (p : α → List Char → Prop) : List α → List Char → Prop where
  | empty {s : List Char} (hs : Blank s) : Enclosed b p [] (b.opening :: (s ++ [b.closing]))
  | row {es : List α} {s : List Char} (hs : Row p es s) :
      Enclosed b p es (b.opening :: (s ++ [b.closing]))

end Rows

end BoundaryTag.Json
