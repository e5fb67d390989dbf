import BoundaryTag.Settings.Basic

set_option autoImplicit false

/-! # Writing settings

Settings are written as a JSON object with all three members, in a fixed order and without
blanks. -/

namespace BoundaryTag.Settings

/-- A decimal numeral. -/
def renderNat (n : Nat) : List Char :=
  Nat.toDigits 10 n

/-- Numerals between brackets, parted by commas. -/
def renderList (ns : List Nat) : List Char :=
  '[' :: [','].intercalate (ns.map renderNat) ++ [']']

/-- A truth value. -/
def renderBool (b : Bool) : List Char :=
  if b then "true".toList else "false".toList

/-- The text of the settings, as characters. -/
def render (s : Settings) : List Char :=
  "\x7b\"class_thresholds\":".toList ++ renderList s.thresholds ++
    ",\"min_split_payload\":".toList ++ renderNat s.minSplit ++
    ",\"check_after_ops\":".toList ++ renderBool s.checkAfter ++ "\x7d".toList

/-- The text of the settings. -/
def text (s : Settings) : String :=
  String.ofList s.render

/-! ## The text piece by piece -/

/-- A member as text: its quoted name, a colon, and its value. -/
def Field.render (f : Field) (value : List Char) : List Char :=
  '"' :: (f.name ++ '"' :: ':' :: value)

/-- Numbers after another one, each with its comma. -/
def moreDigits (ns : List Nat) : List Char :=
  ns.flatMap fun n => ',' :: renderNat n

variable {n : Nat} {ns : List Nat}

/-- All numbers but the first have a comma before them. -/
theorem intercalate_renderNat :
    [','].intercalate ((n :: ns).map renderNat) = renderNat n ++ moreDigits ns := by
  induction ns generalizing n with
  | nil => simp [moreDigits, List.intercalate]
  | cons m ns ih =>
    rw [List.map_cons, List.map_cons, List.intercalate_cons_cons, ← List.map_cons, ih]
    simp [moreDigits]

/-- The text of the settings, member by member. -/
theorem render_eq (s : Settings) :
    s.render = '{' :: Field.render .thresholds (renderList s.thresholds ++
      ',' :: Field.render .minSplit (renderNat s.minSplit ++
        ',' :: Field.render .checkAfter (renderBool s.checkAfter ++ ['}']))) := by
  have hfirst : "\x7b\"class_thresholds\":".toList = '\x7b' :: Field.render .thresholds [] := rfl
  have hsecond : ",\"min_split_payload\":".toList = ',' :: Field.render .minSplit [] := rfl
  have hthird : ",\"check_after_ops\":".toList = ',' :: Field.render .checkAfter [] := rfl
  have hlast : "\x7d".toList = ['\x7d'] := rfl
  unfold Settings.render
  simp only [hfirst, hsecond, hthird, hlast]
  simp only [Field.render, List.append_assoc, List.cons_append, List.nil_append]

end BoundaryTag.Settings
