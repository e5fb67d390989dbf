import BoundaryTag.Proofs.Json.Tokens

set_option autoImplicit false

/-! # Skipping what the grammar allows

No text of the grammar is in the way of a reader that skips it: skipping a value goes on exactly
where the value ends (`IsValue.skipValue`). The stack of open brackets only says how to go on behind
it, so the value may be nested to any depth. -/

namespace BoundaryTag.Json

open Token (ofText ofText_blank)
open Numeral (Stops stops_cons)

variable {b : Bracket} {opened : List Bracket} {p : Phrase} {a s rest : List Char} {c : Char}
  {ts : List Token}

/-! ## What stops a numeral -/

theorem stops_comma : Stops (',' :: s) :=
  stops_cons.mpr (by decide)

theorem stops_closing : Stops (b.closing :: s) := by
  cases b <;> exact stops_cons.mpr (by decide)

theorem Blank.stops_append (ha : Blank a) (hs : Stops s) : Stops (a ++ s) := by
  cases a with
  | nil => exact hs
  | cons c a =>
    have hc := ha c List.mem_cons_self
    simp only [Token.isBlank, Bool.or_eq_true, decide_eq_true_eq] at hc
    refine stops_cons.mpr ?_
    rcases hc with ((rfl | rfl) | rfl) | rfl <;> decide

/-! ## Scalars -/

theorem skipValue_scalar {t : Token} (ht : t.scalar = .ok ()) :
    skipValue opened (t :: ts) = skipAfter opened ts := by
  unfold skipValue
  split
  · cases ‹t :: ts = []›
  · cases ‹t :: ts = _›
    cases ht
  · cases ‹t :: ts = _›
    cases ht
  · cases ‹t :: ts = _›
    rw [ht, ok_bind]

/-! ## Brackets of either kind -/

/-- Goes on after an opening bracket. -/
def Bracket.skipFirst : Bracket → List Bracket → List Token → Except Failure (List Token)
  | .array, opened, ts => skipFirstItem opened ts
  | .object, opened, ts => skipFirstMember opened ts

/-- Skips an element between brackets, and then everything up to the closing bracket. -/
def Bracket.skipElement : Bracket → List Bracket → List Token → Except Failure (List Token)
  | .array, opened, ts => skipValue (.array :: opened) ts
  | .object, opened, ts => skipMember (.object :: opened) ts

theorem skipValue_opening :
    skipValue opened (ofText (b.opening :: s)) = b.skipFirst opened (ofText s) := by
  cases b <;> simp [Bracket.opening, Bracket.skipFirst, skipValue]

theorem skipFirst_closing :
    b.skipFirst opened (ofText (b.closing :: s)) = skipAfter opened (ofText s) := by
  cases b <;> simp [Bracket.closing, Bracket.skipFirst, skipFirstItem, skipFirstMember]

theorem skipAfter_closing :
    skipAfter (b :: opened) (ofText (b.closing :: s)) = skipAfter opened (ofText s) := by
  cases b <;> simp [Bracket.closing, skipAfter]

theorem skipAfter_comma :
    skipAfter (b :: opened) (ofText (',' :: s)) = b.skipElement opened (ofText s) := by
  cases b <;> simp [Bracket.skipElement, skipAfter]

/-- Where an element can be skipped there is no closing bracket, so the first one is skipped like
    any other. -/
theorem skipFirst_of_skipElement {us : List Token} (h : b.skipElement [] ts = .ok us) :
    b.skipFirst opened ts = b.skipElement opened ts := by
  cases b with
  | array =>
    change skipValue [.array] ts = .ok us at h
    change skipFirstItem opened ts = skipValue (.array :: opened) ts
    cases ts with
    | nil => rfl
    | cons t ts =>
      cases t
      case endArray => simp [skipValue, Token.scalar] at h
      all_goals simp [skipFirstItem, skipValue]
  | object =>
    change skipMember [.object] ts = .ok us at h
    change skipFirstMember opened ts = skipMember (.object :: opened) ts
    cases ts with
    | nil => rfl
    | cons t ts =>
      cases t
      case endObject => simp [skipMember] at h
      all_goals simp [skipFirstMember, skipMember]

/-! ## Phrases -/

/-- Skipping the phrase takes just its text, whatever is open and whatever comes behind it. -/
def Phrase.Skipped : Phrase → List Char → Prop
  | .value, s => ∀ opened rest, Stops rest →
      skipValue opened (ofText (s ++ rest)) = skipAfter opened (ofText rest)
  | .member, s => ∀ opened rest, Stops rest →
      skipMember opened (ofText (s ++ rest)) = skipAfter opened (ofText rest)
  | .row b, s => ∀ opened rest,
      b.skipElement opened (ofText (s ++ b.closing :: rest)) = skipAfter opened (ofText rest)

/-- An element with blanks around it is skipped up to what comes behind the blanks. -/
theorem skipElement_blank {x y : List Char} (hx : Blank x) (hs : b.element.Skipped s) (hy : Blank y)
    (hrest : Stops rest) :
    b.skipElement opened (ofText (x ++ (s ++ (y ++ rest)))) =
      skipAfter (b :: opened) (ofText rest) := by
  have hstops := hy.stops_append hrest
  rw [ofText_blank hx, ← ofText_blank hy (s := rest)]
  cases b with
  | array => exact hs (.array :: opened) _ hstops
  | object => exact hs (.object :: opened) _ hstops

/-- The induction is on the derivation: each kind of phrase leaves its rest to the next. -/
theorem Derives.skipped (h : Derives p s) : p.Skipped s := by
  induction h with
  | literal hw =>
    intro opened rest _
    obtain ⟨l, hl⟩ := Token.ofText_literal hw
    rw [hl, skipValue_scalar rfl]
  | numeral hs =>
    intro opened rest hrest
    rw [Token.ofText_numeral hs hrest, skipValue_scalar rfl]
  | text hs =>
    intro opened rest _
    rw [List.cons_append, List.append_assoc, List.singleton_append, Token.ofText_quoted hs,
      skipValue_scalar rfl]
  | empty hs =>
    intro opened rest _
    rw [List.cons_append, List.append_assoc, List.singleton_append, skipValue_opening,
      ofText_blank hs, skipFirst_closing]
  | enclosed _ ih =>
    intro opened rest _
    -- with nothing else open the row is skipped for good, so it starts with no closing bracket
    have halone := ih [] rest
    rw [skipAfter] at halone
    rw [List.cons_append, List.append_assoc, List.singleton_append, skipValue_opening,
      skipFirst_of_skipElement halone, ih]
  | member hk hx hy _ ih =>
    intro opened rest hrest
    simp only [List.cons_append, List.append_assoc]
    rw [Token.ofText_quoted hk, skipMember, ok_bind, ofText_blank hx, Token.ofText_colon, skipColon,
      ofText_blank hy, ih opened rest hrest]
  | last hx _ hy ih =>
    intro opened rest
    rw [List.append_assoc, List.append_assoc, skipElement_blank hx ih hy stops_closing,
      skipAfter_closing]
  | more hx _ hy _ ih ihr =>
    intro opened rest
    simp only [List.cons_append, List.append_assoc]
    rw [skipElement_blank hx ih hy stops_comma, skipAfter_comma, ihr]

/-- A value is skipped up to its end. -/
theorem IsValue.skipValue (h : IsValue s) (hrest : Stops rest) :
    skipValue opened (ofText (s ++ rest)) = skipAfter opened (ofText rest) :=
  h.skipped opened rest hrest

end BoundaryTag.Json
