import BoundaryTag.Json.Skip
import BoundaryTag.Settings.Basic

set_option autoImplicit false

/-! # Reading settings

Settings are read from a JSON object with members in any order, or from an array with the values in
their fixed order. What is not given takes its default. In an object, members with other names are
skipped, and no known member may come twice. The first failure in the order of the text counts; the
settings are judged only when the whole text has been read. -/

namespace BoundaryTag

open Json (Failure Token skipValue)

/-- Why no settings came out of a text. -/
inductive Settings.ReadError where
  /-- The text could not be read. -/
  | unreadable (failure : Failure)
  /-- The text was read, but there is an objection to what it says. -/
  | rejected (objection : Objection)
  deriving DecidableEq

/-- What has been read so far. -/
structure Settings.Draft where
  thresholds : Option (List Nat) := none
  minSplit : Option Nat := none
  checkAfter : Option Bool := none
  deriving DecidableEq

namespace Settings

/-- The member of a name. -/
def Field.ofName? (name : List Char) : Option Field :=
  [thresholds, minSplit, checkAfter].find? (·.name = name)

namespace Draft

/-- Whether a member has been read. -/
def has (d : Draft) : Field → Bool
  | .thresholds => d.thresholds.isSome
  | .minSplit => d.minSplit.isSome
  | .checkAfter => d.checkAfter.isSome

/-- What was read, and defaults for the rest. -/
def settings (d : Draft) : Settings :=
  let standard : Settings := {}
  { thresholds := d.thresholds.getD standard.thresholds
    minSplit := d.minSplit.getD standard.minSplit
    checkAfter := d.checkAfter.getD standard.checkAfter }

/-! ## Values -/

/-- The words of an array after the first one, up to its end. -/
def moreWords : List Token → Except Failure (List Nat × List Token)
  | .endArray :: ts => .ok ([], ts)
  | .comma :: t :: ts => do
    let w ← t.word
    let (ws, rest) ← moreWords ts
    return (w :: ws, rest)
  | [.comma] => .error .truncated
  | ts => .error (.ofRest ts)

/-- The words of an array, up to its end. -/
def words : List Token → Except Failure (List Nat × List Token)
  | [] => .error .truncated
  | .endArray :: ts => .ok ([], ts)
  | t :: ts => do
    let w ← t.word
    let (ws, rest) ← moreWords ts
    return (w :: ws, rest)

/-- Reads the value of a member. -/
def readValue (d : Draft) : Field → List Token → Except Failure (Draft × List Token)
  | _, [] => .error .truncated
  | .thresholds, .beginArray :: ts => do
    let (ws, rest) ← words ts
    return ({ d with thresholds := some ws }, rest)
  | .thresholds, t :: _ => .error t.mismatch
  | .minSplit, t :: ts => do
    let w ← t.word
    return ({ d with minSplit := some w }, ts)
  | .checkAfter, t :: ts => do
    let b ← t.bool
    return ({ d with checkAfter := some b }, ts)

theorem moreWords_length_lt {ts rest : List Token} {ws : List Nat}
    (h : moreWords ts = .ok (ws, rest)) : rest.length < ts.length := by
  fun_induction moreWords ts generalizing ws with
  | case1 ts =>
    cases h
    exact Nat.lt_succ_self _
  | case2 t ts ih =>
    obtain ⟨w, -, h⟩ := bind_eq_ok_iff.mp h
    obtain ⟨⟨ws', rest'⟩, hm, h⟩ := bind_eq_ok_iff.mp h
    cases h
    exact Nat.lt_succ_of_lt (Nat.lt_succ_of_lt (ih hm))
  | case3 => cases h
  | case4 => cases h

theorem words_length_lt {ts rest : List Token} {ws : List Nat}
    (h : words ts = .ok (ws, rest)) : rest.length < ts.length := by
  unfold words at h
  split at h
  · cases h
  · cases h
    exact Nat.lt_succ_self _
  · obtain ⟨w, -, h⟩ := bind_eq_ok_iff.mp h
    obtain ⟨⟨ws', rest'⟩, hm, h⟩ := bind_eq_ok_iff.mp h
    cases h
    exact Nat.lt_succ_of_lt (moreWords_length_lt hm)

theorem readValue_length_lt {d d' : Draft} {f : Field} {ts rest : List Token}
    (h : d.readValue f ts = .ok (d', rest)) : rest.length < ts.length := by
  unfold readValue at h
  split at h
  · cases h
  · obtain ⟨⟨ws, rest'⟩, hw, h⟩ := bind_eq_ok_iff.mp h
    cases h
    exact Nat.lt_succ_of_lt (words_length_lt hw)
  · cases h
  · obtain ⟨w, -, h⟩ := bind_eq_ok_iff.mp h
    cases h
    exact Nat.lt_succ_self _
  · obtain ⟨b, -, h⟩ := bind_eq_ok_iff.mp h
    cases h
    exact Nat.lt_succ_self _

/-! ## Arrays -/

/-- The values of an array after one of them, for the given members. An array may end early, but
    nothing may come after the last member. -/
def moreValues (d : Draft) : List Field → List Token → Except Failure (Draft × List Token)
  | _, .endArray :: ts => .ok (d, ts)
  | f :: fs, .comma :: ts => do
    let (d, rest) ← d.readValue f ts
    d.moreValues fs rest
  | _, ts => .error (.ofRest ts)

/-- The values of an array, up to its end. -/
def values (d : Draft) : List Token → Except Failure (Draft × List Token)
  | .endArray :: ts => .ok (d, ts)
  | ts => do
    let (d, rest) ← d.readValue .thresholds ts
    d.moreValues [.minSplit, .checkAfter] rest

/-! ## Objects -/

/-- Takes the colon after a name. -/
def takeColon : List Token → Except Failure (List Token)
  | .colon :: ts => .ok ts
  | ts => .error (.ofRest ts)

/-- Reads a member. A known name that comes again is an error before its value is looked at. -/
def readMember (d : Draft) : List Token → Except Failure (Draft × List Token)
  | .text _ content :: ts => do
    let name ← content
    match Field.ofName? name with
    | some f =>
      if d.has f then
        throw .mistyped
      else
        d.readValue f (← takeColon ts)
    | none => return (d, ← skipValue [] (← takeColon ts))
  | ts => .error (.ofRest ts)

theorem takeColon_length_lt {ts rest : List Token} (h : takeColon ts = .ok rest) :
    rest.length < ts.length := by
  unfold takeColon at h
  split at h
  · cases h
    exact Nat.lt_succ_self _
  · cases h

theorem readMember_length_lt {d d' : Draft} {ts rest : List Token}
    (h : d.readMember ts = .ok (d', rest)) : rest.length < ts.length := by
  unfold readMember at h
  split at h
  · apply Nat.lt_succ_of_lt
    obtain ⟨name, -, h⟩ := bind_eq_ok_iff.mp h
    split at h
    · split at h
      · cases h
      · obtain ⟨us, hc, h⟩ := bind_eq_ok_iff.mp h
        exact Nat.lt_trans (readValue_length_lt h) (takeColon_length_lt hc)
    · obtain ⟨us, hc, h⟩ := bind_eq_ok_iff.mp h
      obtain ⟨vs, hs, h⟩ := bind_eq_ok_iff.mp h
      cases h
      exact Nat.lt_trans (Json.skipValue_length_lt [] us hs) (takeColon_length_lt hc)
  · cases h

/-- The members of an object that has at least one, up to its end. -/
def members (d : Draft) (ts : List Token) : Except Failure (Draft × List Token) :=
  match _h : d.readMember ts with
  | .error e => .error e
  | .ok (d', .endObject :: rest) => .ok (d', rest)
  | .ok (d', .comma :: rest) => d'.members rest
  | .ok (_, rest) => .error (.ofRest rest)
termination_by ts.length
decreasing_by
  have := readMember_length_lt _h
  simp only [List.length_cons] at this
  omega

/-! ## Texts -/

/-- Reads an object or an array. -/
def document : List Token → Except Failure (Draft × List Token)
  | [] => .error .truncated
  | .beginArray :: ts => values {} ts
  | .beginObject :: .endObject :: ts => .ok ({}, ts)
  | .beginObject :: ts => members {} ts
  | t :: _ => .error t.mismatch

/-- What a whole text says: nothing may come after the object or the array. -/
def ofTokens (ts : List Token) : Except Failure Draft := do
  let (d, rest) ← document ts
  if rest.isEmpty then
    return d
  else
    throw .malformed

end Draft

/-- The settings that a text says, if it can be read and there is no objection. -/
def read (text : String) : Except ReadError Settings :=
  match Draft.ofTokens (Token.ofText text.toList) with
  | .error failure => .error (.unreadable failure)
  | .ok d =>
    match d.settings.validate with
    | .error objection => .error (.rejected objection)
    | .ok () => .ok d.settings

end Settings

end BoundaryTag
