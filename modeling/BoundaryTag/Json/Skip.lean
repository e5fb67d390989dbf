import BoundaryTag.Json.Token

set_option autoImplicit false

/-! # Skipping values

A value that nobody asked for only has to obey the grammar: numbers may have any size, and units in
strings need not pair up. Values are skipped with a stack of the brackets that are still open, so
they may be nested to any depth. -/

namespace BoundaryTag.Json

/-- What can be open. -/
inductive Bracket where
  | array
  | object
  deriving DecidableEq

/-- Whether a token is a complete value by itself. -/
def Token.scalar : Token → Except Failure Unit
  | text grammar _ => grammar
  | number (.ok _) => .ok ()
  | number (.error _) => .error .malformed
  | literal (.ok _) => .ok ()
  | literal (.error e) => .error e
  | _ => .error .malformed

mutual

/-- Skips a value, and then whatever closes the open brackets, the innermost first. -/
def skipValue (opened : List Bracket) : List Token → Except Failure (List Token)
  | [] => .error .truncated
  | .beginArray :: ts => skipFirstItem opened ts
  | .beginObject :: ts => skipFirstMember opened ts
  | t :: ts => do
    t.scalar
    skipAfter opened ts

/-- Goes on after an opening bracket: with a value or the closing bracket. -/
def skipFirstItem (opened : List Bracket) : List Token → Except Failure (List Token)
  | [] => .error .truncated
  | .endArray :: ts => skipAfter opened ts
  | .beginArray :: ts => skipFirstItem (.array :: opened) ts
  | .beginObject :: ts => skipFirstMember (.array :: opened) ts
  | t :: ts => do
    t.scalar
    skipAfter (.array :: opened) ts

/-- Goes on after an opening brace: with a member or the closing brace. -/
def skipFirstMember (opened : List Bracket) : List Token → Except Failure (List Token)
  | [] => .error .truncated
  | .endObject :: ts => skipAfter opened ts
  | .text grammar _ :: ts => do
    grammar
    skipColon (.object :: opened) ts
  | _ :: _ => .error .malformed

/-- Skips a member: its key, and its value. -/
def skipMember (opened : List Bracket) : List Token → Except Failure (List Token)
  | [] => .error .truncated
  | .text grammar _ :: ts => do
    grammar
    skipColon opened ts
  | _ :: _ => .error .malformed

/-- Goes on after a key. -/
def skipColon (opened : List Bracket) : List Token → Except Failure (List Token)
  | [] => .error .truncated
  | .colon :: ts => skipValue opened ts
  | _ :: _ => .error .malformed

/-- Goes on after a value: with the next one or a closing bracket, until nothing is open. -/
def skipAfter : List Bracket → List Token → Except Failure (List Token)
  | [], ts => .ok ts
  | _ :: _, [] => .error .truncated
  | .array :: opened, .comma :: ts => skipValue (.array :: opened) ts
  | .array :: opened, .endArray :: ts => skipAfter opened ts
  | .object :: opened, .comma :: ts => skipMember (.object :: opened) ts
  | .object :: opened, .endObject :: ts => skipAfter opened ts
  | _ :: _, _ :: _ => .error .malformed

end

/-! ## Skipping makes progress -/

mutual

theorem skipValue_length_lt : ∀ (opened : List Bracket) (ts : List Token) {rest : List Token},
    skipValue opened ts = .ok rest → rest.length < ts.length
  | _, [], _, h => by cases h
  | opened, t :: ts, rest, h => by
    have hi := @skipFirstItem_length_le opened ts rest
    have hm := @skipFirstMember_length_le opened ts rest
    have ha := @skipAfter_length_le opened ts rest
    apply Nat.lt_succ_of_le
    unfold skipValue at h
    split at h
    · cases ‹t :: ts = []›
    · cases ‹t :: ts = _›
      exact hi h
    · cases ‹t :: ts = _›
      exact hm h
    · cases ‹t :: ts = _›
      obtain ⟨-, -, h⟩ := bind_eq_ok_iff.mp h
      exact ha h

theorem skipFirstItem_length_le : ∀ (opened : List Bracket) (ts : List Token)
    {rest : List Token}, skipFirstItem opened ts = .ok rest → rest.length ≤ ts.length
  | _, [], _, h => by cases h
  | opened, t :: ts, rest, h => by
    have hi := @skipFirstItem_length_le (.array :: opened) ts rest
    have hm := @skipFirstMember_length_le (.array :: opened) ts rest
    have ha := fun opened => @skipAfter_length_le opened ts rest
    apply Nat.le_succ_of_le
    unfold skipFirstItem at h
    split at h
    · cases ‹t :: ts = []›
    · cases ‹t :: ts = _›
      exact ha _ h
    · cases ‹t :: ts = _›
      exact hi h
    · cases ‹t :: ts = _›
      exact hm h
    · cases ‹t :: ts = _›
      obtain ⟨-, -, h⟩ := bind_eq_ok_iff.mp h
      exact ha _ h

theorem skipFirstMember_length_le : ∀ (opened : List Bracket) (ts : List Token)
    {rest : List Token}, skipFirstMember opened ts = .ok rest → rest.length ≤ ts.length
  | _, [], _, h => by cases h
  | opened, t :: ts, rest, h => by
    have ha := @skipAfter_length_le opened ts rest
    have hc := @skipColon_length_le (.object :: opened) ts rest
    apply Nat.le_succ_of_le
    unfold skipFirstMember at h
    split at h
    · cases ‹t :: ts = []›
    · cases ‹t :: ts = _›
      exact ha h
    · cases ‹t :: ts = _›
      obtain ⟨-, -, h⟩ := bind_eq_ok_iff.mp h
      exact hc h
    · cases h

theorem skipMember_length_le : ∀ (opened : List Bracket) (ts : List Token)
    {rest : List Token}, skipMember opened ts = .ok rest → rest.length ≤ ts.length
  | _, [], _, h => by cases h
  | opened, t :: ts, rest, h => by
    have hc := @skipColon_length_le opened ts rest
    apply Nat.le_succ_of_le
    unfold skipMember at h
    split at h
    · cases ‹t :: ts = []›
    · cases ‹t :: ts = _›
      obtain ⟨-, -, h⟩ := bind_eq_ok_iff.mp h
      exact hc h
    · cases h

theorem skipColon_length_le : ∀ (opened : List Bracket) (ts : List Token)
    {rest : List Token}, skipColon opened ts = .ok rest → rest.length ≤ ts.length
  | _, [], _, h => by cases h
  | opened, t :: ts, rest, h => by
    have hv := @skipValue_length_lt opened ts rest
    apply Nat.le_succ_of_le
    unfold skipColon at h
    split at h
    · cases ‹t :: ts = []›
    · cases ‹t :: ts = _›
      exact Nat.le_of_lt (hv h)
    · cases h

theorem skipAfter_length_le : ∀ (opened : List Bracket) (ts : List Token)
    {rest : List Token}, skipAfter opened ts = .ok rest → rest.length ≤ ts.length
  | [], _, _, h => by
    rw [skipAfter] at h
    cases h
    exact Nat.le_refl _
  | _ :: _, [], _, h => by
    rw [skipAfter] at h
    cases h
  | b :: opened, t :: ts, rest, h => by
    have hv := fun opened => @skipValue_length_lt opened ts rest
    have hm := fun opened => @skipMember_length_le opened ts rest
    have ha := @skipAfter_length_le opened ts rest
    apply Nat.le_succ_of_le
    unfold skipAfter at h
    split at h
    · cases ‹b :: opened = []›
    · cases ‹t :: ts = []›
    · cases ‹t :: ts = _›
      exact Nat.le_of_lt (hv _ h)
    · cases ‹t :: ts = _›
      cases ‹b :: opened = _›
      exact ha h
    · cases ‹t :: ts = _›
      exact hm _ h
    · cases ‹t :: ts = _›
      cases ‹b :: opened = _›
      exact ha h
    · cases h

end

end BoundaryTag.Json
