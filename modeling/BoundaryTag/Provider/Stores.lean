import BoundaryTag.Region

set_option autoImplicit false

/-! # Providers with storage

Storage of its own is made of whole words, of which the bytes up to the break are in use. It never
has more words than the break has reached, and grows up to a limit. Address space is reserved once,
in whole pages and full of zero bytes; to grow in it is to move the break. -/

namespace BoundaryTag

/-! ## Storage of words -/

/-- Words, how many of their bytes are in use, and how many may be. -/
structure WordStore where
  words : List UInt64
  top : Nat
  limit : Nat
  deriving DecidableEq

namespace WordStore

/-- Storage that has no words yet. -/
def empty (limit : Nat) : WordStore :=
  ⟨[], 0, limit⟩

/-- The bytes of words. -/
def spell (words : List UInt64) : List UInt8 :=
  words.flatMap fun w => LittleEndian.toBytes Word.bytes w.toNat

/-- The first `n` words that bytes spell. -/
def pack : Nat → List UInt8 → List UInt64
  | 0, _ => []
  | n + 1, bytes =>
    UInt64.ofNat (LittleEndian.ofBytes (bytes.take Word.bytes)) :: pack n (bytes.drop Word.bytes)

/-- How many words hold so many bytes. -/
def wordsFor (bytes : Nat) : Nat :=
  (bytes + (Word.bytes - 1)) / Word.bytes

/-- The bytes in use. -/
def bytes (s : WordStore) : List UInt8 :=
  (spell s.words).take s.top

/-- Overwrites the bytes in use. The bytes of the last word that are not in use stay. -/
def setBytes (s : WordStore) (new : List UInt8) : WordStore :=
  { s with words := pack s.words.length (new ++ (spell s.words).drop new.length) }

/-- Moves the break, and adds words of zero if those that there are do not reach it. -/
def extend (s : WordStore) (bytes : Nat) : Traced (Except Refusal Nat × WordStore) := do
  let base := s.top
  let top := base + bytes
  if top < Word.limit ∧ top ≤ s.limit then
    if Backing.owned.holds top then
      .record (.extended .owned bytes base top)
      let missing := wordsFor top - s.words.length
      return (.ok base, { s with words := s.words ++ List.replicate missing 0, top })
    else
      .fail .storageTooLarge
  else
    .record (.extensionRefused .owned bytes base s.limit)
    return (.error (.outOfMemory bytes base s.limit), s)

instance : Provider WordStore where
  extend := extend
  size := top
  bytes := bytes
  memory s := .ofBytes s.bytes
  setMemory s m := s.setBytes (m.load 0 m.size)

end WordStore

/-! ## Reserved space -/

/-- Reserved space and how many of its bytes are in use. -/
structure Reservation where
  space : Memory
  top : Nat

namespace Reservation

/-- How many bytes are reserved. -/
def capacity (s : Reservation) : Nat :=
  s.space.size

/-- Reserves at least `capacity` bytes, as `Region.reserve` does, none of which is in use. -/
def reserve (grants : Nat → Bool) (capacity : Nat) :
    Except Fault (Except Refusal Reservation) := do
  match ← Region.reserve grants capacity with
  | .ok region => return .ok ⟨.zeroed region.limit, 0⟩
  | .error refusal => return .error refusal

/-- The bytes in use. -/
def bytes (s : Reservation) : List UInt8 :=
  s.space.load 0 s.top

/-- Overwrites the bytes in use. -/
def setBytes (s : Reservation) (new : List UInt8) : Reservation :=
  { s with space := s.space.store 0 new }

/-- Moves the break, if the space reaches so far. -/
def extend (s : Reservation) (bytes : Nat) : Traced (Except Refusal Nat × Reservation) := do
  let base := s.top
  let top := base + bytes
  if top < Word.limit ∧ top ≤ s.capacity then
    .record (.extended .reserved bytes base top)
    return (.ok base, { s with top })
  else
    .record (.extensionRefused .reserved bytes base s.capacity)
    return (.error (.outOfMemory bytes base s.capacity), s)

instance : Provider Reservation where
  extend := extend
  size := top
  bytes := bytes
  memory s := .ofBytes s.bytes
  setMemory s m := s.setBytes (m.load 0 m.size)

end Reservation

end BoundaryTag
