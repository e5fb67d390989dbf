import BoundaryTag.Word

set_option autoImplicit false

/-! # Tags

A tag is one word that says how large a block is, whether it is allocated, and whether the block
before it is. Sizes are multiples of eight, so the two flags share the word with the size: bit 0 is
the allocated flag, bit 1 the flag of the block before. -/

namespace BoundaryTag

/-- What a tag word says. -/
structure Tag where
  size : Nat
  allocated : Bool
  prevAllocated : Bool
  deriving DecidableEq, Repr

namespace Tag

/-- The tag of a free block. -/
def free (size : Nat) (prevAllocated : Bool) : Tag :=
  ⟨size, false, prevAllocated⟩

/-- The tag of an allocated block. -/
def inUse (size : Nat) (prevAllocated : Bool) : Tag :=
  ⟨size, true, prevAllocated⟩

/-- The word of a tag: the size, rounded down to a multiple of eight, and the flags. -/
def pack (t : Tag) : Nat :=
  t.size / 8 * 8 + t.allocated.toNat + 2 * t.prevAllocated.toNat

/-- The tag that a word holds. Bit 2 has no meaning. -/
def unpack (raw : Nat) : Tag where
  size := raw / 8 * 8
  allocated := raw % 2 == 1
  prevAllocated := raw / 2 % 2 == 1

theorem pack_lt_limit {t : Tag} (h : t.size < Word.limit) : t.pack < Word.limit := by
  have ha := t.allocated.toNat_le
  have hp := t.prevAllocated.toNat_le
  unfold pack Word.limit at *
  omega

/-- A tag reads back from its word, its size rounded down to a multiple of eight. -/
theorem unpack_pack (t : Tag) : unpack t.pack = { t with size := t.size / 8 * 8 } := by
  obtain ⟨size, allocated, prevAllocated⟩ := t
  have hs : ∀ a p : Bool, (size / 8 * 8 + a.toNat + 2 * p.toNat) / 8 * 8 = size / 8 * 8 := by
    intro a p
    have := a.toNat_le
    have := p.toNat_le
    omega
  have ha : ∀ a p : Bool, ((size / 8 * 8 + a.toNat + 2 * p.toNat) % 2 == 1) = a := by
    intro a p
    rw [show (size / 8 * 8 + a.toNat + 2 * p.toNat) % 2 = a.toNat % 2 by omega]
    cases a <;> rfl
  have hp : ∀ a p : Bool, ((size / 8 * 8 + a.toNat + 2 * p.toNat) / 2 % 2 == 1) = p := by
    intro a p
    have := a.toNat_le
    rw [show (size / 8 * 8 + a.toNat + 2 * p.toNat) / 2 % 2 = p.toNat % 2 by omega]
    cases p <;> rfl
  simp only [unpack, pack, hs, ha, hp]

theorem size_unpack_mod (raw : Nat) : (unpack raw).size % 8 = 0 := by
  simp [unpack]

end Tag

end BoundaryTag
