import BoundaryTag.Layout

set_option autoImplicit false

/-! # Requests and handles

A request asks for payload bytes; the block that serves it also holds two tags and is never smaller
than the least block. A handle names an allocation by the offset of its payload. -/

namespace BoundaryTag

/-- The size of the block that serves a request of so many payload bytes: request and overhead
    rounded up to the alignment, at least the least block. There is none if the unrounded sum with
    the alignment's slack is not a word. -/
def Request.blockSize (request : Nat) : Except Fault (Option Nat) := do
  if request + (Block.overhead + Block.alignment - 1) < Word.limit then
    return some (max (← Word.align (← Word.add request Block.overhead)) Block.least)
  else
    return none

/-- The block size is the least multiple of eight that holds the request and two tags, and at least
    the least block. The sum with the alignment has to be a word, whether or not the size is. -/
theorem Request.blockSize_eq_some_iff {request n : Nat} :
    Request.blockSize request = .ok (some n) ↔
      request + 24 < Word.limit ∧ n = max ((request + 23) / 8 * 8) 32 := by
  have hslack : Block.overhead + Block.alignment - 1 = 23 := rfl
  have hleast : Block.least = 32 := rfl
  rw [blockSize, hslack, hleast]
  by_cases hr : request + 23 < Word.limit
  · have hadd : Word.add request Block.overhead = .ok (request + 16) :=
      Word.add_eq_ok_iff.mpr ⟨rfl, Nat.lt_of_le_of_lt (Nat.add_le_add_left (by decide) _) hr⟩
    rw [if_pos hr, hadd]
    cases ha : Word.align (request + 16) with
    | error fault =>
      have hno : ¬ request + 24 < Word.limit := by
        intro h
        rw [Word.align_eq_ok_iff.mpr ⟨h, rfl⟩] at ha
        cases ha
      simp [bind, Except.bind, ha, hno]
    | ok rounded =>
      obtain ⟨hlt, rfl⟩ := Word.align_eq_ok_iff.mp ha
      simp only [bind, Except.bind, ha, pure, Except.pure, Except.ok.injEq, Option.some.injEq]
      exact ⟨fun h => ⟨hlt, h.symm⟩, fun h => h.2.symm⟩
  · have hno : ¬ request + 24 < Word.limit := fun h => hr (Nat.lt_of_succ_lt h)
    simp [hr, hno, pure, Except.pure]

/-- A handle: the offset of a payload. Zero is never one, since the list heads come first. -/
structure Handle where
  offset : Nat
  offset_ne_zero : offset ≠ 0
  deriving DecidableEq

namespace Handle

/-- The handle of an offset other than zero. -/
def ofOffset? (offset : Nat) : Option Handle :=
  if h : offset ≠ 0 then some ⟨offset, h⟩ else none

/-- The handle of a block's payload. -/
def ofBlock (block : Nat) : Except Fault Handle :=
  if block + Block.headerBytes < Word.limit then
    .ok ⟨block + Block.headerBytes, by simp [Block.headerBytes]⟩
  else
    .error .overflow

/-- The block whose payload the handle names. -/
def block (p : Handle) : Except Fault Nat :=
  Word.sub p.offset Block.headerBytes

/-- A handle is written as a hexadecimal offset. -/
def text (p : Handle) : String :=
  Text.hex p.offset

end Handle

end BoundaryTag
