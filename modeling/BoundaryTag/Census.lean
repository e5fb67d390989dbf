import BoundaryTag.FreeIndex

set_option autoImplicit false

/-! # Taking stock

Counts over the blocks of a heap, and a listing of its free index. Both rely on a sound heap: where
the memory is damaged they may end in a fault. -/

namespace BoundaryTag

/-- How a heap is occupied. -/
structure Census where
  arenaBytes : Nat := 0
  allocatedBlocks : Nat := 0
  allocatedBytes : Nat := 0
  freeBlocks : Nat := 0
  freeBytes : Nat := 0
  largestFree : Nat := 0
  deriving DecidableEq, Repr

namespace Census

/-- Counts one block. -/
def count (s : Census) (block : Block) : Except Fault Census := do
  let size := block.tag.size
  if block.tag.allocated then
    return { s with
      allocatedBlocks := s.allocatedBlocks + 1
      allocatedBytes := ← Word.add s.allocatedBytes size }
  else
    return { s with
      freeBlocks := s.freeBlocks + 1
      freeBytes := ← Word.add s.freeBytes size
      largestFree := max s.largestFree size }

/-- The counts over the blocks of a heap of so many bytes. -/
def ofBlocks (arenaBytes : Nat) (blocks : List Block) : Except Fault Census :=
  blocks.foldlM count { arenaBytes }

/-- The counts in one line. -/
def text (s : Census) : String :=
  s!"arena {s.arenaBytes} bytes, {s.allocatedBlocks} allocated ({s.allocatedBytes} bytes), " ++
    s!"{s.freeBlocks} free ({s.freeBytes} bytes, largest {s.largestFree})"

end Census

/-- A block on a free list. -/
structure FreeEntry where
  offset : Nat
  size : Nat
  sizeClass : Nat
  deriving DecidableEq, Repr

namespace FreeIndex

/-- The blocks on the list of a class, in list order. -/
def entriesOf (x : FreeIndex) (m : Memory) (c : Nat) : Except Fault (List FreeEntry) := do
  (← x.members m c).mapM fun block => return ⟨block, ← m.sizeAt block, c⟩

/-- The blocks on all lists, class by class. -/
def entries (x : FreeIndex) (m : Memory) : Except Fault (List FreeEntry) :=
  return (← (List.range x.size).mapM (x.entriesOf m)).flatten

end FreeIndex

end BoundaryTag
