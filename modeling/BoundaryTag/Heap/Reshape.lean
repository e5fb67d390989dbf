import BoundaryTag.FreeIndex
import BoundaryTag.Settings.Basic
import BoundaryTag.Traced

set_option autoImplicit false

/-! # Merging and carving blocks

The two changes of the block structure that do not need the region to grow: a free block is merged
with its free neighbours, and a free block is carved into an allocated block and a free rest. Both
work on a block that is on no list. -/

namespace BoundaryTag.Heap

/-- Takes the free neighbours of a block off their lists. Answers the start and the size of what
    the block and those neighbours make up. -/
def takeNeighbours (m : Memory) (block size next : Nat) (prevFree nextFree : Bool) :
    Except Fault (Nat × Nat × Memory) :=
  match prevFree, nextFree with
  | false, false => return (block, size, m)
  | true, false => do
    let prev ← m.predecessor block
    let m ← FreeIndex.unlink m prev
    return (prev, ← Word.add (← m.sizeAt prev) size, m)
  | false, true => do
    let m ← FreeIndex.unlink m next
    return (block, ← Word.add size (← m.sizeAt next), m)
  | true, true => do
    let prev ← m.predecessor block
    let m ← FreeIndex.unlink m prev
    let m ← FreeIndex.unlink m next
    return (prev, ← Word.add (← Word.add (← m.sizeAt prev) size) (← m.sizeAt next), m)

/-- Merges a free block with its free neighbours and answers the merged block, which is on no
    list. -/
def merge (m : Memory) (block : Nat) : Traced (Nat × Memory) := do
  let size ← m.sizeAt block
  let prevFree := !(← m.prevAllocatedAt block)
  let next ← m.successor block
  let nextFree ← m.freeAt next
  let (start, merged, m) ← takeNeighbours m block size next prevFree nextFree
  .recordIf (merged ≠ size) (.merged block size merged start)
  let m ← m.formatFree start merged (← m.prevAllocatedAt start)
  let m ← m.markPrevAllocated (← m.successor start) false
  return (start, m)

/-- Makes a block of at least `needed` bytes allocated. If more than the split threshold would be
    left over, the rest becomes a free block of its own. -/
def carve (x : FreeIndex) (s : Settings) (m : Memory) (block needed : Nat) : Traced Memory := do
  let tag ← m.tagAt block
  let rest ← Word.sub tag.size needed
  let threshold ← s.splitThreshold
  if threshold < rest then
    let m ← m.setHeader block (Tag.inUse needed tag.prevAllocated)
    let tail ← Word.add block needed
    let m ← m.formatFree tail rest true
    .record (.split tag.size block needed rest)
    let (tail, m) ← merge m tail
    x.push m tail
  else
    let m ← m.setHeader block (Tag.inUse tag.size tag.prevAllocated)
    m.markPrevAllocated (← m.successor block) true

/-- Writes the tag that ends the heap. -/
def setEpilogue (m : Memory) (offset : Nat) : Except Fault Memory :=
  m.setHeader offset (Tag.inUse Block.epilogueBytes true)

/-- Makes a block the last one of the heap, allocated and of the given size. -/
def setLast (m : Memory) (block size : Nat) (prevAllocated : Bool) : Except Fault Memory := do
  let m ← m.setHeader block (Tag.inUse size prevAllocated)
  setEpilogue m (← Word.add block size)

end BoundaryTag.Heap
