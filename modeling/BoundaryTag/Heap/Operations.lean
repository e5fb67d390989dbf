import BoundaryTag.Heap.Basic

set_option autoImplicit false

/-! # Allocating, freeing and resizing

The operations on a heap. Each answers the heap as it is afterwards. A refusal leaves the bytes as
they were; a fault ends everything. -/

namespace BoundaryTag.Heap

variable {σ : Type} [Provider σ]

/-! ## Allocating -/

/-- Grows the region by a new allocated block in the place of the epilogue. -/
def append (h : Heap σ) (needed : Nat) : Traced (Outcome Nat σ) := do
  let block ← h.epilogue
  let prevAllocated ← h.memory.prevAllocatedAt block
  match ← Provider.extend h.region needed with
  | (.error refusal, region) => return (.error refusal, { h with region })
  | (.ok _, region) => do
    let memory ← setLast (Provider.memory region) block needed prevAllocated
    .record (.appended needed block)
    return (.ok block, { h with region := Provider.setMemory region memory })

/-- An allocated block of at least `needed` bytes: the first free block that fits, carved, or else
    a new block at the end. -/
def acquire (h : Heap σ) (needed : Nat) : Traced (Outcome Nat σ) := do
  match ← h.index.firstFit h.memory needed with
  | some block => do
    let memory ← FreeIndex.unlink h.memory block
    let memory ← carve h.index h.settings memory block needed
    return (.ok block, h.withMemory memory)
  | none => h.append needed

/-- Allocates at least `size` payload bytes. A request of zero bytes has no handle. -/
def allocate (h : Heap σ) (size : Nat) : Traced (Outcome (Option Handle) σ) := do
  if size = 0 then
    .record .allocatedNothing
    return (.ok none, h)
  else
    match ← Request.blockSize size with
    | none => return (.error (.requestTooLarge size), h)
    | some needed => do
      match ← h.acquire needed with
      | (.error refusal, h) => return (.error refusal, h)
      | (.ok block, h) => do
        let p ← Handle.ofBlock block
        .record (.allocated size p (← h.memory.sizeAt block))
        h.verify
        return (.ok (some p), h)

/-! ## Freeing -/

/-- Gives a block back: it is merged with its free neighbours and put on the list of its class. No
    handle is nothing to give back. -/
def free (h : Heap σ) : Option Handle → Traced (Heap σ)
  | none => do
    .record .freedNothing
    return h
  | some p => do
    let block ← p.block
    let tag ← h.memory.tagAt block
    let memory ← h.memory.formatFree block tag.size tag.prevAllocated
    let memory ← memory.markPrevAllocated (← memory.successor block) false
    let (start, memory) ← merge memory block
    let memory ← h.index.push memory start
    let h := h.withMemory memory
    .record (.freed p (← memory.sizeAt start) start)
    h.verify
    return h

/-! ## Resizing -/

/-- The ways to make an allocated block larger. -/
inductive Growth where
  /-- Take in the free block after it, of `nextSize` bytes. -/
  | absorbNext (nextSize : Nat)
  /-- Take in the free block after it, which is the last one, and grow the region. -/
  | absorbLast (nextSize : Nat)
  /-- Grow the region: the block is the last one. -/
  | growLast
  /-- Move the payload to another block. -/
  | move
  deriving DecidableEq

/-- How a block of `current` bytes, followed by `next`, can get `needed` bytes. The free block after
    it is taken in if that is enough or if the region can grow there. -/
def growth (h : Heap σ) (current next needed : Nat) : Except Fault Growth := do
  let epilogue ← h.epilogue
  let tag ← h.memory.tagAt next
  let afterNext ← h.memory.successor next
  let fallback : Growth := if next = epilogue then .growLast else .move
  if tag.allocated then
    return fallback
  else if needed ≤ (← Word.add current tag.size) then
    return .absorbNext tag.size
  else if afterNext = epilogue then
    return .absorbLast tag.size
  else
    return fallback

/-- Moves a payload to a newly allocated block and frees the old one. -/
def move (h : Heap σ) (p : Handle) (size : Nat) : Traced (Outcome (Option Handle) σ) := do
  match ← h.allocate size with
  | (.error refusal, h) => return (.error refusal, h)
  | (.ok none, h) => return (.ok none, h)
  | (.ok (some target), h) => do
    let n := min size (← h.usableSize p)
    let memory ← h.memory.copy p.offset target.offset n
    let h ← (h.withMemory memory).free (some p)
    .record (.moved p size n target)
    return (.ok (some target), h)

/-- Makes the block of a handle, with the given header, larger in the way given. -/
def enlarge (h : Heap σ) (p : Handle) (size block needed : Nat) (tag : Tag) :
    Growth → Traced (Outcome (Option Handle) σ)
  | .absorbNext nextSize => do
    let next ← h.memory.successor block
    let memory ← FreeIndex.unlink h.memory next
    let merged := Tag.inUse (← Word.add tag.size nextSize) tag.prevAllocated
    let memory ← memory.setHeader block merged
    let memory ← carve h.index h.settings memory block needed
    let h := h.withMemory memory
    .record (.absorbedNext p size nextSize)
    h.verify
    return (.ok (some p), h)
  | .absorbLast nextSize => do
    let next ← h.memory.successor block
    match ← Provider.extend h.region (← Word.sub (← Word.sub needed tag.size) nextSize) with
    | (.error refusal, region) => return (.error refusal, { h with region })
    | (.ok _, region) => do
      let memory ← FreeIndex.unlink (Provider.memory region) next
      let memory ← setLast memory block needed tag.prevAllocated
      let h := { h with region := Provider.setMemory region memory }
      .record (.absorbedLast p size)
      h.verify
      return (.ok (some p), h)
  | .growLast => do
    match ← Provider.extend h.region (← Word.sub needed tag.size) with
    | (.error refusal, region) => return (.error refusal, { h with region })
    | (.ok _, region) => do
      let memory ← setLast (Provider.memory region) block needed tag.prevAllocated
      let h := { h with region := Provider.setMemory region memory }
      .record (.grewLast p size)
      h.verify
      return (.ok (some p), h)
  | .move => h.move p size

/-- Changes the size of an allocation, in place if its neighbourhood allows it. Zero bytes free the
    allocation, and without a handle a new one is made. -/
def resize (h : Heap σ) (p : Option Handle) (size : Nat) : Traced (Outcome (Option Handle) σ) := do
  if size = 0 then
    let h ← h.free p
    return (.ok none, h)
  else
    match p with
    | none => h.allocate size
    | some p => do
      match ← Request.blockSize size with
      | none => return (.error (.requestTooLarge size), h)
      | some needed => do
        let block ← p.block
        let tag ← h.memory.tagAt block
        if needed ≤ tag.size then
          .record (.fitted p size tag.size)
          return (.ok (some p), h)
        else
          let next ← h.memory.successor block
          h.enlarge p size block needed tag (← h.growth tag.size next needed)

end BoundaryTag.Heap
