import BoundaryTag.Audit
import BoundaryTag.Census
import BoundaryTag.Heap.Reshape
import BoundaryTag.Memory.Lemmas
import BoundaryTag.Region

set_option autoImplicit false

/-! # Heaps

A heap manages the bytes of a provider, which is a region unless something else is said. First come
the heads of its lists, then its blocks side by side, and last the epilogue; whatever it knows about
a block is in the provider's bytes. This module holds the type, how a heap is laid out, and what can
be asked of it. -/

namespace BoundaryTag

/-- A region or another provider, the index of its free blocks, its tuning, and where its blocks
    start. -/
structure Heap (σ : Type := Region) where
  region : σ
  index : FreeIndex
  settings : Settings
  start : Nat

/-- An operation that may be refused answers the heap as it is after the operation, also if it was
    refused. -/
abbrev Heap.Outcome (α : Type) (σ : Type := Region) : Type := Except Refusal α × Heap σ

namespace Heap

variable {σ : Type} [Provider σ]

/-- The bytes of the heap. -/
def memory (h : Heap σ) : Memory :=
  Provider.memory h.region

/-- The heap with other bytes. -/
def withMemory (h : Heap σ) (memory : Memory) : Heap σ :=
  { h with region := Provider.setMemory h.region memory }

/-- Lays out an empty heap at the end of a region, which may have bytes already: the next aligned
    offset is the base of the list heads, and the epilogue follows them. -/
def init (region : σ) (settings : Settings) : Traced (Except Refusal (Heap σ)) := do
  match settings.validate with
  | .error objection => return .error (.invalidSettings objection)
  | .ok () => do
    let top := Provider.size region
    let base ← Word.align top
    let index : FreeIndex := ⟨← settings.classTable, base⟩
    let start ← Word.add base (← index.headsBytes)
    match ← Provider.extend region (← Word.sub (← Word.add start Block.epilogueBytes) top) with
    | (.error refusal, _) => return .error refusal
    | (.ok _, region) => do
      let memory ← index.reset (Provider.memory region)
      let memory ← setEpilogue memory start
      .record (.laidOut index.size start)
      return .ok { region := Provider.setMemory region memory, index, settings, start }

/-- The last word of the region. -/
def epilogue (h : Heap σ) : Except Fault Nat :=
  Word.sub (Provider.size h.region) Block.epilogueBytes

/-! ## Reports -/

/-- Audits the heap. -/
def check (h : Heap σ) : Except Fault (Except Violation Unit) :=
  Audit.run ⟨h.memory, h.index, h.start⟩

/-- The blocks of the heap, by address. -/
def blocks (h : Heap σ) : Except Fault (List Block) :=
  h.memory.blocksFrom (h.memory.size - Block.epilogueBytes) h.start

/-- How the heap is occupied. -/
def census (h : Heap σ) : Except Fault Census := do
  Census.ofBlocks h.memory.size (← h.blocks)

/-- The blocks on the free lists, class by class. -/
def freeEntries (h : Heap σ) : Except Fault (List FreeEntry) :=
  h.index.entries h.memory

/-- Audits the heap if the settings say so; damage is a fault. -/
def verify (h : Heap σ) : Traced Unit := do
  if h.settings.checkAfter then
    match ← h.check with
    | .ok () => return ()
    | .error violation => do
      .record (.damaged violation)
      .fail (.corruption violation)

/-! ## Payloads -/

/-- How many payload bytes a handle has: its block less the header. -/
def usableSize (h : Heap σ) (p : Handle) : Except Fault Nat := do
  Word.sub (← h.memory.sizeAt (← p.block)) Block.headerBytes

/-- How many payload bytes a handle has, all of which have to be inside the memory. -/
def payloadSize (h : Heap σ) (p : Handle) : Except Fault Nat := do
  let size ← h.usableSize p
  if p.offset + size ≤ h.memory.size then
    return size
  else
    throw .outOfRange

/-- The payload of a handle. -/
def payload (h : Heap σ) (p : Handle) : Except Fault (List UInt8) := do
  return h.memory.load p.offset (← h.payloadSize p)

/-- The `n` payload bytes after the first `skip`, if there are so many. -/
def readPayload? (h : Heap σ) (p : Handle) (skip n : Nat) : Except Fault (Option (List UInt8)) := do
  if skip + n ≤ (← h.payloadSize p) then
    return some (h.memory.load (p.offset + skip) n)
  else
    return none

/-- Overwrites the payload bytes after the first `skip`, if there are so many. -/
def writePayload? (h : Heap σ) (p : Handle) (skip : Nat) (bytes : List UInt8) :
    Except Fault (Option (Heap σ)) := do
  if skip + bytes.length ≤ (← h.payloadSize p) then
    return some (h.withMemory (h.memory.store (p.offset + skip) bytes))
  else
    return none

end Heap

end BoundaryTag
