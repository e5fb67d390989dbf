import BoundaryTag.Memory.Basic
import BoundaryTag.Tag

set_option autoImplicit false

/-! # Block layout

Blocks lie side by side in memory and are named by the offset of their header.

    allocated    header (size, A, P)   payload ...
    free         header (size, 0, P)   next   prior   ...   footer (size, 0, P)

The flag `A` says that the block is allocated and `P` that the block before it is. A free block
repeats its tag in its last word, the footer, so that the block after it can find its start, and
uses its first two payload words as links of a list. The heads of the lists have a tag and two
links as well, and the heap ends in a lone tag, the epilogue.

The operations here read and write these fields at any offset, meaningful or not; an offset out of
range is a fault. -/

namespace BoundaryTag

/-! ## Sizes of the parts -/

namespace Block

/-- Block sizes and payload offsets are multiples of the alignment. -/
abbrev alignment : Nat := 8

/-- Bytes of the tag in front of a payload. -/
abbrev headerBytes : Nat := 8

/-- Bytes of the tag at the end of a free block. -/
abbrev footerBytes : Nat := 8

/-- Bytes of both tags. -/
abbrev overhead : Nat := headerBytes + footerBytes

/-- The least block: two tags and two links. -/
abbrev least : Nat := headerBytes + 2 * Word.bytes + footerBytes

/-- Bytes of a list head: a tag and two links. -/
abbrev headBytes : Nat := headerBytes + 2 * Word.bytes

/-- Bytes of the tag that ends the heap. -/
abbrev epilogueBytes : Nat := headerBytes

end Block

namespace Memory

/-! ## Tags -/

/-- The header of the block. -/
def tagAt (m : Memory) (block : Nat) : Except Fault Tag :=
  return Tag.unpack (← m.readWord block)

/-- The size in the header of the block. -/
def sizeAt (m : Memory) (block : Nat) : Except Fault Nat :=
  return (← m.tagAt block).size

/-- Whether the header calls the block free. -/
def freeAt (m : Memory) (block : Nat) : Except Fault Bool :=
  return !(← m.tagAt block).allocated

/-- Whether the header calls the block before allocated. -/
def prevAllocatedAt (m : Memory) (block : Nat) : Except Fault Bool :=
  return (← m.tagAt block).prevAllocated

/-- Where the footer of the block is. -/
def footerOffset (m : Memory) (block : Nat) : Except Fault Nat := do
  Word.sub (← Word.add block (← m.sizeAt block)) Block.footerBytes

/-- The footer of the block. -/
def footerAt (m : Memory) (block : Nat) : Except Fault Tag := do
  m.tagAt (← m.footerOffset block)

/-- The block after this one. -/
def successor (m : Memory) (block : Nat) : Except Fault Nat := do
  Word.add block (← m.sizeAt block)

/-- The block before this one, found through its footer: right only if that block is free. -/
def predecessor (m : Memory) (block : Nat) : Except Fault Nat := do
  let footer ← m.tagAt (← Word.sub block Block.footerBytes)
  Word.sub block footer.size

/-- Writes the header of the block. -/
def setHeader (m : Memory) (block : Nat) (tag : Tag) : Except Fault Memory :=
  m.writeWord block tag.pack

/-- Writes a tag into the last word of a block of the size in the tag. -/
def setFooter (m : Memory) (block : Nat) (tag : Tag) : Except Fault Memory := do
  m.writeWord (← Word.sub (← Word.add block tag.size) Block.footerBytes) tag.pack

/-- Writes the header and the footer of a free block. -/
def formatFree (m : Memory) (block size : Nat) (prevAllocated : Bool) : Except Fault Memory := do
  let m ← m.setHeader block (Tag.free size prevAllocated)
  m.setFooter block (Tag.free size prevAllocated)

/-- Records the state of the block before. A free block large enough to have a footer keeps it
    equal to its header. -/
def markPrevAllocated (m : Memory) (block : Nat) (prevAllocated : Bool) :
    Except Fault Memory := do
  let tag ← m.tagAt block
  let m ← m.setHeader block { tag with prevAllocated }
  if !tag.allocated && Block.least ≤ tag.size then
    m.setFooter block { tag with prevAllocated }
  else
    return m

/-! ## Links -/

/-- The node after this one on its list. -/
def nextLink (m : Memory) (node : Nat) : Except Fault Nat := do
  m.readWord (← Word.add node Block.headerBytes)

/-- The node before this one on its list. -/
def priorLink (m : Memory) (node : Nat) : Except Fault Nat := do
  m.readWord (← Word.add (← Word.add node Block.headerBytes) Word.bytes)

/-- Sets the link to the node after. -/
def setNextLink (m : Memory) (node next : Nat) : Except Fault Memory := do
  m.writeWord (← Word.add node Block.headerBytes) next

/-- Sets the link to the node before. -/
def setPriorLink (m : Memory) (node prior : Nat) : Except Fault Memory := do
  m.writeWord (← Word.add (← Word.add node Block.headerBytes) Word.bytes) prior

end Memory

/-! ## Walking

The size in a header leads to the next block. A walk lists the blocks that it meets in this way. -/

/-- A block as a walk meets it: where it starts and what its header says. -/
structure Block where
  offset : Nat
  tag : Tag
  deriving DecidableEq, Repr

/-- The blocks from `offset` up to `stop`. A block of size zero leads nowhere and ends the walk. -/
def Memory.blocksFrom (m : Memory) (stop offset : Nat) : Except Fault (List Block) :=
  if offset < stop then do
    let tag ← m.tagAt offset
    if _h : tag.size = 0 then
      return []
    else
      match _hn : Word.add offset tag.size with
      | .error fault => throw fault
      | .ok next => return ⟨offset, tag⟩ :: (← m.blocksFrom stop next)
  else
    return []
termination_by stop - offset
decreasing_by
  have := Word.add_eq_ok_iff.mp _hn
  omega

end BoundaryTag
