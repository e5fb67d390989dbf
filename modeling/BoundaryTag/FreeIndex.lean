import BoundaryTag.ClassTable
import BoundaryTag.Layout

set_option autoImplicit false

/-! # The free index

Each class has a circular list of free blocks, linked both ways through the blocks themselves. The
heads of the lists lie side by side from the base on; the head of an empty list links to itself. A
block is pushed at the front, so a list holds the block that was freed last first.

A list that does not come back to its head within as many steps as the memory has bytes visits some
node twice and never comes back: following it is a fault. -/

namespace BoundaryTag

/-- The lists of the classes of a table, their heads from `base` on. -/
structure FreeIndex where
  classes : ClassTable
  base : Nat
  deriving DecidableEq

namespace FreeIndex

/-- How many lists there are. -/
def size (x : FreeIndex) : Nat :=
  x.classes.size

/-- The class of a block size. -/
def classify (x : FreeIndex) (blockSize : Nat) : Nat :=
  x.classes.classify blockSize

/-- Bytes that the heads take. -/
def headsBytes (x : FreeIndex) : Except Fault Nat :=
  Word.mul x.size Block.headBytes

/-- The head of a class. -/
def head (x : FreeIndex) (c : Nat) : Except Fault Nat := do
  Word.add x.base (← Word.mul c Block.headBytes)

theorem head_eq_ok_iff {x : FreeIndex} {c node : Nat} :
    x.head c = .ok node ↔ x.base + c * 24 = node ∧ node < Word.limit := by
  have h24 : Block.headBytes = 24 := rfl
  rw [head, h24]
  by_cases hm : c * 24 < Word.limit
  · rw [Word.mul_eq_ok_iff.mpr ⟨rfl, hm⟩]
    exact Word.add_eq_ok_iff
  · have he : Word.mul c 24 = .error .overflow := if_neg hm
    rw [he]
    constructor
    · intro h
      cases h
    · rintro ⟨rfl, h⟩
      exact absurd (Nat.lt_of_le_of_lt (Nat.le_add_left _ _) h) hm

/-- Whether a node is the head of a class. -/
def isHead (x : FreeIndex) (node : Nat) : Except Fault Bool := do
  if node < x.base then
    return false
  else
    let stop ← Word.add x.base (← x.headsBytes)
    return node < stop && (node - x.base) % Block.headBytes == 0

/-! ## Changing lists -/

/-- Writes the head of an empty list. -/
def resetHead (x : FreeIndex) (m : Memory) (c : Nat) : Except Fault Memory := do
  let head ← x.head c
  let m ← m.setHeader head (Tag.inUse 0 true)
  let m ← m.setNextLink head head
  m.setPriorLink head head

/-- Makes every list empty. -/
def reset (x : FreeIndex) (m : Memory) : Except Fault Memory :=
  (List.range x.size).foldlM x.resetHead m

/-- Puts a free block that is on no list at the front of the list of its class. -/
def push (x : FreeIndex) (m : Memory) (block : Nat) : Except Fault Memory := do
  if ← m.freeAt block then
    let head ← x.head (x.classify (← m.sizeAt block))
    let first ← m.nextLink head
    let m ← m.setPriorLink block head
    let m ← m.setNextLink block first
    let m ← m.setPriorLink first block
    m.setNextLink head block
  else
    throw (.pushingAllocated block)

/-- Whether the nodes before and after a block link to it. The node before is asked first. -/
def isLinked (m : Memory) (block prior next : Nat) : Except Fault Bool := do
  if (← m.nextLink prior) = block then
    return (← m.priorLink next) == block
  else
    return false

/-- Takes a block off its list by linking its neighbours to each other. -/
def unlink (m : Memory) (block : Nat) : Except Fault Memory := do
  let next ← m.nextLink block
  let prior ← m.priorLink block
  if ← isLinked m block prior next then
    let m ← m.setNextLink prior next
    m.setPriorLink next prior
  else
    throw (.unlinkingUnlisted block)

/-! ## Following lists -/

/-- The nodes from `cursor` on until the head comes up, but at most `n` of them. -/
def follow (m : Memory) (head : Nat) : Nat → Nat → Except Fault (List Nat)
  | 0, _ => return []
  | n + 1, cursor =>
    if cursor = head then
      return []
    else do
      let next ← m.nextLink cursor
      return cursor :: (← follow m head n next)

/-- The first blocks of a class, at most `n`. -/
def firstMembers (x : FreeIndex) (m : Memory) (c n : Nat) : Except Fault (List Nat) := do
  let head ← x.head c
  follow m head n (← m.nextLink head)

/-- The blocks of a class, the last pushed first. -/
def members (x : FreeIndex) (m : Memory) (c : Nat) : Except Fault (List Nat) := do
  let blocks ← x.firstMembers m c (m.size + 1)
  if blocks.length ≤ m.size then
    return blocks
  else
    throw .endlessList

/-- The first node from `cursor` on of at least `minSize` bytes, among at most `n`. The link of a
    node is read before its size is looked at. -/
def firstOfSize (m : Memory) (head minSize : Nat) : Nat → Nat → Except Fault (Option Nat)
  | 0, _ => throw .endlessList
  | n + 1, cursor =>
    if cursor = head then
      return none
    else do
      let next ← m.nextLink cursor
      if minSize ≤ (← m.sizeAt cursor) then
        return some cursor
      else
        firstOfSize m head minSize n next

/-- The first block of a class that has at least `minSize` bytes. -/
def firstFitIn (x : FreeIndex) (m : Memory) (minSize c : Nat) : Except Fault (Option Nat) := do
  let head ← x.head c
  firstOfSize m head minSize (m.size + 1) (← m.nextLink head)

/-- The first block of at least `minSize` bytes in the class of `minSize` or, failing that, in the
    lowest class above that has one. -/
def firstFit (x : FreeIndex) (m : Memory) (minSize : Nat) : Except Fault (Option Nat) :=
  let c := x.classify minSize
  (List.range' c (x.size - c)).findSomeM? (x.firstFitIn m minSize)

end FreeIndex

end BoundaryTag
