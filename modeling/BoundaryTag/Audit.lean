import BoundaryTag.FreeIndex

set_option autoImplicit false

/-! # Auditing a heap

An audit reads a heap's memory and says which rule of the data model is broken first, if one is. It
goes through the lists class by class, then through the blocks by address, and last compares the
two counts of free blocks. It copes with any bytes: a word that is not there is a violation and not
a fault. -/

namespace BoundaryTag

/-- Why an audit ends early. -/
inductive Finding where
  | violation (v : Violation)
  | fault (f : Fault)
  deriving DecidableEq

/-- What an audit looks at: blocks from `start` to the end of the memory. -/
structure Audit where
  memory : Memory
  index : FreeIndex
  start : Nat

namespace Audit

instance : MonadLift (Except Fault) (Except Finding) where
  monadLift x := x.mapError .fault

/-- Where the epilogue is: the last word of the memory. -/
def epilogue (a : Audit) : Nat :=
  a.memory.size - Block.epilogueBytes

/-- Ends the audit with a violation. -/
def violated {α : Type} (offset : Nat) (kind : Violation.Kind) : Except Finding α :=
  .error (.violation ⟨offset, kind⟩)

/-- Goes on only if `ok` holds. -/
def require (ok : Bool) (offset : Nat) (kind : Violation.Kind) : Except Finding Unit :=
  if ok then .ok () else violated offset kind

theorem require_eq_ok_iff {ok : Bool} {offset : Nat} {kind : Violation.Kind} :
    require ok offset kind = .ok () ↔ ok = true := by
  cases ok <;> simp [require, violated]

/-- The word at an offset. -/
def word (a : Audit) (offset : Nat) : Except Finding Nat :=
  match a.memory.word? offset with
  | some w => .ok w
  | none => violated offset .truncated

/-- The tag at an offset. -/
def tag (a : Audit) (offset : Nat) : Except Finding Tag :=
  return Tag.unpack (← a.word offset)

/-- The link from a node to the next one. -/
def nextLink (a : Audit) (node : Nat) : Except Finding Nat := do
  a.word (← Word.add node Block.headerBytes)

/-- The link from a node to the one before. -/
def priorLink (a : Audit) (node : Nat) : Except Finding Nat := do
  a.word (← Word.add (← Word.add node Block.headerBytes) Word.bytes)

/-! ## The lists -/

/-- Whether a block could start at an offset. -/
def inHeap (a : Audit) (offset : Nat) : Bool :=
  a.start ≤ offset && offset < a.epilogue && offset % Block.alignment == 0

/-- More blocks than this do not fit. -/
def maxBlocks (a : Audit) : Nat :=
  (a.epilogue - a.start) / Block.least

/-- A node has to lie where a block could be, be free, link back to the node before it and belong to
    the class of the list. -/
def checkNode (a : Audit) (c prior node : Nat) : Except Finding Unit := do
  require (a.inHeap node) prior (.linkOutOfBounds node)
  let tag ← a.tag node
  require (!tag.allocated) node .allocatedOnFreeList
  let back ← a.priorLink node
  require (back == prior) node (.brokenLink prior back)
  let expected := a.index.classify tag.size
  require (expected == c) node (.wrongSizeClass tag.size expected c)

/-- The head of a list has to link back to the last node. -/
def checkReturn (a : Audit) (head prior : Nat) : Except Finding Unit := do
  let back ← a.priorLink head
  require (back == prior) head (.brokenLink prior back)

/-- Checks the nodes of a list from `cursor` on and counts them. There may be `room` of them. -/
def countList (a : Audit) (c head : Nat) : Nat → Nat → Nat → Except Finding Nat
  | room, prior, cursor =>
    if cursor = head then do
      a.checkReturn head prior
      return 0
    else
      match room with
      | 0 => violated head .freeListCycle
      | room + 1 => do
        a.checkNode c prior cursor
        let next ← a.nextLink cursor
        return (← a.countList c head room cursor next) + 1

/-- Checks the list of a class and counts its nodes. -/
def countClass (a : Audit) (c : Nat) : Except Finding Nat := do
  let head ← a.index.head c
  let first ← a.nextLink head
  a.countList c head (a.maxBlocks + 1) head first

/-- Checks the lists of all classes and counts their nodes. -/
def countListed (a : Audit) : Except Finding Nat :=
  (List.range a.index.size).foldlM (fun n c => return n + (← a.countClass c)) 0

/-! ## The blocks -/

/-- A block has to tell the truth about the block before it. If it is free, its footer has to
    repeat the header, and the block before must not be free as well. -/
def checkBlock (a : Audit) (block : Nat) (tag : Tag) (prevFree : Bool) : Except Finding Unit := do
  require (tag.prevAllocated != prevFree) block (.prevAllocatedMismatch !prevFree)
  if tag.allocated then
    return ()
  else
    let footer ← a.word (← Word.sub (← Word.add block tag.size) Block.footerBytes)
    require (footer == tag.pack) block (.footerMismatch tag.pack footer)
    require (!prevFree) block .uncoalescedNeighbours

/-- The walk has to end at the epilogue, which is an allocated tag of one word and tells the truth
    about the block before it. -/
def checkEpilogue (a : Audit) (offset : Nat) (prevFree : Bool) : Except Finding Unit := do
  let tag ← a.tag a.epilogue
  require (offset == a.epilogue && tag.allocated && tag.size == Block.epilogueBytes)
    a.epilogue .badEpilogue
  require (tag.prevAllocated != prevFree) a.epilogue (.prevAllocatedMismatch !prevFree)

/-- Checks the blocks from `offset` on, each of which has at least the least size and ends before
    the epilogue, and counts the free ones. -/
def countWalked (a : Audit) (offset : Nat) (prevFree : Bool) : Except Finding Nat :=
  if offset < a.epilogue then do
    let tag ← a.tag offset
    if _h : tag.size < Block.least ∨ tag.size % Block.alignment ≠ 0 then
      violated offset (.badBlockSize tag.size)
    else if a.epilogue < offset + tag.size then
      violated offset (.blockOutOfBounds tag.size)
    else
      a.checkBlock offset tag prevFree
      let n ← a.countWalked (offset + tag.size) (!tag.allocated)
      return n + (!tag.allocated).toNat
  else do
    a.checkEpilogue offset prevFree
    return 0
termination_by a.epilogue - offset
decreasing_by
  simp only [Block.least, Block.headerBytes, Block.footerBytes, Word.bytes] at _h
  omega

/-! ## The whole audit -/

/-- Checks everything; the same number of free blocks has to be listed and walked over. -/
def inspect (a : Audit) : Except Finding Unit := do
  let listed ← a.countListed
  let walked ← a.countWalked a.start false
  require (listed == walked) a.start (.freeCountMismatch listed walked)

/-- The verdict of an audit: sound, or the first violation. -/
def run (a : Audit) : Except Fault (Except Violation Unit) :=
  match a.inspect with
  | .ok () => .ok (.ok ())
  | .error (.violation v) => .ok (.error v)
  | .error (.fault f) => .error f

/-- The verdict is sound exactly if every check passes. -/
theorem run_eq_sound_iff {a : Audit} : a.run = .ok (.ok ()) ↔ a.inspect = .ok () := by
  unfold run
  split <;> simp_all

end Audit

end BoundaryTag
