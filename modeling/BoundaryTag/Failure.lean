set_option autoImplicit false

/-! # Failures

A refusal is an ordinary failure: the operation says why it cannot be done, and everything goes on
as before. A fault is an abnormal end: there is no answer, and the heap is not to be used any more.
What an audit finds is a violation of the heap's data model, which names the rule that is broken, the
offset where it was found and the numbers that show it. -/

namespace BoundaryTag

/-! ## Refusals -/

/-- What is wrong with settings, or with the capacity asked for. -/
inductive Objection where
  /-- Some threshold is zero. -/
  | zeroThreshold
  /-- The thresholds do not ascend strictly. -/
  | unorderedThresholds (thresholds : List Nat)
  /-- The least split payload cannot hold two links, or breaks the alignment. -/
  | badSplitPayload (bytes : Nat)
  /-- No whole number of pages makes up the capacity. -/
  | badCapacity (bytes : Nat)
  deriving DecidableEq, Repr

/-- Why an operation was refused. -/
inductive Refusal where
  /-- The region may not grow by what was asked for. -/
  | outOfMemory (requested used limit : Nat)
  /-- No block size is large enough for the request. -/
  | requestTooLarge (size : Nat)
  /-- The settings were judged invalid. -/
  | invalidSettings (objection : Objection)
  /-- The host has no address space of that size. -/
  | notReserved (size : Nat)
  deriving DecidableEq, Repr

/-- The reason in words. -/
def Objection.message : Objection → String
  | .zeroThreshold => "size-class thresholds must be positive"
  | .unorderedThresholds thresholds =>
    let list := ", ".intercalate (thresholds.map toString)
    s!"size-class thresholds must be strictly ascending, got [{list}]"
  | .badSplitPayload bytes =>
    s!"minimum split payload must be a multiple of 8 and at least 16, got {bytes}"
  | .badCapacity bytes => s!"cannot reserve an arena of {bytes} bytes"

/-- The refusal in words. -/
def Refusal.message : Refusal → String
  | .outOfMemory requested used limit =>
    s!"arena exhausted: cannot grow by {requested} bytes ({used} of {limit} bytes in use)"
  | .requestTooLarge size => s!"allocation request of {size} bytes is too large"
  | .invalidSettings objection => s!"invalid allocator configuration: {objection.message}"
  | .notReserved size => s!"failed to reserve {size} bytes of address space"

/-! ## Violations

The message of a violation is the one-line report, where offsets and raw words are written as `0x`
followed by lower-case hexadecimal digits without leading zeros. -/

/-- A number as `0x` and its lower-case hexadecimal digits; zero is `0x0`. -/
def Text.hex (n : Nat) : String :=
  "0x" ++ String.ofList (Nat.toDigits 16 n)

open Text (hex)

/-- The rules that an audit can find broken, with the numbers found. -/
inductive Violation.Kind where
  /-- A word that the audit needs lies past the end of the memory. -/
  | truncated
  /-- A listed block carries the allocated flag. -/
  | allocatedOnFreeList
  /-- A next link leads to no place where a block could start. -/
  | linkOutOfBounds (link : Nat)
  /-- A prior link does not name the node before it. -/
  | brokenLink (expected found : Nat)
  /-- A listed block belongs to another class. -/
  | wrongSizeClass (size expected found : Nat)
  /-- A list holds more nodes than there can be blocks. -/
  | freeListCycle
  /-- A block is smaller than the least block or not a multiple of the alignment. -/
  | badBlockSize (size : Nat)
  /-- A block ends beyond the epilogue. -/
  | blockOutOfBounds (size : Nat)
  /-- The two copies of a free block's tag differ. -/
  | footerMismatch (header footer : Nat)
  /-- Two free blocks touch. -/
  | uncoalescedNeighbours
  /-- A flag does not tell the state of the block before. -/
  | prevAllocatedMismatch (expected : Bool)
  /-- The heap does not end in an allocated tag of one word. -/
  | badEpilogue
  /-- The lists and the walk by address count differently. -/
  | freeCountMismatch (listed walked : Nat)
  deriving DecidableEq, Repr

/-- A broken rule and the offset where it was found. -/
structure Violation where
  offset : Nat
  kind : Violation.Kind
  deriving DecidableEq, Repr

/-- What is wrong, in one phrase: links and raw tags in hexadecimal, sizes, classes and counts
    in decimal. -/
def Violation.Kind.message : Violation.Kind → String
  | .truncated => "tag read past the end of the arena"
  | .allocatedOnFreeList => "block on a free list is marked allocated"
  | .linkOutOfBounds link => s!"free-list link {hex link} points outside the heap"
  | .brokenLink expected found => s!"prior link is {hex found}, expected {hex expected}"
  | .wrongSizeClass size expected found =>
    s!"block of {size} bytes sits in class {found}, expected class {expected}"
  | .freeListCycle => "free list does not return to its sentinel"
  | .badBlockSize size => s!"block size {size} is misaligned or below the minimum"
  | .blockOutOfBounds size => s!"block of {size} bytes runs past the epilogue"
  | .footerMismatch header footer =>
    s!"footer {hex footer} disagrees with header {hex header}"
  | .uncoalescedNeighbours => "free block follows another free block"
  | .prevAllocatedMismatch expected => s!"previous-allocated bit should be {expected}"
  | .badEpilogue => "epilogue is not a one-word allocated block"
  | .freeCountMismatch listed walked =>
    s!"{listed} blocks on free lists but {walked} free blocks in the heap"

/-- The report of a violation: where, then what. -/
def Violation.message (v : Violation) : String :=
  s!"heap corruption at offset {hex v.offset}: {v.kind.message}"

/-! ## Faults -/

/-- The causes of an abnormal end. -/
inductive Fault where
  /-- A sum, difference or product left the range of a word. -/
  | overflow
  /-- Bytes outside the memory were asked for. -/
  | outOfRange
  /-- Owned storage would have to be larger than a host can address. -/
  | storageTooLarge
  /-- A class table was asked for whose thresholds do not ascend strictly. -/
  | unsortedThresholds
  /-- A list never returns to its head. -/
  | endlessList
  /-- An allocated block was about to be put on a free list. -/
  | pushingAllocated (offset : Nat)
  /-- A block that its neighbours do not link to was about to be taken off its list. -/
  | unlinkingUnlisted (offset : Nat)
  /-- The audit after an operation found the heap damaged. -/
  | corruption (violation : Violation)
  deriving DecidableEq, Repr

/-- The text that goes with an abnormal end; block offsets are decimal here. -/
def Fault.message : Fault → String
  | .overflow => "arithmetic left the range of a word"
  | .outOfRange => "access outside the arena"
  | .storageTooLarge => "capacity overflow"
  | .unsortedThresholds => "size-class thresholds do not ascend"
  | .endlessList => "free list does not end"
  | .pushingAllocated offset => s!"inserting allocated block Block({offset})"
  | .unlinkingUnlisted offset => s!"removing block Block({offset}) that is not on a free list"
  | .corruption violation => violation.message

end BoundaryTag
