import BoundaryTag.Request

set_option autoImplicit false

/-! # Events

The library tells what it does as it goes: each event is one line of a log, with a level. -/

namespace BoundaryTag

/-- Where the bytes of a region come from: storage that grows with the region, or address space
    that was reserved for all of it at the start. -/
inductive Backing where
  | owned
  | reserved
  deriving DecidableEq, Repr

/-- The kind of region in log lines. -/
def Backing.label : Backing → String
  | .owned => "VecArena"
  | .reserved => "MmapArena"

/-- How much a log line matters. -/
inductive Level where
  | trace
  | debug
  | warn
  | error
  deriving DecidableEq, Repr

/-- What can happen. -/
inductive Event where
  /-- A region grew. -/
  | extended (backing : Backing) (bytes before after : Nat)
  /-- A region was not allowed to grow. -/
  | extensionRefused (backing : Backing) (bytes used limit : Nat)
  /-- The list heads and the epilogue of a new heap were written. -/
  | laidOut (classes start : Nat)
  /-- Zero bytes were requested. -/
  | allocatedNothing
  /-- A request was served. -/
  | allocated (size : Nat) (handle : Handle) (blockSize : Nat)
  /-- No handle was given back. -/
  | freedNothing
  /-- A block was freed and, merged, put on a list. -/
  | freed (handle : Handle) (blockSize block : Nat)
  /-- A resized block was large enough already. -/
  | fitted (handle : Handle) (size blockSize : Nat)
  /-- A resized block took in the free block after it. -/
  | absorbedNext (handle : Handle) (size nextSize : Nat)
  /-- A resized block took in the free block at the end, and the region grew. -/
  | absorbedLast (handle : Handle) (size : Nat)
  /-- The last block was resized, and the region grew. -/
  | grewLast (handle : Handle) (size : Nat)
  /-- A resized block's payload was moved to another block. -/
  | moved (handle : Handle) (size bytes : Nat) (target : Handle)
  /-- The region grew for a new block. -/
  | appended (bytes block : Nat)
  /-- A block was split. -/
  | split (blockSize block kept rest : Nat)
  /-- A free block was merged with free neighbours. -/
  | merged (block size mergedSize start : Nat)
  /-- The audit after an operation failed. -/
  | damaged (violation : Violation)
  deriving DecidableEq

namespace Event

open Text (hex)

/-- Refused growth is a warning and damage an error; changes of the region and a new heap are
    debug lines, all else is trace. -/
def level : Event → Level
  | .extended .. | .laidOut .. | .appended .. => .debug
  | .extensionRefused .. => .warn
  | .damaged .. => .error
  | _ => .trace

/-- The log line. -/
def text : Event → String
  | .extended backing bytes before after =>
    s!"{backing.label}::extend({hex bytes}): break {hex before} -> {hex after}"
  | .extensionRefused backing bytes used limit =>
    s!"{backing.label}::extend({hex bytes}) refused at {hex used} of {hex limit}"
  | .laidOut classes start =>
    s!"BlockAllocator::init: {classes} size classes, heap starts at {hex start}"
  | .allocatedNothing => "allocate(0) -> null"
  | .allocated size handle blockSize =>
    s!"allocate({size}) -> {handle.text} ({blockSize} byte block)"
  | .freedNothing => "free(null)"
  | .freed handle blockSize block =>
    s!"free({handle.text}): {blockSize} byte free block at {hex block}"
  | .fitted handle size blockSize =>
    s!"resize({handle.text}, {size}): {blockSize} byte block already fits"
  | .absorbedNext handle size nextSize =>
    s!"resize({handle.text}, {size}): absorbed {nextSize} bytes from the next block"
  | .absorbedLast handle size =>
    s!"resize({handle.text}, {size}): absorbed the trailing free block and grew the arena"
  | .grewLast handle size => s!"resize({handle.text}, {size}): grew the last block in place"
  | .moved handle size bytes target =>
    s!"resize({handle.text}, {size}): moved {bytes} bytes to {target.text}"
  | .appended bytes block => s!"grew arena by {bytes} bytes for a block at {hex block}"
  | .split blockSize block kept rest =>
    s!"split {blockSize} byte block at {hex block}: {kept} allocated, {rest} free"
  | .merged block size mergedSize start =>
    s!"coalesce {hex block}: {size} -> {mergedSize} bytes at {hex start}"
  | .damaged violation => violation.message

end Event

end BoundaryTag
