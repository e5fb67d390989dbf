import Std.Data.TreeMap
import BoundaryTag.Word
import BoundaryTag.Memory.LittleEndian

set_option autoImplicit false

/-! # Memory

A memory is a row of bytes at the offsets `0, …, size - 1`. Bytes that were never written are zero,
and only written bytes take space, so a memory may be far larger than what is stored in it. All
access is checked against the size: what lies outside cannot be read or written. -/

namespace BoundaryTag

/-- A row of `size` bytes, zero where nothing else is stored. -/
structure Memory where
  size : Nat
  cells : Std.TreeMap Nat UInt8
  /-- Nothing but zero is stored at or above the size, so memory grows by zero bytes. -/
  zero_above : ∀ i, size ≤ i → cells.getD i 0 = 0

namespace Memory

/-- A memory of zero bytes. -/
def zeroed (size : Nat) : Memory where
  size := size
  cells := ∅
  zero_above := fun _ _ => Std.TreeMap.getD_emptyc

/-- The byte at an offset; zero outside the memory. -/
def byte (m : Memory) (i : Nat) : UInt8 :=
  m.cells.getD i 0

/-- Sets the byte at an offset inside the memory, and nothing if the offset is outside. -/
def setByte (m : Memory) (i : Nat) (b : UInt8) : Memory :=
  if h : i < m.size then
    { size := m.size
      cells := m.cells.insert i b
      zero_above := by
        intro j hj
        rw [Std.TreeMap.getD_insert, if_neg, m.zero_above j hj]
        rw [Std.LawfulEqCmp.compare_eq_iff_eq]
        omega }
  else m

/-- The `n` bytes from an offset on. -/
def load (m : Memory) (i n : Nat) : List UInt8 :=
  (List.range' i n).map m.byte

/-- Writes bytes from an offset on. -/
def store (m : Memory) (i : Nat) : List UInt8 → Memory
  | [] => m
  | b :: bs => store (if m.byte i = b then m else m.setByte i b) (i + 1) bs

/-- More zero bytes at the end. -/
def grow (m : Memory) (n : Nat) : Memory where
  size := m.size + n
  cells := m.cells
  zero_above := fun i h => m.zero_above i (Nat.le_trans (Nat.le_add_right _ _) h)

/-! ## Checked access -/

/-- The `n` bytes from an offset on, if all of them are inside. -/
def slice? (m : Memory) (i n : Nat) : Option (List UInt8) :=
  if i + n ≤ m.size then some (m.load i n) else none

/-- Overwrites the bytes from an offset on, if all of them are inside. -/
def overwrite? (m : Memory) (i : Nat) (bs : List UInt8) : Option Memory :=
  if i + bs.length ≤ m.size then some (m.store i bs) else none

/-- The word at an offset, if it is inside. -/
def word? (m : Memory) (i : Nat) : Option Nat :=
  (m.slice? i Word.bytes).map LittleEndian.ofBytes

/-- The word at an offset. -/
def readWord (m : Memory) (i : Nat) : Except Fault Nat :=
  match m.word? i with
  | some w => .ok w
  | none => .error .outOfRange

/-- Overwrites the word at an offset. -/
def writeWord (m : Memory) (i w : Nat) : Except Fault Memory :=
  match m.overwrite? i (LittleEndian.toBytes Word.bytes w) with
  | some m' => .ok m'
  | none => .error .outOfRange

/-- Copies `n` bytes from one place to another, as if through a buffer: the places may overlap. -/
def copy (m : Memory) (source target n : Nat) : Except Fault Memory :=
  match m.slice? source n with
  | none => .error .outOfRange
  | some bs =>
    match m.overwrite? target bs with
    | some m' => .ok m'
    | none => .error .outOfRange

end Memory

end BoundaryTag
