import BoundaryTag.Failure
import BoundaryTag.Memory.Basic
import BoundaryTag.Traced

set_option autoImplicit false

/-! # Providers of memory

A heap does not own its bytes. It asks a provider for more of them at the end, and reads and
overwrites those that there are. Bytes are granted by whole requests, and none is ever taken back. -/

namespace BoundaryTag

/-- The memory with the given bytes. -/
def Memory.ofBytes (bytes : List UInt8) : Memory :=
  (Memory.zeroed bytes.length).store 0 bytes

/-- What a heap asks of the memory below it. -/
class Provider (σ : Type) where
  /-- Grows by so many bytes and answers the offset of the first new one. -/
  extend : σ → Nat → Traced (Except Refusal Nat × σ)
  /-- How many bytes there are now. -/
  size : σ → Nat
  /-- The bytes that there are. -/
  bytes : σ → List UInt8
  /-- The bytes that there are, as a memory. -/
  memory : σ → Memory
  /-- Overwrites the bytes that there are by those of a memory of the same size. -/
  setMemory : σ → Memory → σ

namespace Provider

variable {σ : Type} [Provider σ]

/-- Whether there are no bytes. -/
def isEmpty (s : σ) : Bool :=
  size s == 0

/-- The lowest offset. -/
def low (_ : σ) : Nat := 0

/-- The highest offset; zero while there are no bytes. -/
def high (s : σ) : Nat :=
  size s - 1

/-! ## Calls -/

/-- What can be asked of a provider. -/
inductive Call where
  | extend (bytes : Nat)
  /-- Overwrite the bytes from an offset on. -/
  | write (offset : Nat) (bytes : List UInt8)

/-- The answer to a call: where the new bytes start, nothing after a write, or a refusal. -/
abbrev Answer : Type := Except Refusal (Option Nat)

/-- Carries out a call. A write has to stay inside the bytes that there are. -/
def call (s : σ) : Call → Except Fault (Answer × σ)
  | .extend n => do
    let (base, s) ← (extend s n).result
    return (base.map some, s)
  | .write offset new =>
    match (memory s).overwrite? offset new with
    | some m => .ok (.ok none, setMemory s m)
    | none => .error .outOfRange

/-- Carries out calls one after the other. -/
def run (s : σ) : List Call → Except Fault (List Answer × σ)
  | [] => .ok ([], s)
  | c :: cs => do
    let (answer, s) ← call s c
    let (answers, s) ← run s cs
    return (answer :: answers, s)

/-- What can be seen of a provider. -/
structure Sight where
  size : Nat
  isEmpty : Bool
  low : Nat
  high : Nat
  bytes : List UInt8
  deriving DecidableEq

/-- How a provider looks now. -/
def sight (s : σ) : Sight :=
  ⟨size s, isEmpty s, low s, high s, bytes s⟩

end Provider

end BoundaryTag
