import BoundaryTag.Provider.Basic

set_option autoImplicit false

/-! # Regions

A region is memory that grows at its end, by whole requests, up to a limit. New bytes are zero and
old ones stay. A request that would pass the limit is refused as a whole. -/

namespace BoundaryTag

/-- Memory and the most bytes that it may have. -/
structure Region where
  backing : Backing
  limit : Nat
  memory : Memory

/-- Whether the backing can hold so many bytes. Owned storage is made of whole words and has to
    stay below half the address range; reserved space is there from the start. -/
def Backing.holds : Backing → Nat → Bool
  | .owned, n => (n + 7) / 8 * 8 < 0x8000000000000000
  | .reserved, _ => true

namespace Region

/-- The limit of a region for which none is given: 20 MiB. -/
def defaultLimit : Nat := 20 * 1024 * 1024

/-- An empty region with storage of its own. -/
def empty (limit : Nat) : Region :=
  ⟨.owned, limit, .zeroed 0⟩

/-- Bytes in a page of address space. -/
def pageBytes : Nat := 4096

/-- Which sizes a host with 47-bit addresses reserves: those that fit below its last address. -/
def hostGrants (size : Nat) : Bool :=
  size < 0x800000000000

/-- An empty region in address space reserved for at least `capacity` bytes, in whole pages.
    `grants` says which sizes the host reserves. -/
def reserve (grants : Nat → Bool) (capacity : Nat) : Except Fault (Except Refusal Region) := do
  if 0 < capacity ∧ capacity + (pageBytes - 1) < Word.limit then
    let size ← Word.alignTo capacity pageBytes
    if grants size then
      return .ok ⟨.reserved, size, .zeroed 0⟩
    else
      return .error (.notReserved size)
  else
    return .error (.invalidSettings (.badCapacity capacity))

/-- How many bytes the region has now. -/
def size (r : Region) : Nat :=
  r.memory.size

/-- Grows the region and answers the offset of the first new byte. -/
def extend (r : Region) (bytes : Nat) : Traced (Except Refusal Nat × Region) := do
  let base := r.size
  let top := base + bytes
  if top < Word.limit ∧ top ≤ r.limit then
    if r.backing.holds top then
      .record (.extended r.backing bytes base top)
      return (.ok base, { r with memory := r.memory.grow bytes })
    else
      .fail .storageTooLarge
  else
    .record (.extensionRefused r.backing bytes base r.limit)
    return (.error (.outOfMemory bytes base r.limit), r)

instance : Provider Region where
  extend := extend
  size := size
  bytes r := r.memory.load 0 r.size
  memory := memory
  setMemory r memory := { r with memory }

@[simp] theorem provider_extend (r : Region) (bytes : Nat) :
    Provider.extend r bytes = r.extend bytes := rfl

@[simp] theorem provider_size (r : Region) : Provider.size r = r.size := rfl

@[simp] theorem provider_memory (r : Region) : Provider.memory r = r.memory := rfl

@[simp] theorem provider_setMemory (r : Region) (memory : Memory) :
    Provider.setMemory r memory = { r with memory } := rfl

/-- Whether the region has no bytes. -/
def isEmpty (r : Region) : Bool :=
  Provider.isEmpty r

/-- The lowest offset. -/
def low (r : Region) : Nat :=
  Provider.low r

/-- The highest offset; zero while the region is empty. -/
def high (r : Region) : Nat :=
  Provider.high r

/-- Growth up to the limit is granted as a whole and adds zero bytes at the end. -/
theorem result_extend_of_le {r : Region} {bytes : Nat} (hlimit : r.size + bytes ≤ r.limit)
    (hword : r.size + bytes < Word.limit) (hholds : r.backing.holds (r.size + bytes)) :
    (r.extend bytes).result = .ok (.ok r.size, { r with memory := r.memory.grow bytes }) := by
  rw [extend, if_pos ⟨hword, hlimit⟩, if_pos hholds]
  rfl

/-- Growth past the limit is refused as a whole and changes nothing. -/
theorem result_extend_of_lt {r : Region} {bytes : Nat} (hlimit : r.limit < r.size + bytes) :
    (r.extend bytes).result = .ok (.error (.outOfMemory bytes r.size r.limit), r) := by
  rw [extend, if_neg (fun h => absurd h.2 (Nat.not_le.mpr hlimit))]
  rfl

/-- Growth up to the limit has no result if there is no storage for it. -/
theorem result_extend_of_not_holds {r : Region} {bytes : Nat}
    (hlimit : r.size + bytes ≤ r.limit) (hword : r.size + bytes < Word.limit)
    (hholds : r.backing.holds (r.size + bytes) = false) :
    (r.extend bytes).result = .error .storageTooLarge := by
  rw [extend, if_pos ⟨hword, hlimit⟩, if_neg (by rw [hholds]; exact Bool.false_ne_true)]
  rfl

/-- Growth is granted, fails for lack of storage, or is refused. -/
theorem result_extend_cases (r : Region) (bytes : Nat) :
    (r.size + bytes < Word.limit ∧ r.size + bytes ≤ r.limit ∧
      r.backing.holds (r.size + bytes) = true ∧
      (r.extend bytes).result = .ok (.ok r.size, { r with memory := r.memory.grow bytes })) ∨
    (r.size + bytes < Word.limit ∧ r.size + bytes ≤ r.limit ∧
      r.backing.holds (r.size + bytes) = false ∧
      (r.extend bytes).result = .error .storageTooLarge) ∨
    (¬ (r.size + bytes < Word.limit ∧ r.size + bytes ≤ r.limit) ∧
      (r.extend bytes).result = .ok (.error (.outOfMemory bytes r.size r.limit), r)) := by
  by_cases hfits : r.size + bytes < Word.limit ∧ r.size + bytes ≤ r.limit
  · obtain ⟨hword, hlimit⟩ := hfits
    cases hholds : r.backing.holds (r.size + bytes) with
    | true => exact .inl ⟨hword, hlimit, rfl, result_extend_of_le hlimit hword hholds⟩
    | false =>
      exact .inr (.inl ⟨hword, hlimit, rfl, result_extend_of_not_holds hlimit hword hholds⟩)
  · rw [extend, if_neg hfits]
    exact .inr (.inr ⟨hfits, rfl⟩)

/-- The bytes in a place, if it is inside the region. -/
def read? (r : Region) (offset n : Nat) : Option (List UInt8) :=
  r.memory.slice? offset n

/-- Overwrites bytes, if their place is inside the region. -/
def write? (r : Region) (offset : Nat) (bytes : List UInt8) : Option Region :=
  (r.memory.overwrite? offset bytes).map fun memory => { r with memory }

end Region

end BoundaryTag
