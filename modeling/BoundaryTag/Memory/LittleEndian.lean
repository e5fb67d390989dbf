set_option autoImplicit false

/-! # Little-endian numerals

A number as a given count of bytes, the least significant first. Writing then reading keeps the
number modulo the count of numbers that fit (`ofBytes_toBytes`); reading then writing keeps the
bytes (`toBytes_ofBytes`). -/

namespace BoundaryTag.LittleEndian

/-- The `k` low bytes of a number, the least significant first. -/
def toBytes : Nat → Nat → List UInt8
  | 0, _ => []
  | k + 1, n => UInt8.ofNat n :: toBytes k (n / 256)

/-- The number that the bytes spell. -/
def ofBytes : List UInt8 → Nat
  | [] => 0
  | b :: bs => b.toNat + 256 * ofBytes bs

/-- How many numbers fit in `k` bytes. -/
def capacity : Nat → Nat
  | 0 => 1
  | k + 1 => 256 * capacity k

@[simp] theorem length_toBytes (k n : Nat) : (toBytes k n).length = k := by
  induction k generalizing n with
  | zero => rfl
  | succ k ih => simp [toBytes, ih]

theorem ofBytes_lt (bs : List UInt8) : ofBytes bs < capacity bs.length := by
  induction bs with
  | nil => simp [ofBytes, capacity]
  | cons b bs ih =>
    have hb : b.toNat < 256 := b.toNat_lt
    simp only [ofBytes, List.length_cons, capacity]
    omega

theorem ofBytes_toBytes (k n : Nat) : ofBytes (toBytes k n) = n % capacity k := by
  induction k generalizing n with
  | zero => simp [toBytes, ofBytes, capacity, Nat.mod_one]
  | succ k ih =>
    have hb : (UInt8.ofNat n).toNat = n % 256 := by simp
    rw [toBytes, ofBytes, ih, hb, capacity, Nat.mod_mul]

theorem toBytes_ofBytes (bs : List UInt8) : toBytes bs.length (ofBytes bs) = bs := by
  induction bs with
  | nil => rfl
  | cons b bs ih =>
    have hb : b.toNat < 256 := b.toNat_lt
    have hq : (b.toNat + 256 * ofBytes bs) / 256 = ofBytes bs := by omega
    have hr : UInt8.ofNat (b.toNat + 256 * ofBytes bs) = b := by
      apply UInt8.toNat_inj.mp
      simp only [UInt8.toNat_ofNat']
      omega
    rw [List.length_cons, ofBytes, toBytes, hq, ih, hr]

end BoundaryTag.LittleEndian
