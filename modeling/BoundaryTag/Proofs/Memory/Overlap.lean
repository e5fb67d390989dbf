import Mathlib.Algebra.GroupWithZero.Nat
import BoundaryTag.Proofs.Memory.Frame

set_option autoImplicit false

/-! # Words that overlap

Words are read and written at any offset, so two of them may share bytes: if one starts `s` bytes
after the other, then the high bytes of the lower word are the low bytes of the upper one
(`div_eq_mod_of_readWord`). A write keeps the bytes of a word that it does not reach
(`mod_eq_of_writeWord`, `div_eq_of_writeWord`). -/

namespace BoundaryTag

theorem LittleEndian.capacity_eq (k : Nat) : capacity k = 256 ^ k := by
  induction k with
  | zero => rfl
  | succ k ih => rw [capacity, ih, Nat.pow_succ, Nat.mul_comm]

theorem LittleEndian.ofBytes_append (as bs : List UInt8) :
    ofBytes (as ++ bs) = ofBytes as + 256 ^ as.length * ofBytes bs := by
  induction as with
  | nil => simp [ofBytes]
  | cons a as ih =>
    rw [List.cons_append, ofBytes, ih, ofBytes, List.length_cons, Nat.pow_succ', Nat.mul_add,
      Nat.mul_assoc, Nat.add_assoc]

namespace Memory

variable {m m' : Memory} {i s w x y : Nat}

/-- The number in the `n` bytes from an offset on. -/
def part (m : Memory) (i n : Nat) : Nat :=
  LittleEndian.ofBytes (m.load i n)

theorem part_lt (m : Memory) (i n : Nat) : m.part i n < 256 ^ n := by
  have h := LittleEndian.ofBytes_lt (m.load i n)
  rwa [LittleEndian.capacity_eq, length_load] at h

theorem part_add (m : Memory) (i a b : Nat) :
    m.part i (a + b) = m.part i a + 256 ^ a * m.part (i + a) b := by
  have hload : m.load i (a + b) = m.load i a ++ m.load (i + a) b := by
    rw [load, load, load, ← List.map_append, List.range'_append_1]
  rw [part, hload, LittleEndian.ofBytes_append, length_load]
  rfl

/-- A word in two parts. -/
theorem eq_of_readWord (hs : s ≤ 8) (hx : m.readWord i = .ok x) :
    x % 256 ^ s = m.part i s ∧ x / 256 ^ s = m.part (i + s) (8 - s) := by
  have hlt := m.part_lt i s
  have hpos : 0 < 256 ^ s := Nat.pow_pos (by decide)
  have hsplit := m.part_add i s (8 - s)
  rw [Nat.add_sub_cancel' hs] at hsplit
  have hword : m.part i 8 = x := (readWord_eq_ok_iff.mp hx).2
  rw [← hword, hsplit]
  constructor
  · rw [Nat.add_mul_mod_self_left, Nat.mod_eq_of_lt hlt]
  · rw [Nat.add_mul_div_left _ _ hpos, Nat.div_eq_of_lt hlt, Nat.zero_add]

/-- The high bytes of a word are the low ones of the word that starts there. -/
theorem div_eq_mod_of_readWord (hs : s ≤ 8) (hx : m.readWord i = .ok x)
    (hy : m.readWord (i + s) = .ok y) : x / 256 ^ s = y % 256 ^ (8 - s) := by
  rw [(eq_of_readWord hs hx).2, (eq_of_readWord (Nat.sub_le 8 s) hy).1]

/-- A write that starts inside a word keeps the low bytes. -/
theorem mod_eq_of_writeWord (hs : s ≤ 8) (hm : m.writeWord (i + s) w = .ok m')
    (hx : m.readWord i = .ok x) (hx' : m'.readWord i = .ok y) : y % 256 ^ s = x % 256 ^ s := by
  have hload : m'.load i s = m.load i s := (touches_of_writeWord hm).load_eq (by simp)
  rw [(eq_of_readWord hs hx).1, (eq_of_readWord hs hx').1, part, hload]
  rfl

/-- A write that ends inside a word keeps the high bytes. -/
theorem div_eq_of_writeWord (hs : s ≤ 8) (hm : m.writeWord i w = .ok m')
    (hx : m.readWord (i + s) = .ok x) (hx' : m'.readWord (i + s) = .ok y) :
    y / 256 ^ (8 - s) = x / 256 ^ (8 - s) := by
  have hs' : i + s + (8 - s) = i + 8 := by omega
  have hload : m'.load (i + 8) (8 - (8 - s)) = m.load (i + 8) (8 - (8 - s)) :=
    (touches_of_writeWord hm).load_eq (by simp)
  rw [(eq_of_readWord (Nat.sub_le 8 s) hx).2, (eq_of_readWord (Nat.sub_le 8 s) hx').2, hs', part,
    hload]
  rfl

end Memory

end BoundaryTag
