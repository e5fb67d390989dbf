import BoundaryTag.Failure
import BoundaryTag.Steps

set_option autoImplicit false

/-! # Word arithmetic

Sizes and offsets are natural numbers below two to the power of 64. An operation whose result is no
such number does not wrap: it is a fault. Main statements: each operation succeeds exactly when the
result fits (`add_eq_ok_iff`, `sub_eq_ok_iff`, `mul_eq_ok_iff`), and so does rounding up, to a
multiple of a power of two (`alignTo_eq_ok_iff`) and of eight (`align_eq_ok_iff`). -/

namespace BoundaryTag.Word

/-- The first number that is not a word: two to the power of 64. -/
abbrev limit : Nat := 18446744073709551616

/-- Bytes in a word. -/
abbrev bytes : Nat := 8

/-- The sum, if it is a word. -/
def add (a b : Nat) : Except Fault Nat :=
  if a + b < limit then .ok (a + b) else .error .overflow

/-- The difference, if there is one. -/
def sub (a b : Nat) : Except Fault Nat :=
  if b ≤ a then .ok (a - b) else .error .overflow

/-- The product, if it is a word. -/
def mul (a b : Nat) : Except Fault Nat :=
  if a * b < limit then .ok (a * b) else .error .overflow

/-- The bits of `value` that `mask` does not have. -/
def clear (value mask : Nat) : Nat :=
  value &&& (limit - 1 - mask)

/-- Rounds up to the next multiple of `alignment`, a power of two. The sum `value + alignment` is
    taken before one is subtracted, so it has to be a word itself. -/
def alignTo (value alignment : Nat) : Except Fault Nat := do
  let above ← sub (← add value alignment) 1
  let mask ← sub alignment 1
  return clear above mask

/-- Rounds up to the next multiple of eight. -/
def align (value : Nat) : Except Fault Nat :=
  alignTo value bytes

/-! ## When the operations succeed -/

theorem add_eq_ok_iff {a b c : Nat} : add a b = .ok c ↔ a + b = c ∧ c < limit := by
  unfold add
  split <;> rename_i h
  · constructor
    · intro e
      cases e
      exact ⟨rfl, h⟩
    · rintro ⟨rfl, -⟩
      rfl
  · constructor
    · intro e
      cases e
    · rintro ⟨rfl, h'⟩
      exact absurd h' h

theorem sub_eq_ok_iff {a b c : Nat} : sub a b = .ok c ↔ a = b + c := by
  unfold sub
  split <;> rename_i h
  · constructor
    · intro e
      cases e
      omega
    · rintro rfl
      rw [Nat.add_sub_cancel_left]
  · constructor
    · intro e
      cases e
    · intro e
      omega

theorem mul_eq_ok_iff {a b c : Nat} : mul a b = .ok c ↔ a * b = c ∧ c < limit := by
  unfold mul
  split <;> rename_i h
  · constructor
    · intro e
      cases e
      exact ⟨rfl, h⟩
    · rintro ⟨rfl, -⟩
      rfl
  · constructor
    · intro e
      cases e
    · rintro ⟨rfl, h'⟩
      exact absurd h' h

/-! ## Rounding -/

/-- Clearing the low `k` bits rounds down to a multiple of two to the power of `k`. -/
theorem clear_low_bits {value : Nat} (h : value < limit) (k : Nat) :
    clear value (1 <<< k - 1) = value >>> k <<< k := by
  have hzero : ∀ i, 64 ≤ i → value.testBit i = false := fun i hi =>
    Nat.testBit_lt_two_pow
      (Nat.lt_of_lt_of_le h (Nat.pow_le_pow_right (n := 2) (by decide) hi))
  have hmask : ∀ i, (limit - 1 - (1 <<< k - 1)).testBit i =
      (decide (i < 64) && decide (k ≤ i)) := by
    intro i
    have hk := Nat.two_pow_pos k
    rw [Nat.one_shiftLeft, show limit - 1 - (2 ^ k - 1) = 2 ^ 64 - (2 ^ k - 1 + 1) by
      unfold limit; omega]
    by_cases hle : k ≤ 64
    · have hpow : 2 ^ k ≤ 2 ^ 64 := Nat.pow_le_pow_right (by decide) hle
      rw [Nat.testBit_two_pow_sub_succ (by omega), Nat.testBit_two_pow_sub_one]
      by_cases hi : k ≤ i
      · simp [hi, Nat.not_lt.mpr hi]
      · simp [hi, Nat.not_le.mp hi]
    · have hpow : 2 ^ 64 ≤ 2 ^ k := Nat.pow_le_pow_right (by decide) (by omega)
      rw [show 2 ^ 64 - (2 ^ k - 1 + 1) = 0 by omega, Nat.zero_testBit]
      have : ¬ (i < 64 ∧ k ≤ i) := by omega
      simpa using this
  apply Nat.eq_of_testBit_eq
  intro i
  rw [clear, Nat.testBit_and, hmask, Nat.testBit_shiftLeft, Nat.testBit_shiftRight]
  by_cases hi : k ≤ i
  · rw [Nat.add_sub_cancel' hi]
    by_cases hl : i < 64
    · simp [hi, hl]
    · simp [hzero i (Nat.not_lt.mp hl)]
  · simp [hi]

/-- Rounding up to a multiple of a power of two succeeds exactly when the sum with it is a word. -/
theorem alignTo_eq_ok_iff {n m a k : Nat} (ha : a = 1 <<< k) :
    alignTo n a = .ok m ↔ n + a < limit ∧ m = (n + (a - 1)) / a * a := by
  have hpow : a = 2 ^ k := ha.trans (Nat.one_shiftLeft k)
  have hpos : 0 < a := hpow ▸ Nat.two_pow_pos k
  have hclear : n + a < limit → clear (n + (a - 1)) (a - 1) = (n + (a - 1)) / a * a := by
    intro h
    have hlow : clear (n + (a - 1)) (1 <<< k - 1) = (n + (a - 1)) >>> k <<< k :=
      clear_low_bits (by omega) k
    rwa [← ha, Nat.shiftLeft_eq, Nat.shiftRight_eq_div_pow, ← hpow] at hlow
  simp only [alignTo, bind_eq_ok_iff, pure_eq_ok_iff, add_eq_ok_iff, sub_eq_ok_iff]
  constructor
  · rintro ⟨_, ⟨rfl, h⟩, above, habove, mask, hmask, rfl⟩
    obtain rfl : above = n + (a - 1) := by omega
    obtain rfl : mask = a - 1 := by omega
    exact ⟨h, hclear h⟩
  · rintro ⟨h, rfl⟩
    exact ⟨_, ⟨rfl, h⟩, n + (a - 1), by omega, a - 1, by omega, hclear h⟩

theorem align_eq_ok_iff {n m : Nat} :
    align n = .ok m ↔ n + 8 < limit ∧ m = (n + 7) / 8 * 8 :=
  alignTo_eq_ok_iff (k := 3) rfl

end BoundaryTag.Word
