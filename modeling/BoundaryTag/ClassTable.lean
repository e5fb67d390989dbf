import BoundaryTag.Failure

set_option autoImplicit false

/-! # Size classes

Ascending thresholds cut the block sizes into classes: class `i` holds the sizes below threshold `i`
and not below the one before it, and a last class holds the rest. -/

namespace BoundaryTag

/-- Strictly ascending thresholds. -/
structure ClassTable where
  thresholds : List Nat
  ascending : thresholds.Pairwise (· < ·)
  deriving DecidableEq

namespace ClassTable

/-- The table of the given thresholds; they have to ascend strictly. -/
def ofThresholds (thresholds : List Nat) : Except Fault ClassTable :=
  if h : thresholds.Pairwise (· < ·) then .ok ⟨thresholds, h⟩ else .error .unsortedThresholds

/-- How many classes there are: one more than thresholds. -/
def size (t : ClassTable) : Nat :=
  t.thresholds.length + 1

/-- The class of a block size: the first class whose threshold is above it. -/
def classify (t : ClassTable) (blockSize : Nat) : Nat :=
  t.thresholds.findIdx (blockSize < ·)

theorem classify_lt_size (t : ClassTable) (blockSize : Nat) : t.classify blockSize < t.size :=
  Nat.lt_succ_of_le List.findIdx_le_length

/-- A larger block is in no lower class. -/
theorem classify_mono (t : ClassTable) {a b : Nat} (h : a ≤ b) :
    t.classify a ≤ t.classify b := by
  unfold classify
  induction t.thresholds with
  | nil => exact Nat.le_refl _
  | cons threshold rest ih =>
    by_cases ha : a < threshold
    · simp [List.findIdx_cons, ha]
    · have hb : ¬ b < threshold := by omega
      simpa [List.findIdx_cons, ha, hb] using ih

end ClassTable

end BoundaryTag
