import BoundaryTag.ClassTable
import BoundaryTag.Failure
import BoundaryTag.Layout

set_option autoImplicit false

/-! # Settings

How a heap trades speed for fragmentation: the thresholds of the size classes, the least payload
that is worth splitting off, and whether every operation is followed by an audit. Written down, they
are an object with a member for each. -/

namespace BoundaryTag

/-- The tuning of a heap. -/
structure Settings where
  /-- Thresholds of the size classes, on whole blocks. -/
  thresholds : List Nat := [290, 540, 2080]
  /-- A block is split only if more than the two tags and this many bytes are left over. -/
  minSplit : Nat := 40
  /-- Audit the heap after every operation that changes it. -/
  checkAfter : Bool := true
  deriving DecidableEq, Repr

namespace Settings

/-- The first objection to the settings, if there is one. A remainder that is split off has to hold
    its own two links. -/
def validate (s : Settings) : Except Objection Unit :=
  if 0 ∈ s.thresholds then
    .error .zeroThreshold
  else if ¬ s.thresholds.Pairwise (· < ·) then
    .error (.unorderedThresholds s.thresholds)
  else if s.minSplit < 2 * Block.alignment ∨ s.minSplit % Block.alignment ≠ 0 then
    .error (.badSplitPayload s.minSplit)
  else
    .ok ()

/-- A block is split if more than this is left over. -/
def splitThreshold (s : Settings) : Except Fault Nat :=
  Word.add Block.overhead s.minSplit

/-- The table of the size classes. -/
def classTable (s : Settings) : Except Fault ClassTable :=
  ClassTable.ofThresholds s.thresholds

/-- Settings are accepted exactly if the thresholds are positive and ascend strictly and the least
    split payload is an aligned size that holds two links. -/
theorem validate_eq_ok_iff {s : Settings} :
    s.validate = .ok () ↔
      0 ∉ s.thresholds ∧ s.thresholds.Pairwise (· < ·) ∧
        16 ≤ s.minSplit ∧ s.minSplit % 8 = 0 := by
  unfold validate
  by_cases h0 : 0 ∈ s.thresholds
  · simp [h0]
  · by_cases hp : s.thresholds.Pairwise (· < ·)
    · by_cases hm : s.minSplit < 2 * Block.alignment ∨ s.minSplit % Block.alignment ≠ 0
      · simp only [h0, hp, hm, not_true_eq_false, if_false, if_true, reduceCtorEq, false_iff,
          not_false_eq_true, true_and, not_and]
        intro h16 h8
        unfold Block.alignment at hm
        omega
      · simp only [h0, hp, hm, not_true_eq_false, if_false, not_false_eq_true, true_and, true_iff]
        unfold Block.alignment at hm
        omega
    · simp [h0, hp]

/-! ## Members -/

/-- The members of a settings object. -/
inductive Field where
  | thresholds
  | minSplit
  | checkAfter
  deriving DecidableEq

/-- The name of a member. -/
def Field.name : Field → List Char
  | .thresholds => "class_thresholds".toList
  | .minSplit => "min_split_payload".toList
  | .checkAfter => "check_after_ops".toList

end Settings

end BoundaryTag
