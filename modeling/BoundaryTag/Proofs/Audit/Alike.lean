import BoundaryTag.Audit
import BoundaryTag.Proofs.Memory.Alike

set_option autoImplicit false

/-! # The audit reads bytes

Two audits that read the same words come to the same verdict (`Audit.run_eq`), so it does not matter
how the memory stores its bytes (`Memory.Alike.audit`). -/

namespace BoundaryTag

namespace Audit

variable {a b : Audit}

/-- The audits read the same words, with the same lists in the same place. -/
structure SameWords (a b : Audit) : Prop where
  word : a.word = b.word
  index : a.index = b.index
  start : a.start = b.start
  epilogue : a.epilogue = b.epilogue

namespace SameWords

theorem tag (h : SameWords a b) : a.tag = b.tag := by
  funext offset
  rw [Audit.tag, Audit.tag, h.word]

theorem nextLink (h : SameWords a b) : a.nextLink = b.nextLink := by
  funext node
  rw [Audit.nextLink, Audit.nextLink, h.word]

theorem priorLink (h : SameWords a b) : a.priorLink = b.priorLink := by
  funext node
  rw [Audit.priorLink, Audit.priorLink, h.word]

theorem maxBlocks (h : SameWords a b) : a.maxBlocks = b.maxBlocks := by
  rw [Audit.maxBlocks, Audit.maxBlocks, h.epilogue, h.start]

theorem checkNode (h : SameWords a b) : a.checkNode = b.checkNode := by
  funext c prior node
  rw [Audit.checkNode, Audit.checkNode, inHeap, inHeap, h.start, h.epilogue, h.tag, h.priorLink,
    h.index]

theorem checkReturn (h : SameWords a b) : a.checkReturn = b.checkReturn := by
  funext head prior
  rw [Audit.checkReturn, Audit.checkReturn, h.priorLink]

theorem countList (h : SameWords a b) (c head room : Nat) :
    a.countList c head room = b.countList c head room := by
  induction room with
  | zero =>
    funext prior cursor
    rw [Audit.countList, Audit.countList, h.checkReturn]
  | succ room ih =>
    funext prior cursor
    rw [Audit.countList, Audit.countList, h.checkReturn, h.checkNode, h.nextLink, ih]

theorem countListed (h : SameWords a b) : a.countListed = b.countListed := by
  have hclass : a.countClass = b.countClass := by
    funext c
    rw [countClass, countClass, h.index, h.nextLink, h.maxBlocks]
    simp only [h.countList]
  rw [Audit.countListed, Audit.countListed, h.index, hclass]

theorem checkBlock (h : SameWords a b) : a.checkBlock = b.checkBlock := by
  funext block tag prevFree
  rw [Audit.checkBlock, Audit.checkBlock, h.word]

theorem checkEpilogue (h : SameWords a b) : a.checkEpilogue = b.checkEpilogue := by
  funext offset prevFree
  rw [Audit.checkEpilogue, Audit.checkEpilogue, h.tag, h.epilogue]

theorem countWalked (h : SameWords a b) (offset : Nat) (prevFree : Bool) :
    a.countWalked offset prevFree = b.countWalked offset prevFree := by
  -- what is left of the walk is bounded by the distance to the epilogue
  generalize hk : a.epilogue - offset = k
  induction k using Nat.strongRecOn generalizing offset prevFree with
  | ind k ih =>
    rw [Audit.countWalked, Audit.countWalked, ← h.epilogue, ← h.tag, ← h.checkBlock,
      ← h.checkEpilogue]
    by_cases hlt : offset < a.epilogue
    · simp only [if_pos hlt]
      refine bind_congr fun tag => ?_
      by_cases hbad : tag.size < Block.least ∨ tag.size % Block.alignment ≠ 0
      · simp only [dif_pos hbad]
      · simp only [dif_neg hbad]
        have hleast : Block.least = 32 := rfl
        rw [ih (a.epilogue - (offset + tag.size)) (by omega) _ _ rfl]
    · simp only [if_neg hlt]

theorem run_eq (h : SameWords a b) : a.run = b.run := by
  have hinspect : a.inspect = b.inspect := by
    rw [inspect, inspect, h.countListed, h.start]
    simp only [h.countWalked]
  rw [run, run, hinspect]

end SameWords

end Audit

theorem Memory.Alike.audit {m m' : Memory} {n : Nat} (h : Memory.Alike n m m') (x : FreeIndex)
    (start : Nat) : Audit.run ⟨m, x, start⟩ = Audit.run ⟨m', x, start⟩ := by
  refine Audit.SameWords.run_eq ⟨?_, rfl, rfl, ?_⟩
  · funext offset
    rw [Audit.word, Audit.word, h.word?]
  · rw [Audit.epilogue, Audit.epilogue, h.size_eq]

end BoundaryTag
