import BoundaryTag.Proofs.Heap.Allocate

set_option autoImplicit false

/-! # What a heap shows

`h.Shows P` says that whatever is read off the heap is as the plan has it: the walk meets the blocks
of the row with their tags, free blocks end in a second tag, the last word is the tag of the
epilogue, and following the lists meets the listed blocks in their order. A heap that realizes a
plan shows it (`Realizes.shows`). Two such statements, about the heap before an operation and about
the heap after it, say what the operation did to all blocks and all lists. -/

open BoundaryTag.Span (total layout tags lastAllocated)

namespace BoundaryTag.Heap

open FreeIndex (pushed)

/-- Everything that is read off the heap is as the plan has it. -/
structure Shows (h : Heap) (P : Plan) : Prop where
  /-- The blocks tile the heap, each with its size, its state and that of the block before. -/
  blocks_eq : h.blocks = .ok (layout h.start true P.spans)
  size_eq : h.memory.size = h.start + total P.spans + 8
  last_eq : h.memory.tagAt (h.start + total P.spans) = .ok ⟨8, true, lastAllocated true P.spans⟩
  footers_eq : ∀ b ∈ layout h.start true P.spans, b.tag.allocated = false →
    h.memory.footerAt b.offset = .ok b.tag
  /-- The lists, from the block that was pushed last on. -/
  members_eq : ∀ c < h.index.size, h.index.members h.memory c = .ok (P.lists c)

/-- The heap shows that the `n` bytes at `o`, between the spans before and after, were made an
    allocated block for `needed` bytes. If more than `t` bytes are left over, they are a free block of
    its own, which comes first in the list of its class. -/
def ShowsCut (h : Heap) (before after : List Span) (lists : Nat → List Nat)
    (t o n needed : Nat) : Prop :=
  if t < n - needed then
    32 ≤ n - needed ∧
      h.Shows ⟨before ++ ⟨needed, true⟩ :: ⟨n - needed, false⟩ :: after,
        pushed lists (h.index.classify (n - needed)) (o + needed)⟩
  else
    h.Shows ⟨before ++ ⟨n, true⟩ :: after, lists⟩

/-- A heap shows one row. -/
theorem Shows.spans_eq {h : Heap} {P : Plan} (hs : h.Shows P) {ss : List Span}
    (hblocks : h.blocks = .ok (layout h.start true ss)) : P.spans = ss :=
  Span.layout_injective (Except.ok.inj (hs.blocks_eq.symm.trans hblocks))

namespace Realizes

variable {h : Heap} {P : Plan} {before after : List Span} {lists : Nat → List Nat}
  {t o n needed : Nat}

theorem shows (hr : h.Realizes P) : h.Shows P where
  blocks_eq := hr.blocks_eq
  size_eq := hr.size_eq.symm
  last_eq := hr.charted.tagAt (List.mem_append_right _ (List.mem_singleton_self _))
  footers_eq _ hb hfree := (hr.footer_eq hb hfree).1
  members_eq _ hc := hr.charted.threaded.members_eq hc

/-- A carved span shows. -/
theorem showsCut (ht : h.settings.splitThreshold = .ok t)
    (hr : h.Realizes ⟨before ++ (carved t n needed ++ after),
      carvedLists h.index lists t o n needed⟩) : h.ShowsCut before after lists t o n needed := by
  have ht32 := hr.le_threshold ht
  have hshows := hr.shows
  rw [carved, carvedLists] at hshows
  rw [ShowsCut]
  split <;> rename_i hsplit
  · rw [if_pos hsplit, if_pos hsplit] at hshows
    exact ⟨by omega, hshows⟩
  · rw [if_neg hsplit, if_neg hsplit] at hshows
    exact hshows

end Realizes

end BoundaryTag.Heap
