import BoundaryTag.Proofs.Row
import BoundaryTag.Proofs.Session.Effect

set_option autoImplicit false

/-! # Consistent heaps

The data model of a heap, in terms of its bytes (`Heap.Consistent`), and the theorem that every
session of a client that keeps to the rules has a consistent heap (`Reachable.heap_consistent`). -/

open BoundaryTag.Span (total layout tags lastAllocated)

namespace BoundaryTag

/-- The memory of a heap shows the blocks `bs` and, as its last word, the tag `last`, and the lists
    of free blocks are `lists`. -/
structure Heap.Consistent (h : Heap) (bs : List Block) (last : Tag) (lists : Nat → List Nat) :
    Prop where
  /-- The blocks tile the heap up to the last word, behind which there is nothing. -/
  row : Block.Row h.start true (bs ++ [⟨h.memory.size - 8, last⟩])
  last_inside : h.start + 8 ≤ h.memory.size
  last_eq : last.size = 8 ∧ last.allocated = true
  last_written : h.memory.tagAt (h.memory.size - 8) = .ok last
  sizes : ∀ b ∈ bs, 32 ≤ b.tag.size ∧ b.tag.size % 8 = 0
  headers : ∀ b ∈ bs, h.memory.tagAt b.offset = .ok b.tag
  footers : ∀ b ∈ bs, b.tag.allocated = false →
    h.memory.footerAt b.offset = .ok b.tag ∧
      h.memory.readWord (b.offset + b.tag.size - 8) = h.memory.readWord b.offset
  coalesced : bs.IsChain fun a b => a.tag.allocated = true ∨ b.tag.allocated = true
  /-- Each head starts a circular list, linked both ways. -/
  rings : ∀ c < h.index.size, h.memory.Ring (h.index.headAt c) (lists c)
  nodup : ∀ c < h.index.size, (lists c).Nodup
  listed : ∀ c < h.index.size, ∀ u, u ∈ lists c ↔
    ∃ b ∈ bs, b.offset = u ∧ b.tag.allocated = false ∧ h.index.classify b.tag.size = c
  /-- No class is out of range, so every free block is on a list. -/
  classified : ∀ b ∈ bs, b.tag.allocated = false → h.index.classify b.tag.size < h.index.size

namespace Heap.Realizes

variable {h : Heap} {P : Plan}

theorem consistent (hr : h.Realizes P) : h.Consistent (layout h.start true P.spans)
    ⟨8, true, lastAllocated true P.spans⟩ P.lists := by
  have hsize := hr.size_eq
  have hlast : h.memory.size - 8 = h.start + total P.spans := by omega
  have hwritten := hr.charted.tagAt
    (List.mem_append_right (layout h.start true P.spans) (List.mem_singleton_self _))
  refine ⟨?_, by omega, ⟨rfl, rfl⟩, ?_, fun b hb => ?_, fun b hb => ?_,
    fun b hb => hr.footer_eq hb, Span.isChain_layout hr.coalesced, hr.charted.threaded.ring,
    fun c => hr.nodup_lists, fun c hc u => ?_, fun b _ _ => h.index.classify_lt_size _⟩
  · rw [hlast]
    exact Span.row_tags
  · rw [hlast]
    exact hwritten
  · have hplace : (b.offset, b.tag.size) ∈ Span.places b.tag.allocated h.start P.spans :=
      Span.mem_places_iff.mpr ⟨b, hb, rfl, rfl, rfl⟩
    exact (hr.place_bounds hplace).2.2
  · exact hr.charted.tagAt (List.mem_append_left _ hb)
  · rw [hr.mem_lists_iff hc]
    constructor
    · rintro ⟨k, hk, hclass⟩
      obtain ⟨b, hb, hfree, rfl, rfl⟩ := (Span.mem_places_iff (p := true)).mp hk
      exact ⟨b, hb, rfl, hfree, hclass⟩
    · rintro ⟨b, hb, rfl, hfree, hclass⟩
      exact ⟨b.tag.size, Span.mem_places_iff.mpr ⟨b, hb, hfree, rfl, rfl⟩, hclass⟩

end Heap.Realizes

namespace Session

variable {region : Region} {settings : Settings} {s : Session}

/-- The heap of every reachable session is consistent. -/
theorem Reachable.heap_consistent (hs : Reachable region settings s) :
    ∃ bs last lists, s.heap.Consistent bs last lists := by
  obtain ⟨P, hP⟩ := hs.exists_sound
  exact ⟨_, _, _, hP.realizes.consistent⟩

/-- A run in which the first of three blocks is freed, the last is made larger, and its payload is
    written. -/
theorem Reachable.heap_consistent_of_run : ∃ s, (start? (Region.empty 4096) {}).bind (fun t => t.run?
      [.allocate 16, .allocate 200, .allocate 40, .free (some ⟨104, by decide⟩),
        .resize (some ⟨352, by decide⟩) 300, .write ⟨352, by decide⟩ 8 [1, 2, 3]]) = some s ∧
    s.live.length = 2 ∧ ∃ bs last lists, s.heap.Consistent bs last lists := by
  have hrun : ((start? (Region.empty 4096) {}).bind (fun t => t.run?
      [.allocate 16, .allocate 200, .allocate 40, .free (some ⟨104, by decide⟩),
        .resize (some ⟨352, by decide⟩) 300, .write ⟨352, by decide⟩ 8 [1, 2, 3]])).map
      (fun s => s.live.length) = some 2 := by
    decide +kernel
  obtain ⟨s, hs, hlive⟩ := Option.map_eq_some_iff.mp hrun
  exact ⟨s, hs, hlive, Reachable.heap_consistent (reachable_iff.mpr ⟨_, hs⟩)⟩

end Session

end BoundaryTag
