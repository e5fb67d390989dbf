import BoundaryTag.Proofs.Heap.Shown
import BoundaryTag.Proofs.Heap.Free
import BoundaryTag.Proofs.Session.Effect

set_option autoImplicit false

/-! # Freeing from end to end

A block that is freed becomes one with its free neighbours, whichever of the two there are. The
merged block is the first of its class, the neighbours are on no list any more, and all other blocks
and list entries stay (`Heap.FreesAt`). Only the merged block, the tag after it and the links of
neighbours in lists are written. In every reachable session a live handle can be freed, and its
block is freed so (`Reachable.frees`). -/

open BoundaryTag.Span (total layout tags lastAllocated nextAllocated freeSpan)

namespace BoundaryTag

open Memory (Within)
open FreeIndex (without pushed)

namespace Heap

/-- The memory `m` is that of the heap after the allocated block of `n` bytes was freed that comes
    after the spans `before` and a left neighbour, and before a right neighbour and the spans `after`.
    Each neighbour is free, and may be missing. -/
structure FreesAt (h : Heap) (P : Plan) (before after : List Span) (left right : Option Nat)
    (n : Nat) (m : Memory) : Prop where
  size_eq : m.size = h.memory.size
  /-- One free block takes the place of the three, and is the first of its class. -/
  shows : (h.withMemory m).Shows
    ⟨before ++ ⟨left.getD 0 + n + right.getD 0, false⟩ :: after,
      pushed (without (without P.lists (h.start + total before))
          (h.start + total before + left.getD 0 + n))
        (h.index.classify (left.getD 0 + n + right.getD 0)) (h.start + total before)⟩
  left_listed : ∀ l, left = some l → h.start + total before ∈ P.lists (h.index.classify l)
  right_listed : ∀ r, right = some r →
    h.start + total before + left.getD 0 + n ∈ P.lists (h.index.classify r)
  /-- Before the merged block is pushed, neither neighbour is on a list any more. -/
  unlisted : ∀ c < h.index.size, ∀ u,
    u = h.start + total before ∨ u = h.start + total before + left.getD 0 + n →
      u ∉ without (without P.lists (h.start + total before))
        (h.start + total before + left.getD 0 + n) c
  header_eq : m.tagAt (h.start + total before) =
    .ok (Tag.free (left.getD 0 + n + right.getD 0) true)
  footer_eq : m.footerAt (h.start + total before) =
    .ok (Tag.free (left.getD 0 + n + right.getD 0) true)
  next_eq : m.prevAllocatedAt
    (h.start + total before + (left.getD 0 + n + right.getD 0)) = .ok false
  /-- The words written lie in the merged block or right behind it, or are links that led to one of
      the neighbours before or lead to the merged block after. -/
  within : Within (fun w =>
    NeighbourLink h.index P.lists h.memory left right n (h.start + total before) w ∨
      h.index.LinkTo P.lists m (h.start + total before) w ∨
      (h.start + total before ≤ w ∧
        w ≤ h.start + total before + (left.getD 0 + n + right.getD 0))) h.memory m

variable {h : Heap} {P : Plan} {before after : List Span} {left right : Option Nat} {p : Handle}
  {n : Nat}

/-- The block of an allocated span is freed as its neighbourhood has it. -/
theorem Realizes.freesAt (hr : h.Realizes P)
    (hP : P.spans = before ++ (freeSpan left ++ ⟨n, true⟩ :: (freeSpan right ++ after)))
    (hp : p.offset = h.start + total before + left.getD 0 + 8)
    (hlast : lastAllocated true before = true) (hnext : nextAllocated after = true) :
    ∃ m, (h.free (some p)).result = .ok (h.withMemory m) ∧
      h.FreesAt P before after left right n m := by
  obtain ⟨m, hres, hreal, hw⟩ := free_eq hr hP rfl hp hlast hnext
  obtain ⟨hleft, hright⟩ := hr.neighbours_listed hP rfl
  have hrow : tags h.start true (freed h.index P before after left right n
      (h.start + total before)).spans = layout h.start true before ++
        [⟨h.start + total before, Tag.free (left.getD 0 + n + right.getD 0) true⟩] ++
          tags (h.start + total before + (left.getD 0 + n + right.getD 0)) false after := by
    simp [freed, Span.tags_append, hlast, Tag.free]
  have hmerged : ⟨h.start + total before, Tag.free (left.getD 0 + n + right.getD 0) true⟩ ∈
      layout h.start true (freed h.index P before after left right n
        (h.start + total before)).spans := by
    simp [freed, Span.layout_append, hlast, Tag.free]
  have hchart := hreal.charted
  rw [index_withMemory, start_withMemory, hrow] at hchart
  refine ⟨m, hres, hw.size_eq, hreal.shows, hleft, hright, ?_, ?_, (hreal.footer_eq hmerged rfl).1,
    hchart.prevAllocatedAt_first, hw⟩
  · rintro c hc u (rfl | rfl) hmem
    · exact (hr.nodup_lists hc).not_mem_erase (List.mem_of_mem_erase hmem)
    · exact ((hr.nodup_lists hc).erase _).not_mem_erase hmem
  · exact hreal.charted.tagAt (List.mem_append_left _ hmerged)

end Heap

namespace Session

variable {region : Region} {settings : Settings} {s : Session} {p : Handle}

/-- In every reachable session a live handle can be freed. Its block is merged with the free blocks
    on either side of it. -/
theorem Reachable.frees (hs : Reachable region settings s) (hlive : s.IsLive p) :
    ∃ P before left n right after m, s.heap.Shows P ∧
      P.spans = before ++ (freeSpan left ++ ⟨n, true⟩ :: (freeSpan right ++ after)) ∧
      lastAllocated true before = true ∧ nextAllocated after = true ∧
      p.offset = s.heap.start + total before + left.getD 0 + 8 ∧
      (s.heap.free (some p)).result = .ok (s.heap.withMemory m) ∧
      s.heap.FreesAt P before after left right n m := by
  obtain ⟨P, hP⟩ := hs.exists_sound
  obtain ⟨o, n, ho, hn⟩ := hP.place_of_live hlive
  obtain ⟨before, left, right, after, hspans, hoff, hlast, hnext⟩ :=
    hP.realizes.exists_neighbours hn
  have hp : p.offset = s.heap.start + total before + left.getD 0 + 8 := by rw [ho, hoff]
  obtain ⟨m, hres, hfrees⟩ := hP.realizes.freesAt hspans hp hlast hnext
  exact ⟨P, before, left, n, right, after, m, hP.realizes.shows, hspans, hlast, hnext, hp, hres,
    hfrees⟩

/-- A block between two free ones that are next to each other in one list: the three become one. -/
theorem Reachable.frees_of_run : ∃ s P m, (start? (Region.empty 4096) {}).bind (fun t => t.run?
      [.allocate 16, .allocate 16, .allocate 16, .allocate 16, .free (some ⟨104, by decide⟩),
        .free (some ⟨168, by decide⟩)]) = some s ∧ s.IsLive ⟨136, by decide⟩ ∧ s.heap.Shows P ∧
    P.lists 0 = [160, 96] ∧
    (s.heap.free (some ⟨136, by decide⟩)).result = .ok (s.heap.withMemory m) ∧
    s.heap.FreesAt P [] [⟨32, true⟩] (some 32) (some 32) 32 m := by
  have hrun : ((start? (Region.empty 4096) {}).bind (fun t => t.run?
      [.allocate 16, .allocate 16, .allocate 16, .allocate 16, .free (some ⟨104, by decide⟩),
        .free (some ⟨168, by decide⟩)])).map (fun s => decide (
          s.IsLive ⟨136, by decide⟩ ∧ s.heap.start = 96 ∧ 0 < s.heap.index.size ∧
          s.heap.index.members s.heap.memory 0 = .ok [160, 96] ∧ s.heap.blocks =
            .ok (layout 96 true [⟨32, false⟩, ⟨32, true⟩, ⟨32, false⟩, ⟨32, true⟩]))) =
              some true := by
    decide +kernel
  obtain ⟨s, hs, hshape⟩ := Option.map_eq_some_iff.mp hrun
  obtain ⟨hlive, hstart, hsize, hmembers, hblocks⟩ := of_decide_eq_true hshape
  obtain ⟨P, before, left, n, right, after, m, hshows, hP, hlast, hnext, hp, hres, hfrees⟩ :=
    Reachable.frees (reachable_iff.mpr ⟨_, hs⟩) hlive
  have hlist : P.lists 0 = [160, 96] :=
    Except.ok.inj ((hshows.members_eq 0 hsize).symm.trans hmembers)
  rw [← hstart] at hblocks
  have hspans := hshows.spans_eq hblocks
  rw [hP] at hspans
  rw [hstart] at hp
  obtain ⟨rfl, rfl, rfl, rfl, rfl⟩ : before = [] ∧ left = some 32 ∧ n = 32 ∧ right = some 32 ∧
      after = [⟨32, true⟩] := by
    rcases before with _ | ⟨b, _ | ⟨b', bs⟩⟩
    · rcases left with _ | l
      · simp at hspans
      · rcases right with _ | r
        · simp only [Span.freeSpan_none, Span.freeSpan_some, List.nil_append, List.cons_append,
            List.cons.injEq] at hspans
          simp [hspans.2.2, nextAllocated] at hnext
        · simpa using hspans
    · simp only [List.cons_append, List.cons.injEq] at hspans
      simp [hspans.1] at hlast
    · -- the block would lie further on
      simp only [List.cons_append, List.cons.injEq] at hspans
      simp only [hspans.1, hspans.2.1, Span.total_cons] at hp
      omega
  exact ⟨s, P, m, hs, hlive, hshows, hlist, hres, hfrees⟩

end Session

end BoundaryTag
