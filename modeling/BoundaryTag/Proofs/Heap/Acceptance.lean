import BoundaryTag.Proofs.Audit.Total
import BoundaryTag.Proofs.Heap.Check
import BoundaryTag.Proofs.Heap.Init
import BoundaryTag.Proofs.Heap.Verdict
import BoundaryTag.Proofs.Row

set_option autoImplicit false

/-! # What the audit accepts

Whatever bytes a heap that was laid out is given, its audit has a verdict, and the verdict is good
exactly if the bytes show blocks and lists as the data model has them (`Heap.Accepted`,
`check_accepts_iff`). The audit itself lets a list have one node more than there is room for blocks;
the two counts rule that out (`Audit.length_le_of_sum`). -/

open BoundaryTag.Span (total layout tags)

namespace BoundaryTag

/-- The memory of a heap shows the blocks `bs`, as its last word the tag `last`, and lists of as
    many free headers as there are free blocks among `bs`. -/
structure Heap.Accepted (h : Heap) (bs : List Block) (last : Tag) (lists : Nat → List Nat) :
    Prop where
  /-- Following the links from a head comes back to it, and each link has one that leads back. -/
  rings : ∀ c < h.index.size, h.memory.Ring (h.index.headAt c) (lists c)
  room : ∀ c < h.index.size, (lists c).length ≤ (h.memory.size - 8 - h.start) / 32
  nodes : ∀ c < h.index.size, ∀ u ∈ lists c, u % 8 = 0 ∧ h.start ≤ u ∧ u < h.memory.size - 8 ∧
    ∃ t, h.memory.tagAt u = .ok t ∧ t.allocated = false ∧ h.index.classify t.size = c
  /-- The blocks tile the heap up to the last word, and every flag for the block before is true. -/
  row : Block.Row h.start true (bs ++ [⟨h.memory.size - 8, last⟩])
  headers : ∀ b ∈ bs, h.memory.tagAt b.offset = .ok b.tag
  sizes : ∀ b ∈ bs, 32 ≤ b.tag.size
  footers : ∀ b ∈ bs, b.tag.allocated = false →
    h.memory.readWord (b.offset + b.tag.size - 8) = .ok b.tag.pack
  coalesced : bs.IsChain fun a b => a.tag.allocated = true ∨ b.tag.allocated = true
  last_written : h.memory.tagAt (h.memory.size - 8) = .ok last
  last_eq : last.size = 8 ∧ last.allocated = true
  count_eq : (h.index.listed lists).length = (Block.frees bs).length

namespace Audit

variable {a : Audit} {c : Nat} {lists : Nat → List Nat} {ss : List Span} {bs : List Block}
  {last : Tag}

/-- With no more nodes in all than free blocks, no list has more nodes than there is room for. -/
theorem length_le_of_sum (hc : c < a.index.size) (hwalked : a.Walked a.start false ss)
    (hsum : ((List.range a.index.size).map fun c => (lists c).length).sum = Span.freeCount ss) :
    (lists c).length ≤ a.maxBlocks := by
  have hle : (lists c).length ≤ Span.freeCount ss := by
    have hsub : (lists c).Sublist ((List.range a.index.size).map lists).flatten :=
      List.sublist_flatten_of_mem (List.mem_map.mpr ⟨c, List.mem_range.mpr hc, rfl⟩)
    have hlen := hsub.length_le
    rw [List.length_flatten, List.map_map] at hlen
    exact hlen.trans_eq hsum
  have hcount := Span.freeCount_le hwalked.proper
  have hstop := hwalked.stop_eq
  have h32 : Block.least = 32 := rfl
  rw [maxBlocks, h32]
  omega

/-- Blocks that tile the heap and read back as the data model has them are walked over. -/
theorem walked_of_row {o : Nat} (hrow : Block.Row o true (bs ++ [⟨a.epilogue, last⟩]))
    (hheaders : ∀ b ∈ bs, a.memory.tagAt b.offset = .ok b.tag)
    (hsizes : ∀ b ∈ bs, 32 ≤ b.tag.size)
    (hfooters : ∀ b ∈ bs, b.tag.allocated = false →
      a.memory.readWord (b.offset + b.tag.size - 8) = .ok b.tag.pack)
    (hcoalesced : bs.IsChain fun a b => a.tag.allocated = true ∨ b.tag.allocated = true)
    (hlast : a.memory.tagAt a.epilogue = .ok last) (h8 : last.size = 8)
    (hall : last.allocated = true) : a.Walked o false (bs.map Block.span) where
  proper s hs := by
    obtain ⟨b, hb, rfl⟩ := List.mem_map.mp hs
    exact ⟨hsizes b hb, Memory.size_mod_of_tagAt (hheaders b hb)⟩
  coalesced := Block.coalesced_span hcoalesced (.inl rfl)
  stop_eq := by
    have htags := List.append_inj' (hrow.tags_eq h8 hall) rfl
    rw [List.cons.injEq, Span.epilogue, Block.mk.injEq] at htags
    exact htags.2.1.1
  shows b hb := by
    rw [Bool.not_false, hrow.tags_eq h8 hall, List.mem_append, List.mem_singleton] at hb
    rcases hb with hb | rfl
    · exact ⟨hheaders b hb, hfooters b hb⟩
    · exact ⟨hlast, fun hfree => absurd (hall.symm.trans hfree) (by decide)⟩

end Audit

namespace Heap

variable {h : Heap} {lists : Nat → List Nat} {ss : List Span} {bs : List Block} {last : Tag}
  {region : Region} {settings : Settings}

theorem accepted_of_walked (ha : h.audit.Fits)
    (hlists : ∀ c < h.index.size, h.audit.Lists c (lists c))
    (hwalked : h.audit.Walked h.start false ss)
    (hsum : ((List.range h.index.size).map fun c => (lists c).length).sum = Span.freeCount ss) :
    h.Accepted (layout h.start true ss) ⟨8, true, Span.lastAllocated true ss⟩ lists where
  rings c hc := ((Audit.lists_iff ha hc).mp (hlists c hc)).1
  room c hc := Audit.length_le_of_sum (a := h.audit) hc hwalked hsum
  nodes c hc u hu := by
    have hnode := ((Audit.lists_iff ha hc).mp (hlists c hc)).2.1 u hu
    exact ⟨hnode.mod_eq, hnode.start_le, hnode.lt_epilogue, hnode.tag_eq⟩
  row := by
    have hstop : h.start + total ss = h.memory.size - 8 := hwalked.stop_eq
    rw [← hstop]
    exact Span.row_tags
  headers b hb := (hwalked.shows b (List.mem_append_left _ hb)).tagAt_eq
  sizes b hb := by
    obtain ⟨before, after, hss, -⟩ := Span.exists_of_mem_layout hb
    have hproper := hwalked.proper ⟨b.tag.size, b.tag.allocated⟩ (by rw [hss]; simp)
    exact hproper.1
  footers b hb hfree := (hwalked.shows b (List.mem_append_left _ hb)).footer_eq hfree
  coalesced := Span.isChain_layout hwalked.coalesced
  last_written := by
    have hstop : h.start + total ss = h.memory.size - 8 := hwalked.stop_eq
    rw [← hstop]
    exact (hwalked.shows _ (List.mem_append_right _ (List.mem_singleton_self _))).tagAt_eq
  last_eq := ⟨rfl, rfl⟩
  count_eq := by rw [FreeIndex.listed, List.length_flatMap, hsum, Span.length_frees]

namespace Accepted

theorem listed (hacc : h.Accepted bs last lists) (ha : h.audit.Fits) {c : Nat}
    (hc : c < h.index.size) : h.audit.Lists c (lists c) := by
  refine (Audit.lists_iff ha hc).mpr ⟨hacc.rings c hc, fun u hu => ?_,
    Nat.le_succ_of_le (hacc.room c hc)⟩
  obtain ⟨hmod, hstart, hlt, htag⟩ := hacc.nodes c hc u hu
  exact ⟨hmod, hstart, hlt, htag⟩

theorem walked (hacc : h.Accepted bs last lists) :
    h.audit.Walked h.start false (bs.map Block.span) :=
  Audit.walked_of_row hacc.row hacc.headers hacc.sizes hacc.footers hacc.coalesced
    hacc.last_written hacc.last_eq.1 hacc.last_eq.2

theorem sum_eq (hacc : h.Accepted bs last lists) :
    ((List.range h.index.size).map fun c => (lists c).length).sum =
      Span.freeCount (bs.map Block.span) := by
  have hlen : (Block.frees (layout h.start true (bs.map Block.span))).length =
      Span.freeCount (bs.map Block.span) := Span.length_frees
  rw [hacc.row.layout_eq hacc.last_eq.1 hacc.last_eq.2] at hlen
  rw [← hlen, ← hacc.count_eq, FreeIndex.listed, List.length_flatMap]

end Accepted

/-- The audit accepts the heap exactly if its memory shows blocks and lists as the data model has
    them. -/
theorem check_eq_ok_iff (ha : h.audit.Fits) :
    h.check = .ok (.ok ()) ↔ ∃ bs last lists, h.Accepted bs last lists := by
  have hcheck : h.check = h.audit.run := rfl
  rw [hcheck, Audit.run_eq_sound_iff, Audit.inspect_eq_ok_iff ha.size_lt]
  constructor
  · rintro ⟨lists, ss, hlists, hwalked, hsum⟩
    exact ⟨_, _, lists, accepted_of_walked ha hlists hwalked hsum⟩
  · rintro ⟨bs, last, lists, hacc⟩
    exact ⟨lists, bs.map Block.span, fun c hc => hacc.listed ha hc, hacc.walked, hacc.sum_eq⟩

/-- The audit of a heap that was laid out copes with any memory that can be addressed. -/
theorem fits_of_init (hinit : (init region settings).result = .ok (.ok h)) {m : Memory}
    (hlen : m.size + 8 ≤ Word.limit) : (h.withMemory m).audit.Fits where
  heads_le := Nat.le_of_eq (realizes_of_init hinit).1.start_eq.symm
  start_lt := (realizes_of_init hinit).1.fits.start_lt
  size_le := hlen

/-- Whatever bytes a heap that was laid out is given for its memory, and however few, the audit has
    a verdict; and it accepts them exactly if they show blocks and lists as the data model has them.
    No memory that can be addressed is longer than `hlen` says. -/
theorem check_accepts_iff (hinit : (init region settings).result = .ok (.ok h)) {m : Memory}
    (hlen : m.size + 8 ≤ Word.limit) : (∃ verdict, (h.withMemory m).check = .ok verdict) ∧
      ((h.withMemory m).check = .ok (.ok ()) ↔
        ∃ bs last lists, (h.withMemory m).Accepted bs last lists) :=
  ⟨Audit.exists_run_eq (fits_of_init hinit hlen), check_eq_ok_iff (fits_of_init hinit hlen)⟩

/-- The bytes that a run leaves are accepted, and five zero bytes are not. -/
theorem check_accepts_iff_of_run : ∃ h m, (init (Region.empty 4096) {}).result = .ok (.ok h) ∧
    (∃ bs last lists, (h.withMemory m).Accepted bs last lists) ∧ 96 < m.size ∧
    (∃ violation, (h.withMemory (Memory.zeroed 5)).check = .ok (.error violation)) ∧
    ¬ ∃ bs last lists, (h.withMemory (Memory.zeroed 5)).Accepted bs last lists := by
  have hrun : (Session.start? (Region.empty 4096) {}).bind (fun t =>
      (t.run? [.allocate 16, .allocate 40, .allocate 16, .free (some ⟨136, by decide⟩)]).map fun s =>
        decide ((96 < s.heap.memory.size ∧ s.heap.memory.size + 8 ≤ Word.limit) ∧
          (t.heap.withMemory s.heap.memory).check = .ok (.ok ()) ∧
          (t.heap.withMemory (Memory.zeroed 5)).check ≠ .ok (.ok ()))) = some true := by
    decide +kernel
  obtain ⟨t, hstart, hrun⟩ := Option.bind_eq_some_iff.mp hrun
  obtain ⟨s, -, heq⟩ := Option.map_eq_some_iff.mp hrun
  obtain ⟨⟨hlt, hlen⟩, hgood, hbad⟩ := of_decide_eq_true heq
  obtain ⟨h, hinit, rfl⟩ := Session.start?_eq_some_iff.mp hstart
  have hshort := check_accepts_iff hinit (m := Memory.zeroed 5) (by decide)
  refine ⟨h, s.heap.memory, hinit, (check_accepts_iff hinit hlen).2.mp hgood, hlt, ?_,
    fun hacc => hbad (hshort.2.mpr hacc)⟩
  obtain ⟨verdict, hverdict⟩ := hshort.1
  cases verdict with
  | ok u => exact absurd hverdict hbad
  | error violation => exact ⟨violation, hverdict⟩

end Heap

end BoundaryTag
