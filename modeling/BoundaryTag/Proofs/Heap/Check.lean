import BoundaryTag.Proofs.Audit.Blocks
import BoundaryTag.Proofs.Audit.Rings
import BoundaryTag.Proofs.Heap.Plan

set_option autoImplicit false

/-! # Sound heaps pass the audit

A heap that realizes a plan is accepted by the audit (`Realizes.check_eq`): its rings consist of
free headers, its row is what the walk meets, and the lists hold each free block once, so both
counts agree (`Realizes.sum_length_eq`). -/

open BoundaryTag.Span (total layout tags places)

namespace BoundaryTag

namespace Span

variable {o : Nat} {p : Bool} {ss : List Span} {b : Block}

theorem length_places_false : (places false o ss).length = freeCount ss := by
  induction ss generalizing o with
  | nil => rfl
  | cons s ss ih =>
    rw [places, freeCount_cons]
    cases hs : s.allocated with
    | true => simpa using ih
    | false => simp [ih]

/-- A row of so many bytes has at most one span for each 32 of them. -/
theorem freeCount_le (hss : ∀ s ∈ ss, s.Proper) : freeCount ss * 32 ≤ total ss := by
  induction ss with
  | nil => simp [freeCount]
  | cons s ss ih =>
    rw [List.forall_mem_cons] at hss
    have := ih hss.2
    have := hss.1.1
    have := (!s.allocated).toNat_le
    rw [freeCount_cons, total_cons]
    omega

end Span

/-- What an audit of the heap looks at. -/
def Heap.audit (h : Heap) : Audit :=
  ⟨h.memory, h.index, h.start⟩

namespace Heap.Realizes

variable {h : Heap} {P : Plan} {c u : Nat}

/-- Over all classes the lists hold as many nodes as the row has free spans. -/
theorem sum_length_eq (hr : h.Realizes P) :
    ((List.range h.index.size).map fun c => (P.lists c).length).sum =
      Span.freeCount P.spans := by
  have hnodup : ((List.range h.index.size).flatMap P.lists).Nodup := by
    rw [List.nodup_flatMap]
    refine ⟨fun c hc => hr.nodup_lists (List.mem_range.mp hc), ?_⟩
    refine List.nodup_range.pairwise_of_forall_ne fun c hc d hd hne => ?_
    rw [List.mem_range] at hc hd
    exact List.disjoint_left.mpr fun u hu hu' =>
      hne (hr.charted.threaded.class_unique hc hd hu hu')
  have hperm : ((List.range h.index.size).flatMap P.lists).Perm
      ((places false h.start P.spans).map Prod.fst) := by
    rw [List.perm_ext_iff_of_nodup hnodup (Span.nodup_places hr.proper)]
    intro u
    simp only [List.mem_flatMap, List.mem_range, List.mem_map, Prod.exists, exists_and_right,
      exists_eq_right]
    constructor
    · rintro ⟨c, hc, hu⟩
      obtain ⟨k, hk, -⟩ := (hr.mem_lists_iff hc).mp hu
      exact ⟨k, hk⟩
    · rintro ⟨k, hk⟩
      have hc := h.index.classify_lt_size k
      exact ⟨_, hc, (hr.mem_lists_iff hc).mpr ⟨k, hk, rfl⟩⟩
  have hlen := hperm.length_eq
  rwa [List.length_flatMap, List.length_map, Span.length_places_false] at hlen

theorem epilogue_audit (hr : h.Realizes P) : h.audit.epilogue = h.start + total P.spans := by
  have hsize := hr.size_eq
  have h8 : Block.epilogueBytes = 8 := rfl
  show h.memory.size - Block.epilogueBytes = _
  omega

theorem fits (hr : h.Realizes P) : h.audit.Fits where
  heads_le := Nat.le_of_eq hr.start_eq.symm
  start_lt := by
    have := hr.size_eq
    have := hr.charted.addressable
    show h.start < Word.limit
    omega
  size_le := by
    -- the size is a multiple of eight, as the limit is
    have := hr.size_eq
    have hlim : h.memory.size < 18446744073709551616 := hr.charted.addressable
    have hmod := hr.mod_of_mem_tags (List.mem_append_right _ (List.mem_singleton_self _))
    dsimp only [Span.epilogue] at hmod
    show h.memory.size + 8 ≤ 18446744073709551616
    omega

/-- The nodes of a list are free headers of its class. -/
theorem node_of_mem_lists (hr : h.Realizes P) (hc : c < h.index.size) (hu : u ∈ P.lists c) :
    h.audit.Node c u := by
  obtain ⟨k, hk, hclass⟩ := (hr.mem_lists_iff hc).mp hu
  obtain ⟨b, hb, hfree, rfl, rfl⟩ := (Span.mem_places_iff (p := true)).mp hk
  refine ⟨Span.mod_of_mem_layout hr.start_mod hr.proper hb, (Span.le_of_mem_layout hb).1, ?_,
    b.tag, hr.charted.tagAt (List.mem_append_left _ hb), hfree, hclass⟩
  rw [hr.epilogue_audit]
  exact hr.lt_of_mem_lists hc hu

/-- A list has no more nodes than there is room for blocks. -/
theorem length_lists_le (hr : h.Realizes P) (hc : c < h.index.size) :
    (P.lists c).length * 32 ≤ total P.spans := by
  have hsub : P.lists c ⊆ (places false h.start P.spans).map Prod.fst := fun u hu => by
    obtain ⟨k, hk, -⟩ := (hr.mem_lists_iff hc).mp hu
    exact List.mem_map_of_mem hk
  have hlen := (List.subperm_of_subset (hr.nodup_lists hc) hsub).length_le
  rw [List.length_map, Span.length_places_false] at hlen
  have hcount := Span.freeCount_le hr.proper
  omega

theorem lists_eq (hr : h.Realizes P) (hc : c < h.index.size) :
    h.audit.Lists c (P.lists c) := by
  refine (Audit.lists_iff hr.fits hc).mpr
    ⟨hr.charted.threaded.ring c hc, fun u hu => hr.node_of_mem_lists hc hu, ?_⟩
  have hlen := hr.length_lists_le hc
  have hroom : h.audit.maxBlocks = total P.spans / 32 := by
    rw [Audit.maxBlocks, hr.epilogue_audit]
    show (h.start + total P.spans - h.start) / 32 = _
    rw [Nat.add_sub_cancel_left]
  omega

/-- A heap that realizes a plan passes the audit. -/
theorem check_eq (hr : h.Realizes P) : h.check = .ok (.ok ()) := by
  refine Audit.run_eq_sound_iff.mpr ((Audit.inspect_eq_ok_iff hr.charted.addressable).mpr
    ⟨P.lists, P.spans, fun c hc => hr.lists_eq hc, ⟨hr.proper, hr.coalesced, ?_, fun b hb => ?_⟩,
      hr.sum_length_eq⟩)
  · exact hr.epilogue_audit.symm
  · exact (hr.charted.marked b hb).shows (hr.charted.proper b hb)

/-- The walk meets the blocks of the plan. -/
theorem blocks_eq (hr : h.Realizes P) : h.blocks = .ok (layout h.start true P.spans) := by
  have hsize := hr.size_eq
  have hlim := hr.charted.addressable
  have hstop : h.start + total P.spans = h.memory.size - 8 := by omega
  exact Memory.blocksFrom_eq hr.proper (fun b hb => hr.charted.tagAt hb) hstop (by omega)

/-- The footer of a free block of the row repeats its header. -/
theorem footer_eq (hr : h.Realizes P) {b : Block} (hb : b ∈ layout h.start true P.spans)
    (hfree : b.tag.allocated = false) : h.memory.footerAt b.offset = .ok b.tag ∧
      h.memory.readWord (b.offset + b.tag.size - 8) = h.memory.readWord b.offset := by
  have htags : b ∈ tags h.start true P.spans := List.mem_append_left _ hb
  have hmarked := hr.charted.marked b htags
  have hproper := hr.charted.proper b htags
  have hword := hproper.word_le
  have hadd : Word.add b.offset b.tag.size = .ok b.stop :=
    Word.add_eq_ok_iff.mpr ⟨rfl, hr.charted.stop_lt htags⟩
  have hsub : Word.sub b.stop Block.footerBytes = .ok (b.stop - 8) :=
    Word.sub_eq_ok_iff.mpr (by unfold Block.footerBytes Block.stop; omega)
  constructor
  · simp only [Memory.footerAt, Memory.footerOffset, hr.charted.sizeAt htags, ok_bind, hadd, hsub]
    exact Memory.tagAt_of_readWord (hmarked.footer hfree) hproper.size_mod
  · rw [hmarked.header]
    exact hmarked.footer hfree

theorem result_verify (hr : h.Realizes P) : h.verify.result = .ok () := by
  rw [verify]
  split
  · simp only [Traced.result_bind, Traced.result_lift, hr.check_eq, ok_bind, Traced.result_pure]
  · rfl

end Heap.Realizes

/-- A heap that audits itself has nothing to report only if the audit accepts it. -/
theorem Heap.check_of_verify {h : Heap} (hcheck : h.settings.checkAfter = true)
    (hverify : h.verify.result = .ok ()) : h.check = .ok (.ok ()) := by
  rw [verify, if_pos hcheck, Traced.result_bind_eq_ok_iff] at hverify
  obtain ⟨verdict, hverdict, hrest⟩ := hverify
  rw [Traced.result_lift] at hverdict
  cases verdict with
  | ok u => exact hverdict
  | error violation =>
    rw [Traced.result_bind_eq_ok_iff] at hrest
    obtain ⟨_, -, hfail⟩ := hrest
    cases hfail

end BoundaryTag
