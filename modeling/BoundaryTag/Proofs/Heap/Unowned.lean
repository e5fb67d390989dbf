import BoundaryTag.Proofs.Heap.Misled
import BoundaryTag.Proofs.Heap.Relists

set_option autoImplicit false

/-! # Freeing what no client owns

Where no allocated block starts some word stands for a header (`Heap.Unowned`). Freed all the same,
it comes up on a list as a node too many, and the audit does not accept the heap, unless the word
misleads freeing (`Unowned.free_ne`). If no list leads through a free neighbour that the header leads
to, the block is not merged. Then three words are written besides its links, and the last of them
has to be no header of a block. A header without a size makes the block its own neighbour on both
sides: it can be merged only if it links to itself, so that no other block is touched. That is so
for links that do not get at each other's bytes, as in a memory of at most `2 ^ 40` bytes at any
offset but `2 ^ 32`. -/

open BoundaryTag.Span (total layout tags)

namespace BoundaryTag

variable {h h' : Heap} {P : Plan} {p : Handle} {o u c : Nat} {t : Tag} {m' : Memory} {b : Block}

/-- The word at `o`, where no allocated block starts, is the header `t`. -/
structure Heap.Unowned (h : Heap) (P : Plan) (o : Nat) (t : Tag) : Prop where
  realizes : h.Realizes P
  mod_eq : o % 8 = 0
  start_le : h.start ≤ o
  room : o + 32 ≤ h.start + total P.spans
  unowned : ∀ k, (o, k) ∉ Span.places true h.start P.spans
  tag_eq : Tag.unpack (h.memory.wordAt o) = t

namespace Heap.Unowned

theorem size_mod (hu : h.Unowned P o t) : t.size % 8 = 0 := by
  rw [← hu.tag_eq]
  exact Tag.size_unpack_mod _

theorem heads_le (hu : h.Unowned P o t) : h.index.base + h.index.size * 24 ≤ o := by
  rw [← hu.realizes.start_eq]
  exact hu.start_le

theorem le_offset (hu : h.Unowned P o t) : 24 ≤ o := by
  have hheads := hu.heads_le
  have hclass := h.index.classify_lt_size 0
  omega

/-- A block at `o` is free, and `t` is its header. -/
theorem tag_of_offset (hu : h.Unowned P o t) (hprev : t.prevAllocated = true)
    (hb : b ∈ tags h.start true P.spans) (ho : b.offset = o) : b.tag = Tag.free t.size true := by
  have htag : b.tag = t := by
    rw [← hu.tag_eq, ← ho, hu.realizes.wordAt_eq hb]
    exact (Tag.unpack_pack_of_mod (hu.realizes.charted.proper b hb).size_mod).symm
  have hroom := hu.room
  rw [tags, List.mem_append, List.mem_singleton] at hb
  rcases hb with hb | rfl
  · have hfree : b.tag.allocated = false := by
      by_contra hall
      rw [Bool.not_eq_false] at hall
      exact hu.unowned b.tag.size (Span.mem_places_iff.mpr ⟨b, hb, hall, ho, rfl⟩)
    rw [← htag] at hprev ⊢
    cases htag' : b.tag
    rw [htag'] at hfree hprev
    dsimp only at hfree hprev
    rw [hfree, hprev]
    rfl
  · have : h.start + total P.spans = o := ho
    omega

/-- A link of a listed node that is taken for the header is a multiple of eight. -/
theorem wordAt_mod (hu : h.Unowned P o t) (hc : c < h.index.size) (hmem : u ∈ P.lists c)
    (ho : u + 8 = o ∨ u + 16 = o) : h.memory.wordAt o % 8 = 0 := by
  have hr := hu.realizes
  have hcycle := FreeIndex.mem_cycle_of_mem h.index hmem
  obtain ⟨⟨v, hv, hnext⟩, w, hw, hprior⟩ := (hr.charted.threaded.ring c hc).exists_linked hcycle
  rcases ho with rfl | rfl
  · rw [Memory.wordAt_of_readWord hnext.1]
    exact hr.mod_of_mem_cycle hc hv
  · rw [Memory.wordAt_of_readWord hprior.2]
    exact hr.mod_of_mem_cycle hc hw

/-- So it is not taken for one that says that the block before it is allocated. -/
theorem link_ne (hu : h.Unowned P o t) (hprev : t.prevAllocated = true) (hc : c < h.index.size)
    (hmem : u ∈ P.lists c) : u + 8 ≠ o := by
  intro ho
  have hmod := hu.wordAt_mod hc hmem (.inl ho)
  rw [← hu.tag_eq] at hprev
  simp only [Tag.unpack, beq_iff_eq] at hprev
  omega

/-- If it is taken for one without a size, it is zero. -/
theorem wordAt_eq_zero (hu : h.Unowned P o t) (h0 : t.size = 0) (hc : c < h.index.size)
    (hmem : u ∈ P.lists c) (ho : u + 8 = o ∨ u + 16 = o) : h.memory.wordAt o = 0 := by
  have hmod := hu.wordAt_mod hc hmem ho
  rw [← hu.tag_eq] at h0
  simp only [Tag.unpack] at h0
  omega

/-- A link back that is taken for a header without a size leads to the lowest head, at zero. -/
theorem headAt_eq_zero (hu : h.Unowned P o t) (h0 : t.size = 0) (hc : c < h.index.size)
    (hmem : u ∈ P.lists c) (ho : u + 16 = o) : h.index.headAt (h.index.classify 0) = 0 := by
  have hr := hu.realizes
  obtain ⟨-, w, hw, hprior⟩ := (hr.charted.threaded.ring c hc).exists_linked
    (FreeIndex.mem_cycle_of_mem h.index hmem)
  have hword := Memory.wordAt_of_readWord hprior.2
  rw [ho, hu.wordAt_eq_zero h0 hc hmem (.inr ho)] at hword
  obtain ⟨k, hk, hclass⟩ := (hr.mem_lists_iff hc).mp hmem
  have hzero : h.index.headAt c = 0 := by
    rcases List.mem_cons.mp hw with hhead | hw
    · exact hhead.symm.trans hword.symm
    · -- a node is not at zero, as the heads are below it
      obtain ⟨j, hj, -⟩ := (hr.mem_lists_iff hc).mp hw
      have := (hr.place_bounds hj).1
      have := hr.charted.head_le hc
      omega
  have hlower : h.index.classify 0 ≤ h.index.classify k :=
    h.index.classes.classify_mono (Nat.zero_le k)
  unfold FreeIndex.headAt at hzero ⊢
  omega

section Struck

variable (hu : h.Unowned P o t) (h0 : t.size ≠ 0) (hprev : t.prevAllocated = true)
  (hnext : o + t.size + 8 ≤ h.memory.size)
  (hfoot : ∀ b ∈ layout h.start true P.spans, b.offset + 8 ≠ o + t.size)

include hu hprev hfoot

include h0 hnext in
/-- With a size in the header, the headers stay as they are, but for one that is told of the block
    before it. -/
theorem header_of_struck (hb : b ∈ tags h.start true P.spans) :
    Tag.unpack (struck h.memory.wordAt o t.size b.offset) = b.tag ∨
      ((Tag.unpack (struck h.memory.wordAt o t.size b.offset)).prevAllocated = false ∧
        (b.tag.prevAllocated = true ∨
          (Tag.unpack (struck h.memory.wordAt o t.size b.offset)).allocated = false)) := by
  have hr := hu.realizes
  have hmod := (hr.charted.proper b hb).size_mod
  -- the footer is no header, neither of a block nor the last tag
  have hlast : b.offset ≠ o + t.size - 8 := by
    intro heq
    rw [tags, List.mem_append, List.mem_singleton] at hb
    rcases hb with hb | rfl
    · have hsize := hu.size_mod
      exact hfoot b hb (by omega)
    · have hend := hr.size_eq
      have : h.start + total P.spans = o + t.size - 8 := heq
      omega
  by_cases hb' : b.offset = o + t.size
  · rw [hb', tag_struck_next, ← hb', hr.wordAt_eq hb, Tag.unpack_pack_of_mod hmod]
    cases htold : b.tag.prevAllocated with
    | true => exact .inr ⟨rfl, .inl rfl⟩
    | false =>
      left
      rw [Tag.behindFree, ← htold]
  by_cases ho : b.offset = o
  · left
    rw [ho, tag_struck_self h0 hu.size_mod, hu.tag_of_offset hprev hb ho]
  · left
    rw [struck, Function.update_of_ne hb', Function.update_of_ne hlast, Function.update_of_ne ho,
      hr.wordAt_eq hb, Tag.unpack_pack_of_mod hmod]

/-- A next link of a listed node stays as it is, or the footer is written there. -/
theorem link_of_struck (hc : c < h.index.size) (hmem : u ∈ P.lists c) :
    struck h.memory.wordAt o t.size (u + 8) = h.memory.wordAt (u + 8) ∨
      struck h.memory.wordAt o t.size (u + 8) % 8 ≠ 0 := by
  obtain ⟨k, hk, -⟩ := (hu.realizes.mem_lists_iff hc).mp hmem
  obtain ⟨b, hb, -, rfl, rfl⟩ := (Span.mem_places_iff (p := true)).mp hk
  have hmark : (Tag.free t.size true).pack % 8 ≠ 0 := by
    show (t.size / 8 * 8 + 0 + 2 * 1) % 8 ≠ 0
    omega
  rw [struck, Function.update_of_ne (hfoot b hb)]
  by_cases hfooter : b.offset + 8 = o + t.size - 8
  · rw [hfooter, Function.update_self]
    exact .inr hmark
  · left
    rw [Function.update_of_ne hfooter, Function.update_of_ne (hu.link_ne hprev hc hmem)]

include h0 hnext in
/-- With a size in the header: the header and the footer that it leads to are written, and the
    header behind them. -/
theorem relists_of_struck
    (hw : m'.Words h.memory.size (relinked (struck h.memory.wordAt o t.size) o
      (h.index.headAt (h.index.classify t.size)))) :
    h.Relists P (struck h.memory.wordAt o t.size) o (h.index.classify t.size)
      (h.index.headAt (h.index.classify t.size))
      (h.memory.wordAt (h.index.headAt (h.index.classify t.size) + 8)) m' := by
  have hmod := hu.mod_eq
  have hsize := hu.size_mod
  refine ⟨hu.realizes, hmod, hu.start_le, hu.room, h.index.classify_lt_size _, rfl, rfl,
    fun i hi => ?_, fun b hb => hu.header_of_struck h0 hprev hnext hfoot hb,
    fun c hc v hv => (hu.link_of_struck hprev hfoot hc hv).imp_right .inl, hw⟩
  rw [struck, Function.update_of_ne (by omega), Function.update_of_ne (by omega),
    Function.update_of_ne (by omega)]

end Struck

/-- Without a size in the header it is blanked, and so is the word before it. -/
theorem relists_of_blanked (hu : h.Unowned P o t) (h0 : t.size = 0)
    (hw : m'.Words h.memory.size (relinked (blanked h.memory.wordAt o) o
      (h.index.headAt (h.index.classify 0)))) :
    h.Relists P (blanked h.memory.wordAt o) o (h.index.classify 0)
      (h.index.headAt (h.index.classify 0))
      (h.memory.wordAt (h.index.headAt (h.index.classify 0) + 8)) m' := by
  have hr := hu.realizes
  refine ⟨hr, hu.mod_eq, hu.start_le, hu.room, h.index.classify_lt_size _, rfl, rfl, fun i hi => ?_,
    fun b hb => ?_, fun c hc v hv => ?_, hw⟩
  · rw [blanked, Function.update_of_ne (by omega), Function.update_of_ne (by omega)]
  · have hblank : (Tag.unpack 0).prevAllocated = false ∧ (Tag.unpack 0).allocated = false :=
      ⟨rfl, rfl⟩
    by_cases hfooter : b.offset = o - 8
    · rw [blanked, hfooter, Function.update_self]
      exact .inr (hblank.imp_right .inr)
    by_cases ho : b.offset = o
    · rw [ho, blanked_self hu.le_offset]
      exact .inr (hblank.imp_right .inr)
    · left
      rw [blanked, Function.update_of_ne hfooter, Function.update_of_ne ho, hr.wordAt_eq hb,
        Tag.unpack_pack_of_mod (hr.charted.proper b hb).size_mod]
  · have h24 := hu.le_offset
    by_cases hnext : v + 8 = o
    · left
      rw [hnext, blanked_self h24, hu.wordAt_eq_zero h0 hc hv (.inl hnext)]
    by_cases hprior : v + 16 = o
    · refine .inr (.inr ⟨by omega, ?_⟩)
      have hfoot : v + 8 = o - 8 := by omega
      rw [hfoot, blanked, Function.update_self]
      exact (hu.headAt_eq_zero h0 hc hv hprior).symm
    · left
      rw [blanked, Function.update_of_ne (by omega), Function.update_of_ne hnext]

/-- A heap that audits itself does not free what no client owns, unless it is misled. -/
theorem free_ne (hu : h.Unowned P o t) (hcheck : h.settings.checkAfter = true)
    (hp : p.offset = o + 8) (hmisled : ¬ h.Misled o t) : (h.free (some p)).result ≠ .ok h' := by
  intro hfree
  have hr := hu.realizes
  have hmod := hu.mod_eq
  have hroom := hu.room
  have hend := hr.size_eq
  have hsize := hu.size_mod
  have hwords := h.memory.words_wordAt
  have htag : h.memory.tagAt o = .ok t := (hwords.tagAt_iff hmod).mpr ⟨by omega, hu.tag_eq⟩
  obtain ⟨m, m₁, m', start, hm, hmerge, hpush, rfl, hverify⟩ := exists_of_free hp htag hfree
  rcases merges_of_merge hmerge with hmerges | ⟨next, hn⟩
  · have hshared : t.size = 0 ∧ h.memory.size ≤ 2 ^ 40 ∧ o ≠ 2 ^ 32 := by
      by_contra hnot
      refine hmisled (.merged hm hmerges fun h0 => ?_)
      by_contra hfar
      rw [not_or, Nat.not_lt] at hfar
      exact hnot ⟨h0, hfar⟩
    obtain ⟨h0, hlim, hne⟩ := hshared
    have hw := words_of_refree_blank hwords hlim hne hmod hu.le_offset h0 hr.base_mod hu.heads_le
      (hr.mod_of_first (h.index.classify_lt_size 0)) hm hmerge hpush
    exact (hu.relists_of_blanked h0 hw).check_ne (Heap.check_of_verify hcheck hverify)
  · have h0 : t.size ≠ 0 := fun h0 => Bool.false_ne_true (hn.of_blank hm h0).1
    obtain ⟨hprev, u, hnext, hall⟩ := hn.of_sized hm h0 hsize
    rw [Bool.false_eq, Bool.not_eq_false'] at hprev hall
    have hfoot : ∀ b ∈ layout h.start true P.spans, b.offset + 8 ≠ o + t.size := by
      refine fun b hb heq => hmisled (.struck h0 hprev (fun u' hu' => ?_) hr.blocks_eq hb heq)
      cases hnext.symm.trans hu'
      exact hall
    obtain ⟨hle, rfl⟩ := (hwords.tagAt_iff (by omega)).mp hnext
    have hw := words_of_refree hwords hr.charted.addressable hmod h0 hsize hprev hall hr.base_mod
      hu.heads_le (hr.mod_of_first (h.index.classify_lt_size t.size)) hm hn hmerge hpush
    exact (hu.relists_of_struck h0 hprev hle hfoot hw).check_ne
      (Heap.check_of_verify hcheck hverify)

end Heap.Unowned

end BoundaryTag
