import BoundaryTag.Proofs.FreeIndex.Threaded
import BoundaryTag.Proofs.Span

set_option autoImplicit false

/-! # Charts

`Charted x start m bs lists` says that the memory `m` shows the blocks `bs`, which do not overlap,
and threads the lists of the index `x` through free ones among them. It says nothing of the space
between the blocks: an operation first drops a block from the chart, then writes in the gap, then
enters what it has written (`Charted.drop`, `Charted.of_touches`, `Charted.enter`). The flags for
the block before need not be true while an operation is under way. -/

namespace BoundaryTag

open Memory (Touches Within)
open FreeIndex (without pushed)

/-- The word is a link of a head or of a listed node. -/
def FreeIndex.LinkWord (x : FreeIndex) (lists : Nat → List Nat) (w : Nat) : Prop :=
  ∃ c < x.size, ∃ u ∈ x.cycle lists c, w = u + 8 ∨ w = u + 16

/-- The word is a link of a head or of a listed node, and the link leads to the node `u`. -/
def FreeIndex.LinkTo (x : FreeIndex) (lists : Nat → List Nat) (m : Memory) (u w : Nat) : Prop :=
  x.LinkWord lists w ∧ m.readWord w = .ok u

namespace FreeIndex.LinkWord

variable {x : FreeIndex} {m : Memory} {lists : Nat → List Nat} {c d u v w : Nat}

theorem of_without (h : x.LinkWord (without lists u) w) : x.LinkWord lists w := by
  obtain ⟨c, hc, v, hv, hw⟩ := h
  exact ⟨c, hc, v, mem_cycle_of_mem_without hv, hw⟩

/-- Links do not overlap. -/
theorem eq_or_apart (ht : x.Threaded m lists) (hv : x.LinkWord lists v)
    (hw : x.LinkWord lists w) : v = w ∨ v + 8 ≤ w ∨ w + 8 ≤ v := by
  obtain ⟨c, hc, a, ha, hva⟩ := hv
  obtain ⟨d, hd, b, hb, hwb⟩ := hw
  have := ht.apart c hc d hd a ha b hb
  omega

end FreeIndex.LinkWord

/-! ## Charts of a memory -/

/-- The memory shows the blocks and threads the lists through free ones among them. -/
structure Charted (x : FreeIndex) (start : Nat) (m : Memory) (bs : List Block)
    (lists : Nat → List Nat) : Prop where
  heads_le : x.base + x.size * 24 ≤ start
  sorted : bs.Pairwise fun a b => a.stop ≤ b.offset
  proper : ∀ b ∈ bs, b.Proper
  start_le : ∀ b ∈ bs, start ≤ b.offset
  stop_le : ∀ b ∈ bs, b.stop ≤ m.size
  marked : ∀ b ∈ bs, m.Marked b
  threaded : x.Threaded m lists
  listed : ∀ c < x.size, ∀ u ∈ lists c,
    ∃ b ∈ bs, b.offset = u ∧ b.tag.allocated = false ∧ x.classify b.tag.size = c

namespace Charted

variable {x : FreeIndex} {start : Nat} {m m' : Memory} {bs as cs : List Block} {b a : Block}
  {lists lists' : Nat → List Nat} {c u w : Nat} {ws : List Nat}

theorem addressable (h : Charted x start m bs lists) : m.size < Word.limit :=
  h.threaded.addressable

theorem stop_lt (h : Charted x start m bs lists) (hb : b ∈ bs) : b.stop < Word.limit :=
  Nat.lt_of_le_of_lt (h.stop_le b hb) h.addressable

/-- Two blocks are the same, or one stops before the other starts. -/
theorem eq_or_apart (h : Charted x start m bs lists) (ha : a ∈ bs) (hb : b ∈ bs) :
    a = b ∨ a.stop ≤ b.offset ∨ b.stop ≤ a.offset := by
  have hsorted := h.sorted
  clear h
  induction bs with
  | nil => exact absurd ha List.not_mem_nil
  | cons d bs ih =>
    rw [List.pairwise_cons] at hsorted
    rw [List.mem_cons] at ha hb
    rcases ha with rfl | ha <;> rcases hb with rfl | hb
    · exact .inl rfl
    · exact .inr (.inl (hsorted.1 b hb))
    · exact .inr (.inr (hsorted.1 a ha))
    · exact ih ha hb hsorted.2

theorem head_le (h : Charted x start m bs lists) (hc : c < x.size) : x.headAt c + 24 ≤ start := by
  have := h.heads_le
  have : (c + 1) * 24 ≤ x.size * 24 := Nat.mul_le_mul_right 24 hc
  unfold FreeIndex.headAt
  omega

/-- A node of a ring is a head below the heap, or a free block. -/
theorem node_cases (h : Charted x start m bs lists) (hc : c < x.size) (hu : u ∈ x.cycle lists c) :
    u + 24 ≤ start ∨ ∃ b ∈ bs, b.offset = u ∧ b.tag.allocated = false := by
  rw [FreeIndex.cycle, List.mem_cons] at hu
  rcases hu with rfl | hu
  · exact .inl (h.head_le hc)
  · obtain ⟨b, hb, hbu, hfree, -⟩ := h.listed c hc u hu
    exact .inr ⟨b, hb, hbu, hfree⟩

/-- The links of a node lie beside all tags. -/
theorem links_beside_tags (h : Charted x start m bs lists) (hb : b ∈ bs) (hc : c < x.size)
    (hu : u ∈ x.cycle lists c) {i : Nat} (hi : i ∈ b.tagWords) : i + 8 ≤ u + 8 ∨ u + 24 ≤ i := by
  have hbp := h.proper b hb
  have hin := hbp.le_of_mem_tagWords hi
  have hstart := h.start_le b hb
  rcases h.node_cases hc hu with hle | ⟨a, ha, rfl, hfree⟩
  · omega
  · have hap := (h.proper a ha).least_le hfree
    rcases h.eq_or_apart ha hb with rfl | hab | hba
    · simp only [Block.tagWords, hfree, Bool.false_eq_true, if_false, List.mem_cons,
        List.not_mem_nil, or_false, Block.stop] at hi
      omega
    · unfold Block.stop at hab hin
      omega
    · omega

/-- Writes beside all tags and links leave the chart as it is. They may go to gaps between the
    blocks and to payloads of allocated blocks. -/
theorem of_touches (h : Charted x start m bs lists) (ht : Touches ws m m')
    (hstart : ∀ w ∈ ws, start ≤ w)
    (hws : ∀ w ∈ ws, ∀ b ∈ bs, w + 8 ≤ b.offset ∨ b.stop ≤ w ∨
      (b.tag.allocated = true ∧ b.offset + 8 ≤ w)) : Charted x start m' bs lists where
  heads_le := h.heads_le
  sorted := h.sorted
  proper := h.proper
  start_le := h.start_le
  stop_le b hb := by
    rw [ht.size_eq]
    exact h.stop_le b hb
  marked b hb := by
    refine (h.marked b hb).of_touches ht fun i hi w hw => ?_
    have hin := (h.proper b hb).le_of_mem_tagWords hi
    rcases hws w hw b hb with hle | hle | ⟨hall, hle⟩
    · omega
    · omega
    · simp only [Block.tagWords, hall, if_true, List.mem_singleton] at hi
      omega
  threaded := by
    refine h.threaded.of_touches ht fun c hc u hu w hw => ?_
    have := hstart w hw
    rcases h.node_cases hc hu with hle | ⟨b, hb, rfl, hfree⟩
    · omega
    · have hleast := (h.proper b hb).least_le hfree
      rcases hws w hw b hb with hle | hle | ⟨hall, -⟩
      · omega
      · unfold Block.stop at hle
        omega
      · rw [hfree] at hall
        exact absurd hall Bool.false_ne_true
  listed := h.listed

theorem grow (h : Charted x start m bs lists) {n : Nat} (hlim : m.size + n < Word.limit) :
    Charted x start (m.grow n) bs lists where
  heads_le := h.heads_le
  sorted := h.sorted
  proper := h.proper
  start_le := h.start_le
  stop_le b hb := Nat.le_trans (h.stop_le b hb) (Nat.le_add_right _ _)
  marked b hb i hi := Memory.readWord_grow (h.marked b hb i hi)
  threaded := h.threaded.grow hlim
  listed := h.listed

/-- Only the lists of the index count. -/
theorem congr_lists (h : Charted x start m bs lists) (hl : ∀ c < x.size, lists' c = lists c) :
    Charted x start m bs lists' := by
  refine ⟨h.heads_le, h.sorted, h.proper, h.start_le, h.stop_le, h.marked,
    h.threaded.congr_lists hl, fun c hc u hu => ?_⟩
  rw [hl c hc] at hu
  exact h.listed c hc u hu

/-! ### Reading blocks of a chart -/

theorem tagAt (h : Charted x start m bs lists) (hb : b ∈ bs) : m.tagAt b.offset = .ok b.tag :=
  (h.marked b hb).tagAt (h.proper b hb)

theorem sizeAt (h : Charted x start m bs lists) (hb : b ∈ bs) :
    m.sizeAt b.offset = .ok b.tag.size :=
  (h.marked b hb).sizeAt (h.proper b hb)

theorem freeAt (h : Charted x start m bs lists) (hb : b ∈ bs) :
    m.freeAt b.offset = .ok !b.tag.allocated :=
  (h.marked b hb).freeAt (h.proper b hb)

theorem prevAllocatedAt (h : Charted x start m bs lists) (hb : b ∈ bs) :
    m.prevAllocatedAt b.offset = .ok b.tag.prevAllocated :=
  (h.marked b hb).prevAllocatedAt (h.proper b hb)

theorem successor (h : Charted x start m bs lists) (hb : b ∈ bs) :
    m.successor b.offset = .ok b.stop :=
  (h.marked b hb).successor (h.proper b hb) (h.stop_lt hb)

theorem predecessor (h : Charted x start m bs lists) (hb : b ∈ bs)
    (hfree : b.tag.allocated = false) : m.predecessor b.stop = .ok b.offset :=
  (h.marked b hb).predecessor (h.proper b hb) hfree

/-! ### The first block of a row -/

theorem freeAt_first {o : Nat} {prev : Bool} {ss : List Span}
    (h : Charted x start m (as ++ Span.tags o prev ss) lists) :
    m.freeAt o = .ok !Span.nextAllocated ss := by
  obtain ⟨first, rest, ho, hall, htags⟩ := Span.exists_tags_eq o ss
  rw [htags] at h
  have hfree := h.freeAt (List.mem_append_right as List.mem_cons_self)
  rwa [Block.offset_withPrev, Block.allocated_withPrev, ho, hall] at hfree

theorem prevAllocatedAt_first {o : Nat} {prev : Bool} {ss : List Span}
    (h : Charted x start m (as ++ Span.tags o prev ss) lists) :
    m.prevAllocatedAt o = .ok prev := by
  obtain ⟨first, rest, ho, -, htags⟩ := Span.exists_tags_eq o ss
  rw [htags] at h
  have hprev := h.prevAllocatedAt (List.mem_append_right as List.mem_cons_self)
  rwa [Block.offset_withPrev, ho] at hprev

/-! ### Blocks of a chart -/

/-- Blocks that are on no list can be dropped from the chart. -/
theorem drop (h : Charted x start m (as ++ bs ++ cs) lists)
    (hbs : ∀ b ∈ bs, b.tag.allocated = false → ∀ c < x.size, b.offset ∉ lists c) :
    Charted x start m (as ++ cs) lists := by
  have hsub : (as ++ cs).Sublist (as ++ bs ++ cs) :=
    (List.sublist_append_left as bs).append_right cs
  refine ⟨h.heads_le, h.sorted.sublist hsub, fun b hb => h.proper b (hsub.subset hb),
    fun b hb => h.start_le b (hsub.subset hb), fun b hb => h.stop_le b (hsub.subset hb),
    fun b hb => h.marked b (hsub.subset hb), h.threaded, fun c hc u hu => ?_⟩
  obtain ⟨b, hb, hbu, hfree, hclass⟩ := h.listed c hc u hu
  refine ⟨b, ?_, hbu, hfree, hclass⟩
  simp only [List.mem_append, or_assoc] at hb ⊢
  rcases hb with hb | hb | hb
  · exact .inl hb
  · rw [← hbu] at hu
    exact absurd hu (hbs b hb hfree c hc)
  · exact .inr hb

/-- A block that the memory shows in a gap can be entered into the chart. -/
theorem enter (h : Charted x start m (as ++ cs) lists) (hb : b.Proper) (hm : m.Marked b)
    (hstart : start ≤ b.offset) (hstop : b.stop ≤ m.size) (has : ∀ a ∈ as, a.stop ≤ b.offset)
    (hcs : ∀ d ∈ cs, b.stop ≤ d.offset) : Charted x start m (as ++ b :: cs) lists := by
  have hmem : ∀ {d}, d ∈ as ++ b :: cs → d = b ∨ d ∈ as ++ cs := by
    intro d hd
    simp only [List.mem_append, List.mem_cons] at hd ⊢
    tauto
  refine ⟨h.heads_le, ?_, fun d hd => ?_, fun d hd => ?_, fun d hd => ?_, fun d hd => ?_,
    h.threaded, fun c hc u hu => ?_⟩
  · have hsorted := h.sorted
    rw [List.pairwise_append] at hsorted ⊢
    refine ⟨hsorted.1, List.pairwise_cons.mpr ⟨hcs, hsorted.2.1⟩, fun a ha d hd => ?_⟩
    rw [List.mem_cons] at hd
    rcases hd with rfl | hd
    · exact has a ha
    · exact hsorted.2.2 a ha d hd
  · exact (hmem hd).elim (fun e => e ▸ hb) (h.proper d)
  · exact (hmem hd).elim (fun e => e ▸ hstart) (h.start_le d)
  · exact (hmem hd).elim (fun e => e ▸ hstop) (h.stop_le d)
  · exact (hmem hd).elim (fun e => e ▸ hm) (h.marked d)
  · obtain ⟨d, hd, hdu, hfree, hclass⟩ := h.listed c hc u hu
    refine ⟨d, ?_, hdu, hfree, hclass⟩
    simp only [List.mem_append, List.mem_cons] at hd ⊢
    tauto

theorem not_mem_of_allocated (h : Charted x start m bs lists) (hb : b ∈ bs)
    (hall : b.tag.allocated = true) (hc : c < x.size) : b.offset ∉ lists c := by
  intro hu
  obtain ⟨a, ha, hab, hfree, -⟩ := h.listed c hc _ hu
  have hap := (h.proper a ha).word_le
  have hbp := (h.proper b hb).word_le
  rcases h.eq_or_apart ha hb with rfl | hle | hle
  · rw [hall] at hfree
    exact absurd hfree.symm Bool.false_ne_true
  · unfold Block.stop at hle
    omega
  · unfold Block.stop at hle
    omega

/-- No node starts in the middle of a block. -/
theorem not_mem_inside (h : Charted x start m bs lists) (hb : b ∈ bs) (hlt : b.offset < u)
    (hstop : u < b.stop) (hc : c < x.size) : u ∉ lists c := by
  intro hu
  obtain ⟨a, ha, rfl, hfree, -⟩ := h.listed c hc u hu
  have hleast := (h.proper a ha).least_le hfree
  rcases h.eq_or_apart ha hb with rfl | hle | hle
  · omega
  · unfold Block.stop at hle
    omega
  · omega

/-- The blocks of a row end inside the memory. -/
theorem tags_le_size {o : Nat} {prev : Bool} {ss : List Span}
    (h : Charted x start m (as ++ Span.tags o prev ss) lists) : o + Span.total ss + 8 ≤ m.size := by
  have hend : Span.epilogue (o + Span.total ss) (Span.lastAllocated prev ss) ∈
      as ++ Span.tags o prev ss := by
    rw [Span.tags]
    simp
  exact h.stop_le _ hend

theorem not_mem_first {o : Nat} {prev : Bool} {ss : List Span}
    (h : Charted x start m (as ++ Span.tags o prev ss) lists) (hnext : Span.nextAllocated ss = true)
    (hc : c < x.size) : o ∉ lists c := by
  obtain ⟨first, rest, ho, hall, htags⟩ := Span.exists_tags_eq o ss
  rw [htags] at h
  have hnot := h.not_mem_of_allocated (List.mem_append_right as List.mem_cons_self)
    (by rw [Block.allocated_withPrev, hall, hnext]) hc
  rwa [Block.offset_withPrev, ho] at hnot

/-! ### Changes of the lists -/

/-- Taking off a node that is on no list changes nothing. -/
theorem without_of_not_mem (h : Charted x start m bs lists) (hu : ∀ c < x.size, u ∉ lists c) :
    Charted x start m bs (without lists u) :=
  h.congr_lists fun c hc => List.erase_of_not_mem (hu c hc)

/-- Changed links of nodes keep all blocks marked. -/
theorem marked_of_links (h : Charted x start m bs lists) (ht : Touches ws m m')
    (hws : ∀ w ∈ ws, x.LinkWord lists w) (hb : b ∈ bs) : m'.Marked b := by
  refine (h.marked b hb).of_touches ht fun i hi w hw => ?_
  obtain ⟨c, hc, u, hu, hwu⟩ := hws w hw
  have := h.links_beside_tags hb hc hu hi
  omega

/-- A listed block can be taken off its list. -/
theorem unlink (h : Charted x start m bs lists) (hc : c < x.size) (hu : u ∈ lists c) :
    ∃ m', FreeIndex.unlink m u = .ok m' ∧ Charted x start m' bs (without lists u) ∧
      Within (x.LinkTo lists m u) m m' := by
  obtain ⟨m', p, n, hm', hthreaded, ⟨hp, hpu⟩, ⟨hn, hun⟩, ht⟩ := h.threaded.unlink hc hu
  have hws : ∀ w ∈ [p + 8, n + 16], x.LinkTo lists m u w := by
    simp only [List.mem_cons, List.not_mem_nil, or_false, forall_eq_or_imp, forall_eq]
    exact ⟨⟨⟨c, hc, p, hp, .inl rfl⟩, hpu.1⟩, ⟨c, hc, n, hn, .inr rfl⟩, hun.2⟩
  refine ⟨m', hm', ⟨h.heads_le, h.sorted, h.proper, h.start_le, ?_, ?_, hthreaded, ?_⟩,
    ht.within hws⟩
  · rw [ht.size_eq]
    exact h.stop_le
  · exact fun b hb => h.marked_of_links ht (fun w hw => (hws w hw).1) hb
  · exact fun d hd v hv => h.listed d hd v (List.mem_of_mem_erase hv)

/-- A block that may be missing is taken off its list. Without it the node is on no list. -/
theorem unlink_optional {size : Option Nat} (h : Charted x start m bs lists)
    (hsome : ∀ n, size = some n → u ∈ lists (x.classify n))
    (hnone : size = none → ∀ c < x.size, u ∉ lists c) :
    ∃ m', (if size.isSome then FreeIndex.unlink m u else .ok m) = .ok m' ∧
      Charted x start m' bs (without lists u) ∧
      Within (fun w => size.isSome = true ∧ x.LinkTo lists m u w) m m' := by
  cases size with
  | none => exact ⟨m, rfl, h.without_of_not_mem (hnone rfl), Within.refl _ m⟩
  | some n =>
    obtain ⟨m', hm', h', hw⟩ := h.unlink (x.classify_lt_size n) (hsome n rfl)
    exact ⟨m', hm', h', hw.mono fun w hw => ⟨rfl, hw⟩⟩

/-- A node lies beside every block that is on no list. -/
theorem beside_unlisted (h : Charted x start m bs lists) (hb : b ∈ bs)
    (hnot : ∀ c < x.size, b.offset ∉ lists c) (hfree : b.tag.allocated = false) (hc : c < x.size)
    (hu : u ∈ x.cycle lists c) : b.offset + 24 ≤ u ∨ u + 24 ≤ b.offset := by
  have hstart := h.start_le b hb
  have hhead := h.head_le hc
  have hleast := (h.proper b hb).least_le hfree
  rw [FreeIndex.cycle, List.mem_cons] at hu
  rcases hu with rfl | hu
  · omega
  · obtain ⟨a, ha, rfl, hafree, -⟩ := h.listed c hc u hu
    have haleast := (h.proper a ha).least_le hafree
    rcases h.eq_or_apart ha hb with rfl | hab | hba
    · exact absurd hu (hnot c hc)
    · unfold Block.stop at hab
      omega
    · unfold Block.stop at hba
      omega

/-- A free block that is on no list can be put on the list of its class. -/
theorem push (h : Charted x start m bs lists) (hb : b ∈ bs) (hfree : b.tag.allocated = false)
    (hnot : ∀ c < x.size, b.offset ∉ lists c) :
    ∃ m', x.push m b.offset = .ok m' ∧
      Charted x start m' bs (pushed lists (x.classify b.tag.size) b.offset) ∧
      Within (fun w => x.LinkTo lists m' b.offset w ∨ w = b.offset + 8 ∨ w = b.offset + 16)
        m m' := by
  have hbp := h.proper b hb
  have hmarked := h.marked b hb
  have hleast := hbp.least_le hfree
  have hstop := h.stop_le b hb
  have hbeside : ∀ c < x.size, ∀ v ∈ x.cycle lists c, b.offset + 24 ≤ v ∨ v + 24 ≤ b.offset :=
    fun c hc v hv => h.beside_unlisted hb hnot hfree hc hv
  obtain ⟨m', n, hm', hthreaded, hhead, ⟨hn, hfirst⟩, ht⟩ := h.threaded.push
    (by rw [hmarked.freeAt hbp, hfree]; rfl) (hmarked.sizeAt hbp)
    (by unfold Block.stop at hstop; omega) hbeside
  have hc := x.classify_lt_size b.tag.size
  -- after the push all four words are links of nodes
  have hws : ∀ w ∈ [b.offset + 16, b.offset + 8, n + 16, x.headAt (x.classify b.tag.size) + 8],
      x.LinkTo lists m' b.offset w ∨ w = b.offset + 8 ∨ w = b.offset + 16 := by
    intro w hw
    simp only [List.mem_cons, List.not_mem_nil, or_false] at hw
    rcases hw with rfl | rfl | rfl | rfl
    · exact .inr (.inr rfl)
    · exact .inr (.inl rfl)
    · exact .inl ⟨⟨_, hc, n, hn, .inr rfl⟩, hfirst.2⟩
    · exact .inl ⟨⟨_, hc, _, FreeIndex.headAt_mem_cycle x lists _, .inl rfl⟩, hhead.1⟩
  refine ⟨m', hm', ⟨h.heads_le, h.sorted, h.proper, h.start_le, ?_, ?_, hthreaded, ?_⟩,
    ht.within hws⟩
  · rw [ht.size_eq]
    exact h.stop_le
  · intro a ha
    refine (h.marked a ha).of_touches ht fun i hi w hw => ?_
    have hin := (h.proper a ha).le_of_mem_tagWords hi
    rcases hws w hw with ⟨⟨d, hd, u, hu, hwu⟩, -⟩ | hwb
    · have := h.links_beside_tags ha hd hu hi
      omega
    · rcases h.eq_or_apart ha hb with rfl | hab | hba
      · simp only [Block.tagWords, hfree, Bool.false_eq_true, if_false, List.mem_cons,
          List.not_mem_nil, or_false, Block.stop] at hi
        omega
      · omega
      · unfold Block.stop at hba
        omega
  · intro d hd u hu
    rw [pushed] at hu
    split at hu <;> rename_i hdc
    · rw [List.mem_cons] at hu
      rcases hu with rfl | hu
      · exact ⟨b, hb, rfl, hfree, hdc.symm⟩
      · exact h.listed d hd u hu
    · exact h.listed d hd u hu

/-! ### Changes of the tags -/

/-- The flag for the block before can be recorded in any block, listed or not. -/
theorem markPrevAllocated (h : Charted x start m (as ++ b :: cs) lists) (prev : Bool) :
    ∃ m', m.markPrevAllocated b.offset prev = .ok m' ∧
      Charted x start m' (as ++ b.withPrev prev :: cs) lists ∧ Touches b.tagWords m m' := by
  have hb : b ∈ as ++ b :: cs := List.mem_append_right as List.mem_cons_self
  have hbp := h.proper b hb
  obtain ⟨m', hm', hmarked, ht⟩ := (h.marked b hb).exists_markPrevAllocated hbp h.addressable
    (h.stop_le b hb) prev
  have hmem : ∀ {d}, d ∈ as ++ b.withPrev prev :: cs → d = b.withPrev prev ∨ d ∈ as ∨ d ∈ cs := by
    intro d hd
    simp only [List.mem_append, List.mem_cons] at hd
    tauto
  have hrest : ∀ {d}, d ∈ as ∨ d ∈ cs → d ∈ as ++ b :: cs := by
    intro d hd
    simp only [List.mem_append, List.mem_cons]
    tauto
  have hsorted := h.sorted
  rw [List.pairwise_append, List.pairwise_cons] at hsorted
  refine ⟨m', hm', ⟨h.heads_le, ?_, fun d hd => ?_, fun d hd => ?_, fun d hd => ?_, fun d hd => ?_,
    ?_, fun c hc u hu => ?_⟩, ht⟩
  · rw [List.pairwise_append, List.pairwise_cons]
    refine ⟨hsorted.1, hsorted.2.1, fun a ha d hd => ?_⟩
    rw [List.mem_cons] at hd
    rcases hd with rfl | hd
    · exact hsorted.2.2 a ha b List.mem_cons_self
    · exact hsorted.2.2 a ha d (List.mem_cons_of_mem b hd)
  · rcases hmem hd with rfl | hd
    · exact hbp.withPrev prev
    · exact h.proper d (hrest hd)
  · rcases hmem hd with rfl | hd
    · exact h.start_le b hb
    · exact h.start_le d (hrest hd)
  · rw [ht.size_eq]
    rcases hmem hd with rfl | hd
    · exact h.stop_le b hb
    · exact h.stop_le d (hrest hd)
  · rcases hmem hd with rfl | hd
    · exact hmarked
    · refine (h.marked d (hrest hd)).of_touches ht fun i hi w hw => ?_
      have hin := (h.proper d (hrest hd)).le_of_mem_tagWords hi
      have hout := hbp.le_of_mem_tagWords hw
      rcases hd with hd | hd
      · have := hsorted.2.2 d hd b List.mem_cons_self
        omega
      · have := hsorted.2.1.1 d hd
        omega
  · refine h.threaded.of_touches ht fun c hc u hu w hw => ?_
    have := h.links_beside_tags hb hc hu hw
    omega
  · obtain ⟨a, ha, hau, hfree, hclass⟩ := h.listed c hc u hu
    simp only [List.mem_append, List.mem_cons] at ha ⊢
    rcases ha with ha | rfl | ha
    · exact ⟨a, .inl ha, hau, hfree, hclass⟩
    · exact ⟨a.withPrev prev, .inr (.inl rfl), hau, hfree, hclass⟩
    · exact ⟨a, .inr (.inr ha), hau, hfree, hclass⟩

/-- The first block of a row, or the epilogue after an empty one, can be told of the block before.
    The words written are its header and, if it is free, its footer. -/
theorem markFirst {o : Nat} {prev : Bool} {ss : List Span}
    (h : Charted x start m (as ++ Span.tags o prev ss) lists) (prev' : Bool) :
    ∃ m', m.markPrevAllocated o prev' = .ok m' ∧
      Charted x start m' (as ++ Span.tags o prev' ss) lists ∧
      Within (fun w => w = o ∨ ∃ n ts, ss = ⟨n, false⟩ :: ts ∧ w = o + n - 8) m m' := by
  cases ss with
  | nil =>
    obtain ⟨m', hm', hchart, ht⟩ := h.markPrevAllocated prev'
    refine ⟨m', hm', hchart, ht.within fun w hw => .inl ?_⟩
    simpa [Block.tagWords, Span.epilogue] using hw
  | cons s ss =>
    rw [Span.tags_cons] at h ⊢
    obtain ⟨m', hm', hchart, ht⟩ := h.markPrevAllocated prev'
    refine ⟨m', hm', hchart, ht.within fun w hw => ?_⟩
    obtain ⟨size, allocated⟩ := s
    cases allocated with
    | true => exact .inl (by simpa [Block.tagWords] using hw)
    | false =>
      simp only [Block.tagWords, Bool.false_eq_true, if_false, List.mem_cons, List.not_mem_nil,
        or_false] at hw
      exact hw.imp_right fun hw => ⟨size, ss, rfl, hw⟩

/-- Words in a gap between blocks can be written. -/
theorem of_touches_gap (h : Charted x start m (as ++ cs) lists) {o n : Nat} (ht : Touches ws m m')
    (hstart : start ≤ o) (has : ∀ a ∈ as, a.stop ≤ o) (hcs : ∀ d ∈ cs, o + n ≤ d.offset)
    (hws : ∀ w ∈ ws, o ≤ w ∧ w + 8 ≤ o + n) : Charted x start m' (as ++ cs) lists := by
  refine h.of_touches ht (fun w hw => hstart.trans (hws w hw).1) fun w hw b hb => ?_
  have hin := hws w hw
  rw [List.mem_append] at hb
  rcases hb with hb | hb
  · exact .inr (.inl ((has b hb).trans hin.1))
  · exact .inl (hin.2.trans (hcs b hb))

/-- A gap can be made a free block. -/
theorem formatFree (h : Charted x start m (as ++ cs) lists) {o n : Nat} {p : Bool}
    (hn : 32 ≤ n) (hmod : n % 8 = 0) (hstart : start ≤ o) (has : ∀ a ∈ as, a.stop ≤ o)
    (hcs : ∀ d ∈ cs, o + n ≤ d.offset) (hsize : o + n ≤ m.size) :
    ∃ m', m.formatFree o n p = .ok m' ∧
      Charted x start m' (as ++ ⟨o, ⟨n, false, p⟩⟩ :: cs) lists ∧
      Touches [o, o + n - 8] m m' := by
  obtain ⟨m', hm', hheader, hfooter, ht⟩ := Memory.exists_formatFree (m := m) (i := o)
    (p := p) h.addressable (by omega) hmod hsize
  have hchart := h.of_touches_gap ht hstart has hcs (by
    simp only [List.mem_cons, List.not_mem_nil, or_false, forall_eq_or_imp, forall_eq]
    omega)
  refine ⟨m', hm', hchart.enter ⟨hmod, ?_, fun _ => hn⟩ ?_ hstart ?_ has hcs, ht⟩
  · show 8 ≤ n
    omega
  · simp only [Memory.Marked, Block.tagWords, Bool.false_eq_true, if_false, List.mem_cons,
      List.not_mem_nil, or_false, forall_eq_or_imp, forall_eq]
    exact ⟨hheader, hfooter⟩
  · rw [ht.size_eq]
    exact hsize

/-- A gap can be made an allocated block. -/
theorem setHeader (h : Charted x start m (as ++ cs) lists) {o n : Nat} {p : Bool}
    (hn : 8 ≤ n) (hmod : n % 8 = 0) (hstart : start ≤ o) (has : ∀ a ∈ as, a.stop ≤ o)
    (hcs : ∀ d ∈ cs, o + n ≤ d.offset) (hsize : o + n ≤ m.size) :
    ∃ m', m.setHeader o (Tag.inUse n p) = .ok m' ∧
      Charted x start m' (as ++ ⟨o, ⟨n, true, p⟩⟩ :: cs) lists ∧ Touches [o] m m' := by
  have hlim := h.addressable
  obtain ⟨m', hm', hheader, ht⟩ := Memory.exists_setHeader (m := m) (i := o)
    (t := Tag.inUse n p) (by omega) (by unfold Tag.inUse; dsimp only; omega)
  have hchart := h.of_touches_gap ht hstart has hcs (by
    rw [List.forall_mem_singleton]
    omega)
  refine ⟨m', hm', hchart.enter ⟨hmod, hn, fun hfalse => ?_⟩ ?_ hstart ?_ has hcs, ht⟩
  · exact absurd hfalse (by simp)
  · simp only [Memory.Marked, Block.tagWords, if_true, List.forall_mem_singleton]
    exact hheader
  · rw [ht.size_eq]
    exact hsize

end Charted

end BoundaryTag
