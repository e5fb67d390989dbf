import BoundaryTag.Proofs.Heap.Check
import BoundaryTag.Proofs.Heap.Refree

set_option autoImplicit false

/-! # A block that is listed once too often

When what lies at an offset is freed, though no allocated block starts there, the offset comes up on
a list as one more node (`Heap.Relists`). The audit finds out: either a header is seen to have been
written over, and then it does not tell the truth about the block before it; or the walk meets the
same blocks as before, and then the lists hold one node more than there are free blocks
(`Relists.check_ne`). -/

open BoundaryTag.Span (total layout tags Coalesced)

namespace BoundaryTag

open Function (update)

/-! ## Rows that are nearly the same -/

namespace Span

variable {o : Nat} {prev : Bool} {ss ss' : List Span} {b : Block}

/-- In a coalesced row a free block tells that the block before it is allocated. -/
theorem Coalesced.allocated_or_prev (h : Coalesced prev ss) (hb : b ∈ tags o prev ss) :
    b.tag.allocated = true ∨ b.tag.prevAllocated = true := by
  induction ss generalizing o prev with
  | nil =>
    rw [tags_nil, List.mem_singleton] at hb
    rw [hb]
    exact .inl rfl
  | cons s ss ih =>
    rw [tags_cons, List.mem_cons] at hb
    rcases hb with rfl | hb
    · exact h.1.symm
    · exact ih h.2 hb

/-- Tags that still make up a row are those of the old row, if each tag that changed says that the
    block before it is free, and did not say so before or belongs to a free block now. -/
theorem eq_of_changed {m : Memory} (hss : ∀ s ∈ ss, s.Proper) (hss' : ∀ s ∈ ss', s.Proper)
    (hcoalesced : Coalesced prev ss') (htotal : total ss' = total ss)
    (hnew : ∀ b ∈ tags o prev ss', m.tagAt b.offset = .ok b.tag)
    (hold : ∀ b ∈ tags o prev ss, ∀ t, m.tagAt b.offset = .ok t → t = b.tag ∨
      (t.prevAllocated = false ∧ (b.tag.prevAllocated = true ∨ t.allocated = false))) :
    ss' = ss := by
  induction ss generalizing o prev ss' with
  | nil =>
    cases ss' with
    | nil => rfl
    | cons s' ss' =>
      have := (hss' s' List.mem_cons_self).1
      rw [total_cons, total_nil] at htotal
      omega
  | cons s ss ih =>
    rw [List.forall_mem_cons] at hss
    rw [tags_cons, List.forall_mem_cons] at hold
    cases ss' with
    | nil =>
      have := hss.1.1
      rw [total_cons, total_nil] at htotal
      omega
    | cons s' ss' =>
      rw [List.forall_mem_cons] at hss'
      rw [tags_cons, List.forall_mem_cons] at hnew
      have hfirst := hold.1 _ hnew.1
      have hs : s' = s := by
        rcases hfirst with heq | ⟨hprev, hflag⟩
        · cases s
          cases s'
          simp only [Tag.mk.injEq] at heq
          simp [heq]
        · dsimp only at hprev hflag
          rw [hprev] at hflag hcoalesced
          simp only [Bool.false_eq_true, false_or] at hflag
          have hfree := hcoalesced.1
          rw [hflag] at hfree
          simp at hfree
      subst hs
      rw [total_cons, total_cons, Nat.add_left_cancel_iff] at htotal
      rw [ih hss.2 hss'.2 hcoalesced.2 htotal hnew.2 hold.2]

end Span

/-- One summand more by one, the others the same. -/
theorem sum_map_eq_succ {l : List Nat} {F G : Nat → Nat} {c : Nat} (hl : l.Nodup) (hc : c ∈ l)
    (hmore : F c = G c + 1) (hsame : ∀ d ∈ l, d ≠ c → F d = G d) :
    (l.map F).sum = (l.map G).sum + 1 := by
  induction l with
  | nil => simp at hc
  | cons d l ih =>
    rw [List.nodup_cons] at hl
    rw [List.forall_mem_cons] at hsame
    rw [List.map_cons, List.map_cons, List.sum_cons, List.sum_cons]
    by_cases hdc : d = c
    · subst hdc
      have hrest : l.map F = l.map G := List.map_congr_left fun e he =>
        hsame.2 e he fun heq => hl.1 (heq ▸ he)
      rw [hrest, hmore]
      omega
    · have hc' : c ∈ l := (List.mem_cons.mp hc).resolve_left (Ne.symm hdc)
      rw [hsame.1 hdc, ih hl.2 hc' hsame.2]
      omega

/-! ## A node too many -/

/-- The node `o` was pushed onto the list of class `e`, between `head` and the node `first` after it.
    Before that the words were `g`, which may differ from those of the heap: below the node they do
    not, a header that differs says that the block before it is free, and a link of a listed node
    that differs leads to no node, or below `o` to the head. -/
structure Heap.Relists (h : Heap) (P : Plan) (g : Nat → Nat) (o e head first : Nat) (m' : Memory) :
    Prop where
  realizes : h.Realizes P
  mod_eq : o % 8 = 0
  start_le : h.start ≤ o
  room : o + 32 ≤ h.start + total P.spans
  class_lt : e < h.index.size
  head_eq : head = h.index.headAt e
  first_eq : first = h.memory.wordAt (head + 8)
  below : ∀ i, i + 8 < o → g i = h.memory.wordAt i
  header : ∀ b ∈ tags h.start true P.spans, Tag.unpack (g b.offset) = b.tag ∨
    ((Tag.unpack (g b.offset)).prevAllocated = false ∧
      (b.tag.prevAllocated = true ∨ (Tag.unpack (g b.offset)).allocated = false))
  link : ∀ c < h.index.size, ∀ u ∈ P.lists c,
    g (u + 8) = h.memory.wordAt (u + 8) ∨ g (u + 8) % 8 ≠ 0 ∨ (u < o ∧ g (u + 8) = head)
  words : m'.Words h.memory.size (relinked g o head)

namespace Heap

variable {h : Heap} {P : Plan} {g : Nat → Nat} {o i c e u head first : Nat} {m' : Memory}
  {b : Block}

namespace Realizes

theorem wordAt_eq (hr : h.Realizes P) (hb : b ∈ tags h.start true P.spans) :
    h.memory.wordAt b.offset = b.tag.pack := by
  have hread := (hr.charted.marked b hb).header
  exact (Memory.readWord_eq_ok_iff.mp hread).2

/-- Nodes and heads are aligned. -/
theorem mod_of_mem_cycle (hr : h.Realizes P) (hc : c < h.index.size)
    (hu : u ∈ h.index.cycle P.lists c) : u % 8 = 0 := by
  rcases List.mem_cons.mp hu with rfl | hu
  · have := hr.base_mod
    unfold FreeIndex.headAt
    omega
  · obtain ⟨k, hk, -⟩ := (hr.mem_lists_iff hc).mp hu
    exact hr.mod_of_place hk

/-- No block starts inside another one. -/
theorem not_inside (hr : h.Realizes P) (hb : b ∈ tags h.start true P.spans) {a : Bool} {k : Nat}
    (hu : (u, k) ∈ Span.places a h.start P.spans) : ¬ (u < b.offset ∧ b.offset < u + k) := by
  obtain ⟨d, hd, -, rfl, rfl⟩ := (Span.mem_places_iff (p := true)).mp hu
  have hword := (hr.charted.proper b hb).word_le
  rcases hr.charted.eq_or_apart (List.mem_append_left _ hd) hb with rfl | hle | hle
  · omega
  · unfold Block.stop at hle
    omega
  · unfold Block.stop at hle
    omega

/-- The node after a head is the first one of its list, or the head again. -/
theorem head?_eq (hr : h.Realizes P) (hc : c < h.index.size) :
    (P.lists c ++ [h.index.headAt c]).head? = some (h.memory.wordAt (h.index.headAt c + 8)) := by
  obtain ⟨v, hv, hnext⟩ := (hr.charted.threaded.circular hc).exists_first
  have hmod := hr.mod_of_mem_cycle hc (h.index.headAt_mem_cycle P.lists c)
  rw [hv, ((h.memory.words_wordAt.nextLink_iff hmod hr.charted.addressable).mp hnext).2]

theorem mod_of_first (hr : h.Realizes P) (hc : c < h.index.size) :
    h.memory.wordAt (h.index.headAt c + 8) % 8 = 0 := by
  refine hr.mod_of_mem_cycle hc ?_
  have hmem := List.mem_of_mem_head? (Option.mem_def.mpr (hr.head?_eq hc))
  rwa [FreeIndex.cycle, List.mem_cons, or_comm, ← List.mem_singleton, ← List.mem_append]

end Realizes

namespace Relists

variable (hl : h.Relists P g o e head first m')

include hl

theorem head_le : head + 24 ≤ o := by
  have hle := hl.realizes.charted.head_le hl.class_lt
  have hstart := hl.start_le
  rw [hl.head_eq]
  omega

theorem head_mod : head % 8 = 0 := by
  rw [hl.head_eq]
  exact hl.realizes.mod_of_mem_cycle hl.class_lt
    (h.index.headAt_mem_cycle _ _)

theorem first_mem : (P.lists e ++ [head]).head? = some first := by
  rw [hl.first_eq, hl.head_eq]
  exact hl.realizes.head?_eq hl.class_lt

theorem first_cases : first = head ∨ first ∈ P.lists e := by
  have hmem := List.mem_of_mem_head? (Option.mem_def.mpr hl.first_mem)
  rw [List.mem_append, List.mem_singleton] at hmem
  exact hmem.symm

/-- What stands at an offset after the push. -/
theorem word_eq (hi : i % 8 = 0) (hle : i + 8 ≤ h.memory.size) : m'.readWord i = .ok (
    if i = head + 8 then o
    else if i = first + 16 then o
    else if i = o + 8 then first
    else if i = o + 16 then head
    else g i) := by
  have hhead := hl.head_le
  have hfirst : g (head + 8) = first := by
    rw [hl.first_eq, hl.below _ (by omega)]
  rw [hl.words.readWord_eq i hi hle, relinked, hfirst]
  simp only [Function.update_apply]

/-! ### The walk -/

theorem first_mod : first % 8 = 0 := by
  rw [hl.first_eq, hl.head_eq]
  exact hl.realizes.mod_of_first hl.class_lt

/-- No header is a link of a node that was there. -/
theorem header_ne (hb : b ∈ tags h.start true P.spans) :
    b.offset ≠ head + 8 ∧ b.offset ≠ first + 16 := by
  have hr := hl.realizes
  have hstart := (Span.le_of_mem_tags hb).1
  have hheads := hr.charted.head_le hl.class_lt
  rw [← hl.head_eq] at hheads
  refine ⟨by omega, fun heq => ?_⟩
  rcases hl.first_cases with rfl | hmem
  · omega
  · obtain ⟨k, hk, -⟩ := (hr.mem_lists_iff hl.class_lt).mp hmem
    have := (hr.place_bounds hk).2.2.1
    exact hr.not_inside hb hk (by omega)

/-- The headers of the row after the push. -/
theorem header_eq (hb : b ∈ tags h.start true P.spans) : m'.readWord b.offset = .ok (
    if b.offset = o + 8 then first
    else if b.offset = o + 16 then head
    else g b.offset) := by
  have hr := hl.realizes
  have hroom : b.offset + 8 ≤ h.memory.size := by
    have hstop := hr.charted.stop_le b hb
    have hword := (hr.charted.proper b hb).word_le
    unfold Block.stop at hstop
    omega
  obtain ⟨hhead, hfirst⟩ := hl.header_ne hb
  rw [hl.word_eq (hr.mod_of_mem_tags hb) hroom, if_neg hhead, if_neg hfirst]

/-- Of the headers of the row some may be written over, but then they say that the block before them
    is free, and either they did not say so before or now claim to be free themselves. -/
theorem header_cases (hb : b ∈ tags h.start true P.spans) {w : Tag}
    (hw : m'.tagAt b.offset = .ok w) : w = b.tag ∨ (w.prevAllocated = false ∧
      (b.tag.prevAllocated = true ∨ w.allocated = false)) := by
  have hlink : ∀ v, v % 8 = 0 →
      (Tag.unpack v).prevAllocated = false ∧ (Tag.unpack v).allocated = false := by
    intro v hv
    simp only [Tag.unpack, beq_eq_false_iff_ne]
    omega
  obtain ⟨v, hv, rfl⟩ := Memory.tagAt_eq_ok_iff.mp hw
  rw [hl.header_eq hb, Except.ok.injEq] at hv
  subst hv
  split
  · exact .inr ((hlink first hl.first_mod).imp_right .inr)
  split
  · exact .inr ((hlink head hl.head_mod).imp_right .inr)
  · exact hl.header b hb

/-- A header that is seen as it was is not the next link of the pushed block. -/
theorem offset_ne (hb : b ∈ tags h.start true P.spans) (htag : m'.tagAt b.offset = .ok b.tag) :
    b.offset ≠ o + 8 := by
  intro heq
  have hword := hl.header_eq hb
  rw [if_pos heq] at hword
  obtain ⟨w, hw, hb'⟩ := Memory.tagAt_eq_ok_iff.mp htag
  cases hword.symm.trans hw
  have hmod := hl.first_mod
  have hflags := hl.realizes.coalesced.allocated_or_prev hb
  rw [← hb'] at hflags
  simp only [Tag.unpack, beq_iff_eq] at hflags
  omega

/-! ### The lists -/

/-- The pushed block links back to the head, unless the link was written over when it was its own
    neighbour. -/
theorem prior_self {p : Nat} (hp : m'.priorLink o = .ok p) : p = if first = o then o else head := by
  have hhead := hl.head_le
  have hroom := hl.room
  have hsize := hl.realizes.size_eq
  have hlim := hl.realizes.charted.addressable
  have hmod := hl.mod_eq
  rw [Memory.priorLink_eq (by omega), hl.word_eq (by omega) (by omega), Except.ok.injEq] at hp
  rw [← hp, if_neg (by omega)]
  by_cases hfirst : first = o
  · rw [if_pos hfirst, if_pos (by omega)]
  · rw [if_neg hfirst, if_neg (by omega), if_neg (by omega), if_pos rfl]

/-- From the pushed block the list goes on with the node that was first, unless that link was
    written over because it was the prior link of that node. -/
theorem next_self {v : Nat} (hv : m'.nextLink o = .ok v) :
    v = if first + 8 = o then o else first := by
  have hhead := hl.head_le
  have hroom := hl.room
  have hsize := hl.realizes.size_eq
  have hlim := hl.realizes.charted.addressable
  have hmod := hl.mod_eq
  rw [Memory.nextLink_eq (by omega), hl.word_eq (by omega) (by omega), Except.ok.injEq] at hv
  rw [← hv, if_neg (by omega)]
  by_cases hfirst : first + 8 = o
  · rw [if_pos hfirst, if_pos (by omega)]
  · rw [if_neg hfirst, if_neg (by omega), if_pos rfl]

/-- A node that was on a list still links to the same one, or to none that could be a node, or to the
    head. -/
theorem next_cases (hc : c < h.index.size) (hu : u ∈ P.lists c) (hne : u ≠ o) (hno : u ≠ o + 8)
    {v w : Nat} (hv : h.memory.nextLink u = .ok v) (hw : m'.nextLink u = .ok w) :
    w = v ∨ w % 8 ≠ 0 ∨ (u < o ∧ w = head) := by
  have hr := hl.realizes
  obtain ⟨k, hk, -⟩ := (hr.mem_lists_iff hc).mp hu
  obtain ⟨b, hb, -, rfl, rfl⟩ := (Span.mem_places_iff (p := true)).mp hk
  have hbounds := hr.place_bounds hk
  have hsize := hr.size_eq
  have hlim := hr.charted.addressable
  have hmod := hr.mod_of_place hk
  have hheads := hr.charted.head_le hl.class_lt
  rw [← hl.head_eq] at hheads
  have hnode : b.offset + 8 ≠ first + 16 := by
    intro heq
    rcases hl.first_cases with rfl | hmem
    · omega
    · obtain ⟨j, hj, -⟩ := (hr.mem_lists_iff hl.class_lt).mp hmem
      have := (hr.place_bounds hj).2.2.1
      exact hr.not_inside (List.mem_append_left _ hb) hj (by omega)
  have hread := (h.memory.words_wordAt.nextLink_iff hmod hlim).mp hv
  rw [Memory.nextLink_eq (by omega), hl.word_eq (by omega) (by omega), Except.ok.injEq] at hw
  rw [if_neg (by omega), if_neg hnode, if_neg (by omega), if_neg (by omega)] at hw
  rw [← hw, ← hread.2]
  exact hl.link c hc b.offset hu

/-- If the head links back to a node below the pushed block, then that is the last one. -/
theorem next_of_return (hc : c < h.index.size) (hu : u ∈ P.lists c) (hlt : u < o)
    (hhead : head = h.index.headAt c) (hback : m'.priorLink (h.index.headAt c) = .ok u) :
    h.memory.nextLink u = .ok (h.index.headAt c) := by
  have hr := hl.realizes
  have hcycle := FreeIndex.mem_cycle_of_mem h.index hu
  obtain ⟨k, hk, -⟩ := (hr.mem_lists_iff hc).mp hu
  have hbounds := hr.place_bounds hk
  have hsize := hr.size_eq
  have hlim := hr.charted.addressable
  have hle := hr.charted.head_le hc
  have hmod := hl.head_mod
  rw [← hhead] at hback hle ⊢
  rw [Memory.priorLink_eq (by omega), hl.word_eq (by omega) (by omega), if_neg (by omega),
    Except.ok.injEq] at hback
  have hfirst : first ≠ head := by
    rintro rfl
    rw [if_pos rfl] at hback
    omega
  rw [if_neg (by omega), if_neg (by omega), if_neg (by omega), hl.below _ (by omega)] at hback
  -- two nodes before the head are the same
  obtain ⟨-, v, -, hlast⟩ := (hr.charted.threaded.ring c hc).exists_linked
    (h.index.headAt_mem_cycle P.lists c)
  have hprior := Memory.wordAt_of_readWord hlast.2
  rw [← hhead, hback] at hprior
  obtain rfl : u = v := hprior
  rw [Memory.nextLink_eq (by omega), hlast.1, hhead]

/-- A course that goes on from a node goes on with the node that was behind it. -/
theorem next_of_course (hc : c < h.index.size) (hu : u ∈ P.lists c) (hne : u ≠ o)
    (hno : u ≠ o + 8) {v next : Nat} {nodes : List Nat} (hv : h.memory.nextLink u = .ok v)
    (hnext : m'.nextLink u = .ok next)
    (hcourse : (h.withMemory m').audit.Course c (h.index.headAt c) u next nodes) : next = v := by
  have hr := hl.realizes
  rcases hl.next_cases hc hu hne hno hv hnext with heq | hmod | ⟨hlt, rfl⟩
  · exact heq
  · -- what a course goes on to is a node or the head
    refine absurd ?_ hmod
    cases nodes with
    | nil =>
      rw [hcourse.1]
      exact hr.mod_of_mem_cycle hc (h.index.headAt_mem_cycle _ _)
    | cons x nodes =>
      rw [hcourse.1]
      exact hcourse.2.2.1.mod_eq
  · -- no head is a node, so the course ends, and there the head links back
    cases nodes with
    | nil =>
      have hlast := hl.next_of_return hc hu hlt hcourse.1 hcourse.2
      exact hcourse.1.trans (Except.ok.inj (hlast.symm.trans hv))
    | cons x nodes =>
      have hle := hr.charted.head_le hl.class_lt
      rw [← hl.head_eq, hcourse.1] at hle
      have hstart : h.start ≤ x := hcourse.2.2.1.start_le
      omega

/-- Behind a node that is not the pushed one's neighbour, a course meets what was there before. -/
theorem course_eq (hc : c < h.index.size) (hno : ∀ b ∈ tags h.start true P.spans, b.offset ≠ o + 8)
    (hfirst : first ≠ o) {prior cursor : Nat} {us nodes : List Nat}
    (hchain : (us ++ [h.index.headAt c]).IsChain fun u v => h.memory.nextLink u = .ok v)
    (hcursor : (us ++ [h.index.headAt c]).head? = some cursor) (hsub : us ⊆ P.lists c)
    (hprior : prior ≠ head)
    (hcourse : (h.withMemory m').audit.Course c (h.index.headAt c) prior cursor nodes) :
    nodes = us := by
  have hr := hl.realizes
  induction us generalizing prior cursor nodes with
  | nil =>
    simp only [List.nil_append, List.head?_cons, Option.some.injEq] at hcursor
    cases nodes with
    | nil => rfl
    | cons v nodes => exact absurd (hcourse.1.symm.trans hcursor.symm) hcourse.2.1
  | cons u us ih =>
    simp only [List.cons_append, List.head?_cons, Option.some.injEq] at hcursor
    subst hcursor
    have hu : u ∈ P.lists c := hsub List.mem_cons_self
    have hhead : u ≠ h.index.headAt c := by
      rintro rfl
      exact (List.nodup_cons.mp (hr.charted.threaded.nodup c hc)).1 hu
    cases nodes with
    | nil => exact absurd hcourse.1 hhead
    | cons v nodes =>
      obtain ⟨rfl, -, hsound, next, hnext, hrest⟩ := hcourse
      have hne : u ≠ o := by
        rintro rfl
        have hback := hl.prior_self hsound.prior_eq
        rw [if_neg hfirst] at hback
        exact hprior hback
      have hlower : u ≠ head := by
        rintro rfl
        have hle := hl.realizes.charted.head_le hl.class_lt
        rw [← hl.head_eq] at hle
        have hstart : h.start ≤ u := hsound.start_le
        omega
      obtain ⟨k, hk, -⟩ := (hr.mem_lists_iff hc).mp hu
      obtain ⟨b, hb, -, hoff, -⟩ := (Span.mem_places_iff (p := true)).mp hk
      have hno8 : u ≠ o + 8 := hoff ▸ hno b (List.mem_append_left _ hb)
      rw [List.cons_append, List.isChain_cons] at hchain
      obtain ⟨w, hw⟩ := Memory.exists_head?_concat us (h.index.headAt c)
      obtain rfl := hl.next_of_course hc hu hne hno8 (hchain.1 w hw) hnext hrest
      rw [ih hchain.2 hw (fun x hx => hsub (List.mem_cons_of_mem u hx)) hlower hrest]

/-- The list onto which the block was pushed has it in front, if the audit accepts the list. -/
theorem pushed_eq (hno : ∀ b ∈ tags h.start true P.spans, b.offset ≠ o + 8) {nodes : List Nat}
    (hlist : (h.withMemory m').audit.Lists e nodes) :
    nodes = o :: P.lists e ∧ first ≠ o := by
  have hc := hl.class_lt
  have hhead := hl.head_le
  have hroom := hl.room
  have hsize := hl.realizes.size_eq
  have hlim := hl.realizes.charted.addressable
  have hmod := hl.head_mod
  obtain ⟨head', first', hhead', hfirst', hcourse, -⟩ := hlist
  obtain ⟨rfl, -⟩ := FreeIndex.head_eq_ok_iff.mp hhead'
  change (h.withMemory m').audit.Course _ (h.index.headAt e)
    (h.index.headAt e) first' nodes at hcourse
  change m'.nextLink (h.index.headAt e) = .ok first' at hfirst'
  rw [← hl.head_eq] at hcourse hfirst'
  rw [Memory.nextLink_eq (by omega), hl.word_eq (by omega) (by omega), if_pos rfl,
    Except.ok.injEq] at hfirst'
  subst hfirst'
  cases nodes with
  | nil =>
    have : o = head := hcourse.1
    omega
  | cons v nodes =>
    obtain ⟨rfl, -, hsound, next, hnext, hrest⟩ := hcourse
    have hfirst : first ≠ o := by
      intro heq
      have hback := hl.prior_self hsound.prior_eq
      rw [if_pos heq] at hback
      omega
    refine ⟨?_, hfirst⟩
    -- were the block its own neighbour, it would have to link back to itself
    have hself : first + 8 ≠ o := by
      intro heq
      have hloop := hl.next_self hnext
      rw [if_pos heq] at hloop
      subst hloop
      cases nodes with
      | nil =>
        have : next = head := hrest.1
        omega
      | cons x nodes =>
        obtain ⟨rfl, -, hsound', -⟩ := hrest
        have hback := hl.prior_self hsound'.prior_eq
        rw [if_neg hfirst] at hback
        omega
    have hthen := hl.next_self hnext
    rw [if_neg hself] at hthen
    subst hthen
    rw [hl.head_eq] at hrest
    have hchain := (hl.realizes.charted.threaded.circular hc).isChain_nextLink
    have hcursor := hl.first_mem
    rw [hl.head_eq] at hcursor
    rw [hl.course_eq hc hno hfirst hchain hcursor (fun _ hu => hu) (by omega) hrest]

/-- The other lists are what they were, if the audit accepts them. -/
theorem others_eq (hno : ∀ b ∈ tags h.start true P.spans, b.offset ≠ o + 8) (hfirst : first ≠ o)
    (hc : c < h.index.size) (hne : c ≠ e) {nodes : List Nat}
    (hlist : (h.withMemory m').audit.Lists c nodes) : nodes = P.lists c := by
  have hr := hl.realizes
  have hhead := hl.head_le
  have hroom := hl.room
  have hsize := hr.size_eq
  have hlim := hr.charted.addressable
  have hle := hr.charted.head_le hc
  have hstart := hl.start_le
  have hmod := hr.mod_of_mem_cycle hc (h.index.headAt_mem_cycle P.lists c)
  have hapart : h.index.headAt c ≠ head ∧ h.index.headAt c ≠ first + 8 := by
    refine ⟨?_, ?_⟩
    · rw [hl.head_eq]
      unfold FreeIndex.headAt
      omega
    · rcases hl.first_cases with rfl | hmem
      · rw [hl.head_eq]
        unfold FreeIndex.headAt
        omega
      · obtain ⟨k, hk, -⟩ := (hr.mem_lists_iff hl.class_lt).mp hmem
        have := (hr.place_bounds hk).1
        omega
  obtain ⟨head', first', hhead', hfirst', hcourse, -⟩ := hlist
  obtain ⟨rfl, -⟩ := FreeIndex.head_eq_ok_iff.mp hhead'
  change (h.withMemory m').audit.Course _ (h.index.headAt c) (h.index.headAt c) first' nodes
    at hcourse
  change m'.nextLink (h.index.headAt c) = .ok first' at hfirst'
  have hcircular := hr.charted.threaded.circular hc
  obtain ⟨v, hv, hnext⟩ := hcircular.exists_first
  have hread := (h.memory.words_wordAt.nextLink_iff hmod hlim).mp hnext
  rw [Memory.nextLink_eq (by omega), hl.word_eq (by omega) (by omega), if_neg (by omega),
    if_neg (by omega), if_neg (by omega), if_neg (by omega), hl.below _ (by omega), hread.2,
    Except.ok.injEq] at hfirst'
  subst hfirst'
  exact hl.course_eq hc hno hfirst hcircular.isChain_nextLink hv (fun _ hu => hu) hapart.1 hcourse

/-- The audit does not accept the heap. -/
theorem check_ne : (h.withMemory m').check ≠ .ok (.ok ()) := by
  intro hcheck
  have hr := hl.realizes
  have hlim : m'.size < Word.limit := by
    rw [hl.words.size_eq]
    exact hr.charted.addressable
  obtain ⟨lists', ss, hlists, ⟨hproper, hcoalesced, htotal, hshows⟩, hcount⟩ :=
    (Audit.inspect_eq_ok_iff hlim).mp (Audit.run_eq_sound_iff.mp hcheck)
  change h.start + total ss = m'.size - 8 at htotal
  change ∀ b ∈ tags h.start true ss, m'.Shows b at hshows
  have hsize := hr.size_eq
  rw [hl.words.size_eq] at htotal
  -- the walk meets the blocks that were there
  have hspans : ss = P.spans :=
    Span.eq_of_changed hr.proper hproper hcoalesced (by omega) (fun b hb => (hshows b hb).tagAt_eq)
      fun b hb _ => hl.header_cases hb
  subst hspans
  have hno : ∀ b ∈ tags h.start true P.spans, b.offset ≠ o + 8 := fun b hb =>
    hl.offset_ne hb (hshows b hb).tagAt_eq
  -- but the lists hold one node more
  have hc := hl.class_lt
  obtain ⟨hpushed, hfirst⟩ := hl.pushed_eq hno (hlists _ hc)
  have hsum := sum_map_eq_succ (F := fun c => (lists' c).length) (G := fun c => (P.lists c).length)
    List.nodup_range (List.mem_range.mpr hc) (by rw [hpushed]; rfl) fun c hc' hne => by
      rw [hl.others_eq hno hfirst (List.mem_range.mp hc') hne (hlists c (List.mem_range.mp hc'))]
  have hall := hr.sum_length_eq
  change ((List.range h.index.size).map fun c => (lists' c).length).sum = _ at hcount
  omega

end Relists

end Heap

end BoundaryTag
