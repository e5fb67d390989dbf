import BoundaryTag.Proofs.Heap.Unowned
import BoundaryTag.Proofs.Session.Effect

set_option autoImplicit false

/-! # Handles that were given back

Freeing a handle twice is not checked for. It goes by the word that is left where the header was. If
that word does not mislead it, a heap that audits itself does not accept the result
(`Reachable.free_spent`); so it is as long as the block is free and was not merged into one before it
(`Reachable.free_spent_block`). Otherwise the second free may pass unnoticed and take a live block
with it (`free_spent_silent`). -/

open BoundaryTag.Span (total layout tags places)

namespace BoundaryTag.Session

variable {s s' : Session} {P P' : Plan} {p : Handle} {q : Option Handle} {o : Nat} {t : Tag}
  {bs : List Block} {region : Region} {settings : Settings}

/-- What is left of the header of a spent handle is no client's. -/
theorem Sound.unowned (hs : s.Sound P) (hp : p ∈ s.spent) (ho : p.offset = o + 8)
    (ht : s.heap.memory.tagAt o = .ok t) : s.heap.Unowned P o t := by
  obtain ⟨u, hu, hstart, hmod, hroom, hunowned⟩ := hs.spent p hp
  obtain rfl : u = o := by omega
  exact ⟨hs.realizes, hmod, hstart, hroom, hunowned,
    ((s.heap.memory.words_wordAt.tagAt_iff hmod).mp ht).2⟩

/-- Behind a free block comes an allocated one or the last tag. -/
theorem exists_behind {h : Heap} {b : Block} (hr : h.Realizes P)
    (hb : b ∈ layout h.start true P.spans) (hfree : b.tag.allocated = false) :
    ∃ d ∈ tags h.start true P.spans, d.offset = b.offset + b.tag.size ∧ d.tag.allocated = true := by
  obtain ⟨before, after, hspans, hoff, -⟩ := Span.exists_of_mem_layout hb
  have hcoalesced := hr.coalesced
  rw [hspans, hfree] at hcoalesced
  have hafter := (Span.coalesced_append.mp hcoalesced).2.2
  obtain ⟨first, rest, hfirst, hall, htags⟩ :=
    Span.exists_tags_eq (b.offset + b.tag.size) after
  refine ⟨first.withPrev false, ?_, hfirst, ?_⟩
  · have hrow : tags h.start true P.spans = layout h.start true (before ++ [⟨b.tag.size, false⟩]) ++
        tags (b.offset + b.tag.size) false after := by
      rw [hspans, hfree, List.append_cons, Span.tags_append]
      simp [hoff, Nat.add_assoc]
    rw [hrow, htags]
    exact List.mem_append_right _ List.mem_cons_self
  · rw [Block.allocated_withPrev, hall]
    cases after with
    | nil => rfl
    | cons s ss => simpa [Span.Coalesced, Span.nextAllocated] using hafter.1

/-- A block that is free and was not merged into one before it is found to be freed again. -/
theorem Reachable.free_spent_block (hs : Reachable region settings s)
    (hcheck : settings.checkAfter = true) (hp : p ∈ s.spent) (hbs : s.heap.blocks = .ok bs)
    {b : Block} (hb : b ∈ bs) (ho : p.offset = b.offset + 8) (h' : Heap) :
    (s.heap.free (some p)).result ≠ .ok h' := by
  obtain ⟨P, hP⟩ := hs.exists_sound
  have hr := hP.realizes
  cases hr.blocks_eq.symm.trans hbs
  rw [← hs.settings_eq] at hcheck
  have htags : b ∈ tags s.heap.start true P.spans := List.mem_append_left _ hb
  have hfree : b.tag.allocated = false := by
    obtain ⟨u, hu, -, -, -, hunowned⟩ := hP.spent p hp
    by_contra hall
    rw [Bool.not_eq_false] at hall
    exact hunowned b.tag.size (Span.mem_places_iff.mpr ⟨b, hb, hall, by omega, rfl⟩)
  have hplace : (b.offset, b.tag.size) ∈ places false s.heap.start P.spans :=
    Span.mem_places_iff.mpr ⟨b, hb, hfree, rfl, rfl⟩
  have hsize := (hr.place_bounds hplace).2.2.1
  have hprev : b.tag.prevAllocated = true :=
    (hr.coalesced.allocated_or_prev htags).resolve_left (by simp [hfree])
  obtain ⟨d, hd, hoff, hall⟩ := exists_behind hr hb hfree
  refine (hP.unowned hp ho (hr.charted.tagAt htags)).free_ne hcheck ho fun hmisled => ?_
  have h0 : b.tag.size ≠ 0 := by omega
  have hmod := (hr.charted.proper b htags).size_mod
  -- the header says that neither neighbour is free, and its footer is inside the block
  have halone : ∀ {m next prevFree nextFree}, Heap.retagged s.heap.memory b.offset b.tag = .ok m →
      Heap.Neighbours m b.offset next prevFree nextFree → prevFree = false ∧ nextFree = false := by
    intro m next prevFree nextFree hm hn
    obtain ⟨hbefore, u, hu, hbehind⟩ := hn.of_sized hm h0 hmod
    rw [← hoff, hr.charted.tagAt hd] at hu
    cases hu
    rw [hbefore, hbehind, hprev, hall]
    exact ⟨rfl, rfl⟩
  cases hmisled with
  | merged hm hmerges _ =>
    cases hmerges with
    | before hn => cases (halone hm hn).1
    | behind hn => cases (halone hm hn).2
    | both hn => cases (halone hm hn).1
  | struck _ _ _ hblocks hd' heq =>
    cases hr.blocks_eq.symm.trans hblocks
    exact hr.not_inside (List.mem_append_left _ hd') hplace (by omega)

/-- In a reachable session of a heap that audits itself, a handle that was given back and not handed
    out again cannot be freed once more, unless the word left in the place of its header misleads
    the heap. -/
theorem Reachable.free_spent (hs : Reachable region settings s)
    (hcheck : settings.checkAfter = true) (hp : p ∈ s.spent) (ho : p.offset = o + 8)
    (ht : s.heap.memory.tagAt o = .ok t) (hmisled : ¬ s.heap.Misled o t) (h' : Heap) :
    (s.heap.free (some p)).result ≠ .ok h' := by
  obtain ⟨P, hP⟩ := hs.exists_sound
  rw [← hs.settings_eq] at hcheck
  exact (hP.unowned hp ho ht).free_ne hcheck ho hmisled

/-- The second of two blocks is freed twice. It was merged into the first, and both were handed out
    again as one: its header still says that the block before it is free, but no list leads there. -/
theorem Reachable.free_spent_of_run : ∃ s, (start? (Region.empty 4096) {}).bind (fun t => t.run?
      [.allocate 48, .allocate 48, .allocate 16, .free (some ⟨104, by decide⟩),
        .free (some ⟨168, by decide⟩), .allocate 112]) = some s ∧
    ∀ h', (s.heap.free (some ⟨168, by decide⟩)).result ≠ .ok h' := by
  have hrun : ((start? (Region.empty 4096) {}).bind (fun t => t.run?
      [.allocate 48, .allocate 48, .allocate 16, .free (some ⟨104, by decide⟩),
        .free (some ⟨168, by decide⟩), .allocate 112])).map
      (fun s => (decide ((⟨168, by decide⟩ : Handle) ∈ s.spent),
        decide (s.heap.memory.tagAt 160 = .ok ⟨64, false, false⟩),
        match Heap.retagged s.heap.memory 160 ⟨64, false, false⟩ with
        | .ok m => decide (m.size < Word.limit ∧ m.predecessor 160 = .ok 96 ∧
            (FreeIndex.unlink m 96).toOption.isNone)
        | .error _ => false)) = some (true, true, true) := by
    decide +kernel
  obtain ⟨s, hs, heq⟩ := Option.map_eq_some_iff.mp hrun
  simp only [Prod.mk.injEq, decide_eq_true_eq] at heq
  obtain ⟨hspent, htag, hbefore⟩ := heq
  have hreach : Reachable (Region.empty 4096) {} s := reachable_iff.mpr ⟨_, hs⟩
  refine ⟨s, hs, fun h' => Reachable.free_spent hreach rfl hspent rfl htag (fun hmisled => ?_) h'⟩
  cases hmisled with
  | struck _ hprev => cases hprev
  | @merged m hm hmerges _ =>
    rw [hm] at hbefore
    obtain ⟨hlim, hprev, hnone⟩ := of_decide_eq_true hbefore
    have hapart : ∀ {a}, m.predecessor 160 = .ok a → ¬ m.LeadsThrough a := by
      intro a ha hthrough
      cases hprev.symm.trans ha
      obtain ⟨m', hm'⟩ := (FreeIndex.exists_unlink_iff hlim).mpr hthrough
      rw [hm'] at hnone
      cases hnone
    cases hmerges with
    | before _ ha hthrough => exact hapart ha hthrough
    | behind hn => cases (hn.of_sized hm (by decide) (by decide)).1
    | both _ ha hthrough => exact hapart ha hthrough

theorem exists_refree {cs : List Command} {good : Session → Heap → Prop}
    [∀ s h', Decidable (good s h')]
    (hrun : ((start? region {}).bind (fun t => t.run? cs)).map (fun s =>
      match (s.heap.free (some p)).result with
      | .ok h' => decide (p ∈ s.spent ∧ good s h')
      | .error _ => false) = some true) :
    ∃ s h', (start? region {}).bind (fun t => t.run? cs) = some s ∧ p ∈ s.spent ∧
      (s.heap.free (some p)).result = .ok h' ∧ good s h' := by
  obtain ⟨s, hs, heq⟩ := Option.map_eq_some_iff.mp hrun
  split at heq
  · rename_i h' hfree
    obtain ⟨hspent, hgood⟩ := of_decide_eq_true heq
    exact ⟨s, h', hs, hspent, hfree, hgood⟩
  · cases heq

/-- Runs after which a handle is freed a second time and the heap's own audit finds nothing. In the
    first the block was merged into the one before it, which is on its list, and the second free takes
    the live block of another handle. In the others a client has written over the header, in a payload
    of its own: the footer that the header leads to heads a block; or there are forged nodes for the
    block behind, or for those on both sides; or the header has no size, and the link to the next node
    shares bytes with the word that links back. -/
theorem free_spent_silent :
    (∃ s h', (start? (Region.empty 4096) {}).bind (fun t => t.run?
        [.allocate 16, .allocate 16, .allocate 16, .allocate 16, .free (some ⟨104, by decide⟩),
          .free (some ⟨136, by decide⟩)]) = some s ∧
      ⟨136, by decide⟩ ∈ s.spent ∧ (s.heap.free (some ⟨136, by decide⟩)).result = .ok h' ∧
      s.IsLive ⟨168, by decide⟩ ∧
      h'.blocks = .ok [⟨96, ⟨96, false, true⟩⟩, ⟨192, ⟨32, true, false⟩⟩]) ∧
    (∃ s h', (start? (Region.empty 4096) {}).bind (fun t => t.run?
        [.allocate 24, .allocate 72, .allocate 16, .free (some ⟨104, by decide⟩),
          .free (some ⟨144, by decide⟩), .allocate 48, .allocate 48,
          .write ⟨104, by decide⟩ 32 [35], .write ⟨168, by decide⟩ 0 [1],
          .write ⟨168, by decide⟩ 16 [34], .write ⟨168, by decide⟩ 24 [33]]) = some s ∧
      ⟨144, by decide⟩ ∈ s.spent ∧ (s.heap.free (some ⟨144, by decide⟩)).result = .ok h' ∧
      s.heap.memory.tagAt 136 = .ok ⟨32, true, true⟩) ∧
    (∃ s h', (start? (Region.empty 4096) {}).bind (fun t => t.run?
        [.allocate 24, .allocate 136, .allocate 16, .free (some ⟨104, by decide⟩),
          .free (some ⟨144, by decide⟩), .allocate 80, .allocate 80,
          .write ⟨104, by decide⟩ 32 [18], .write ⟨104, by decide⟩ 48 [48],
          .write ⟨104, by decide⟩ 56 [152], .write ⟨104, by decide⟩ 64 [152],
          .write ⟨200, by decide⟩ 0 [1], .write ⟨200, by decide⟩ 48 [66],
          .write ⟨200, by decide⟩ 56 [33]]) = some s ∧
      ⟨144, by decide⟩ ∈ s.spent ∧ (s.heap.free (some ⟨144, by decide⟩)).result = .ok h' ∧
      s.heap.memory.tagAt 136 = .ok ⟨16, false, true⟩) ∧
    (∃ s h', (start? (Region.empty 4096) {}).bind (fun t => t.run?
        [.allocate 24, .allocate 168, .allocate 16, .free (some ⟨104, by decide⟩),
          .free (some ⟨144, by decide⟩), .allocate 80, .allocate 112,
          .write ⟨104, by decide⟩ 0 [34], .write ⟨104, by decide⟩ 8 [104],
          .write ⟨104, by decide⟩ 16 [104], .write ⟨104, by decide⟩ 24 [32],
          .write ⟨104, by decide⟩ 32 [16], .write ⟨104, by decide⟩ 48 [48],
          .write ⟨104, by decide⟩ 56 [152], .write ⟨104, by decide⟩ 64 [152],
          .write ⟨200, by decide⟩ 0 [1], .write ⟨200, by decide⟩ 80 [98],
          .write ⟨200, by decide⟩ 88 [33]]) = some s ∧
      ⟨144, by decide⟩ ∈ s.spent ∧ (s.heap.free (some ⟨144, by decide⟩)).result = .ok h' ∧
      s.heap.memory.tagAt 136 = .ok ⟨16, false, false⟩) ∧
    (∃ s h', (start? ⟨.reserved, 2 ^ 35, .zeroed 0⟩ {}).bind (fun t => t.run?
        [.allocate (2 ^ 32 - 112), .allocate (2 ^ 32 - 8), .free (some ⟨104, by decide⟩),
          .free (some ⟨2 ^ 32 + 8, by decide⟩), .allocate (2 ^ 33 - 104), .allocate 16,
          .allocate (5 * 2 ^ 32 + 48),
          .write ⟨104, by decide⟩ (2 ^ 32 - 104)
            [2, 0, 0, 0, 0, 0, 0, 0, 252, 255, 255, 255, 0, 0, 0, 0, 1, 0, 0, 0, 5],
          .write ⟨2 ^ 33 + 16, by decide⟩ 0 [1],
          .write ⟨2 ^ 33 + 48, by decide⟩ (3 * 2 ^ 32 - 35) [1, 0, 0, 0, 1],
          .write ⟨2 ^ 33 + 48, by decide⟩ (5 * 2 ^ 32 - 8) [34],
          .write ⟨2 ^ 33 + 48, by decide⟩ (5 * 2 ^ 32 + 16) [34, 0, 0, 0, 0, 0, 0, 0, 33]]) =
        some s ∧
      ⟨2 ^ 32 + 8, by decide⟩ ∈ s.spent ∧
      (s.heap.free (some ⟨2 ^ 32 + 8, by decide⟩)).result = .ok h' ∧
      s.heap.memory.tagAt (2 ^ 32) = .ok ⟨0, false, true⟩) ∧
    (∃ s h', (start? ⟨.reserved, 2 ^ 41, .zeroed 0⟩ {}).bind (fun t => t.run?
        [.allocate (2 ^ 24 - 112), .allocate (2 ^ 40 - 2 ^ 24 - 8), .free (some ⟨104, by decide⟩),
          .free (some ⟨2 ^ 24 + 8, by decide⟩), .allocate (2 ^ 40 - 104), .allocate (2 ^ 32 - 16),
          .write ⟨104, by decide⟩ (2 ^ 24 - 104)
            [2, 0, 0, 0, 0, 0, 0, 0, 253, 255, 255, 0, 0, 0, 0, 0, 1, 0, 0, 0, 0, 1],
          .write ⟨2 ^ 40 + 16, by decide⟩ (2 ^ 16 - 5) [1],
          .write ⟨2 ^ 40 + 16, by decide⟩ (2 ^ 24) [1],
          .write ⟨2 ^ 40 + 16, by decide⟩ (2 ^ 32 - 776) [34],
          .write ⟨2 ^ 40 + 16, by decide⟩ (2 ^ 32 - 752) [34, 0, 0, 0, 0, 0, 0, 0, 225, 2]]) =
        some s ∧
      ⟨2 ^ 24 + 8, by decide⟩ ∈ s.spent ∧
      (s.heap.free (some ⟨2 ^ 24 + 8, by decide⟩)).result = .ok h' ∧
      s.heap.memory.tagAt (2 ^ 24) = .ok ⟨0, false, true⟩) :=
  ⟨exists_refree (by decide +kernel), exists_refree (by decide +kernel),
    exists_refree (by decide +kernel), exists_refree (by decide +kernel),
    exists_refree (by decide +kernel), exists_refree (by decide +kernel)⟩

end BoundaryTag.Session
