import BoundaryTag.Proofs.Coalesced
import BoundaryTag.Proofs.Session.Noninterference
import BoundaryTag.Proofs.Session.Payload

set_option autoImplicit false

/-! # Giving back many handles

Whatever the order in which handles are given back, their blocks are no longer allocated in the end,
and everything else about a heap but the order of its lists follows from where the allocated blocks
lie (`Heap.Realizes.sameLayout`). So the order does not matter (`Reachable.frees_commute`), and
when all handles have been given back one free block is left. -/

open BoundaryTag.Span (total places)

namespace BoundaryTag

namespace Heap

variable {h h' : Heap} {P P' : Plan} {p : Handle} {m m' : Memory} {o k : Nat}

/-- The heaps have the same blocks and as many bytes, and their lists hold the same blocks, each in
    an order of its own. -/
structure SameLayout (h h' : Heap) : Prop where
  start_eq : h'.start = h.start
  index_eq : h'.index = h.index
  size_eq : h'.memory.size = h.memory.size
  blocks : ∃ bs, h.blocks = .ok bs ∧ h'.blocks = .ok bs
  lists : ∀ c < h.index.size, ∃ us vs, h.index.members h.memory c = .ok us ∧
    h'.index.members h'.memory c = .ok vs ∧ us.Perm vs

/-- Heaps of one size with the same allocated blocks have the same rows. -/
theorem Realizes.spans_eq_of_places (hr : (h.withMemory m).Realizes P)
    (hr' : (h.withMemory m').Realizes P') (hsize : m'.size = m.size)
    (hplaces : places true h.start P'.spans = places true h.start P.spans) : P'.spans = P.spans := by
  refine Span.eq_of_places_eq hr'.proper hr.proper hr'.coalesced hr.coalesced ?_ hplaces
  have htotal := hr.size_eq
  have htotal' := hr'.size_eq
  simp only [start_withMemory, memory_withMemory] at htotal htotal'
  omega

theorem Realizes.sameLayout (hr : (h.withMemory m).Realizes P)
    (hr' : (h.withMemory m').Realizes P') (hsize : m'.size = m.size)
    (hplaces : places true h.start P'.spans = places true h.start P.spans) :
    (h.withMemory m).SameLayout (h.withMemory m') := by
  have hspans := hr.spans_eq_of_places hr' hsize hplaces
  refine ⟨rfl, rfl, hsize, ⟨_, hr.blocks_eq, ?_⟩, fun c hc => ?_⟩
  · rw [hr'.blocks_eq, hspans]
    rfl
  · -- a list has the free blocks of its class, whatever their order, and these follow from the row
    refine ⟨_, _, hr.charted.threaded.members_eq hc, hr'.charted.threaded.members_eq hc, ?_⟩
    refine (List.perm_ext_iff_of_nodup (hr.nodup_lists hc) (hr'.nodup_lists hc)).mpr fun u => ?_
    rw [hr.mem_lists_iff hc, hr'.mem_lists_iff hc, hspans]
    rfl

/-- Taking a block leaves the other ones where they are. -/
theorem Takes.places_eq_filter (hr : h.Realizes P) (ht : h.Takes P o k m P') :
    Span.places true h.start P'.spans =
      (Span.places true h.start P.spans).filter (·.1 ≠ o) := by
  obtain ⟨before, after, hbefore, hafter⟩ := ht.places
  have hnodup : ((Span.places true h.start P.spans).map Prod.fst).Nodup :=
    Span.nodup_places hr.proper
  rw [hbefore, List.map_append, List.map_cons, List.nodup_middle, List.nodup_cons,
    List.mem_append] at hnodup
  have hother : ∀ {us : List (Nat × Nat)}, o ∉ us.map Prod.fst → us.filter (·.1 ≠ o) = us := by
    intro us hus
    refine List.filter_eq_self.mpr fun u hu => ?_
    rw [decide_eq_true_iff]
    rintro rfl
    exact hus (List.mem_map_of_mem hu)
  rw [hafter, hbefore, List.filter_append, List.filter_cons_of_neg (by simp),
    hother fun hmem => hnodup.1 (.inl hmem), hother fun hmem => hnodup.1 (.inr hmem)]

/-- Freeing an allocated block takes it, and the memory stays as large as it was. -/
theorem exists_free_of_size (hr : h.Realizes P) (hp : p.offset = o + 8)
    (hk : (o, k) ∈ places true h.start P.spans) : ∃ m' P', (h.free (some p)).result =
      .ok (h.withMemory m') ∧ h.Takes P o k m' P' ∧ m'.size = h.memory.size := by
  obtain ⟨m', P', hres, ht⟩ := exists_free hr hp hk
  obtain ⟨before, left, right, after, hP, ho, hlast, hnext⟩ := hr.exists_neighbours hk
  obtain ⟨m, hres', -, hw⟩ := free_eq (p := p) hr hP rfl (by omega) hlast hnext
  obtain rfl := withMemory_injective (Except.ok.inj (hres.symm.trans hres'))
  exact ⟨m', P', hres, ht, hw.size_eq⟩

end Heap

namespace Session

variable {region : Region} {settings : Settings} {s t u : Session} {P P' P'' : Plan}
  {p q : Handle} {ps qs : List Handle}

/-- What is left of a session when handles were given back: their blocks are not allocated any more,
    and all other live handles have what they had. -/
structure GivesBack (s : Session) (P : Plan) (ps : List Handle) (t : Session) (P' : Plan) :
    Prop where
  sound : t.Sound P'
  heap_eq : t.heap = s.heap.withMemory t.heap.memory
  size_eq : t.heap.memory.size = s.heap.memory.size
  places_eq : places true s.heap.start P'.spans =
    (places true s.heap.start P.spans).filter fun u => ∀ p ∈ ps, p.offset ≠ u.1 + 8
  live_eq : t.live = s.live.filter fun e => e.1 ∉ ps
  payload_eq : ∀ q, s.IsLive q → q ∉ ps → t.heap.payload q = s.heap.payload q

namespace GivesBack

theorem refl (hs : s.Sound P) : s.GivesBack P [] s P := by
  refine ⟨hs, rfl, rfl, ?_, ?_, fun _ _ _ => rfl⟩
  · simp
  · simp

theorem start_eq (hg : s.GivesBack P ps t P') : t.heap.start = s.heap.start := by
  rw [hg.heap_eq]
  rfl

theorem isLive_iff (hg : s.GivesBack P ps t P') : t.IsLive q ↔ s.IsLive q ∧ q ∉ ps := by
  unfold IsLive
  rw [hg.live_eq]
  simp

theorem cons (hg : s.GivesBack P [p] t P') (hrest : t.GivesBack P' ps u P'') :
    s.GivesBack P (p :: ps) u P'' := by
  have hstart := hg.start_eq
  refine ⟨hrest.sound, ?_, hrest.size_eq.trans hg.size_eq, ?_, ?_, fun q hq hnot => ?_⟩
  · rw [hrest.heap_eq, hg.heap_eq]
    rfl
  · rw [← hstart, hrest.places_eq, hstart, hg.places_eq, List.filter_filter]
    refine List.filter_congr fun v _ => ?_
    simp [Bool.and_comm]
  · rw [hrest.live_eq, hg.live_eq, List.filter_filter]
    refine List.filter_congr fun e _ => ?_
    simp [Bool.and_comm]
  · rw [List.mem_cons, not_or] at hnot
    have hqp : q ∉ [p] := fun hmem => hnot.1 (List.mem_singleton.mp hmem)
    rw [hrest.payload_eq q (hg.isLive_iff.mpr ⟨hq, hqp⟩) hnot.2, hg.payload_eq q hq hqp]

end GivesBack

/-- A live handle can be given back. -/
theorem Sound.exists_free (hs : s.Sound P) (hp : s.IsLive p) :
    ∃ t P', s.exec (.free (some p)) = .ok t ∧ s.GivesBack P [p] t P' := by
  obtain ⟨o, k, ho, hk⟩ := hs.place_of_live hp
  obtain ⟨m', P', hres, ht, hsize⟩ := Heap.exists_free_of_size hs.realizes ho hk
  refine ⟨(s.retire (some p)).withHeap (s.heap.withMemory m'), P', ?_, hs.retire ho hk ht, rfl,
    hsize, ?_, ?_, fun q hq hqp => ?_⟩
  · rw [exec, hres]
    rfl
  · rw [ht.places_eq_filter hs.realizes]
    refine List.filter_congr fun v _ => decide_eq_decide.mpr ?_
    rw [List.forall_mem_singleton]
    omega
  · refine List.filter_congr fun e _ => ?_
    simp
  · -- another handle's block is another block, and taking this one leaves its bytes alone
    obtain ⟨v, j, hv, hj⟩ := hs.place_of_live hq
    have hne : v ≠ o := by
      rintro rfl
      exact hqp (List.mem_singleton.mpr (handle_ext (by omega)))
    have hj' : (v, j) ∈ places true (s.heap.withMemory m').start P'.spans :=
      (ht.mem_places_iff hs.realizes).mpr ⟨hne, hj⟩
    have hafter : (s.heap.withMemory m').payload q = .ok (m'.load (v + 8) (j - 8)) :=
      ht.realizes.payload_eq hv hj'
    rw [hs.realizes.payload_eq hv hj, ← ht.load_eq hs.realizes hk hj hne]
    exact hafter

/-- Handles that are live can be given back one after the other. -/
theorem Sound.exists_frees (hs : s.Sound P) (hlive : ∀ p ∈ ps, s.IsLive p) (hnodup : ps.Nodup) :
    ∃ t P', s.run? (ps.map fun p => .free (some p)) = some t ∧ s.GivesBack P ps t P' := by
  induction ps generalizing s P with
  | nil => exact ⟨s, P, rfl, .refl hs⟩
  | cons p ps ih =>
    rw [List.forall_mem_cons] at hlive
    rw [List.nodup_cons] at hnodup
    obtain ⟨t, P', hexec, hg⟩ := hs.exists_free hlive.1
    have hlive' : ∀ q ∈ ps, t.IsLive q := by
      intro q hq
      refine hg.isLive_iff.mpr ⟨hlive.2 q hq, ?_⟩
      rintro hmem
      exact hnodup.1 (List.mem_singleton.mp hmem ▸ hq)
    obtain ⟨u, P'', hrun, hrest⟩ := ih hg.sound hlive' hnodup.2
    have hpermits : s.Permits (.free (some p)) := by
      rintro q hq
      cases hq
      exact hlive.1
    exact ⟨u, P'', run?_cons.mpr ⟨hpermits, t, hexec, hrun⟩, hg.cons hrest⟩

/-- When all handles have been given back, one free block is left, or nothing. -/
theorem GivesBack.blocks_eq (hg : s.GivesBack P ps t P')
    (hall : ∀ p, s.IsLive p → p ∈ ps) : t.heap.blocks =
      .ok (if t.heap.memory.size - 8 = t.heap.start then []
        else [⟨t.heap.start, Tag.free (t.heap.memory.size - 8 - t.heap.start) true⟩]) := by
  have hr := hg.sound.realizes
  have hempty : places true t.heap.start P'.spans = [] := by
    refine List.eq_nil_iff_forall_not_mem.mpr fun ⟨o, k⟩ hk => ?_
    obtain ⟨p, hp, -⟩ := hg.sound.owned o k hk
    obtain ⟨hlive, hnot⟩ := hg.isLive_iff.mp hp
    exact hnot (hall p hlive)
  have hsize := hr.size_eq
  have htotal : t.heap.memory.size - 8 - t.heap.start = total P'.spans := by omega
  rw [hr.blocks_eq, Span.eq_of_places_eq_nil hr.proper hr.coalesced hempty, htotal]
  by_cases h0 : total P'.spans = 0
  · rw [if_pos h0, if_pos (by omega)]
    rfl
  · rw [if_neg h0, if_neg (by omega)]
    rfl

/-- Handles can be given back in any order: the heap has the same blocks after it, as many bytes, and
    the same blocks on each list, and the handles that are still live have the bytes that they had.
    If none is live any more, the whole heap is one free block, unless it has no blocks at all. -/
theorem Reachable.frees_commute (hs : Reachable region settings s) (hlive : ∀ p ∈ ps, s.IsLive p)
    (hnodup : ps.Nodup) (hperm : ps.Perm qs) :
    ∃ t u, s.run? (ps.map fun p => .free (some p)) = some t ∧
      s.run? (qs.map fun p => .free (some p)) = some u ∧
      t.heap.SameLayout u.heap ∧ t.live = u.live ∧
      (∀ q, t.IsLive q ↔ s.IsLive q ∧ q ∉ ps) ∧
      (∀ q, t.IsLive q → ∃ bytes, s.heap.payload q = .ok bytes ∧ t.heap.payload q = .ok bytes ∧
        u.heap.payload q = .ok bytes) ∧
      ((∀ p, s.IsLive p → p ∈ ps) → t.heap.blocks =
        .ok (if t.heap.memory.size - 8 = t.heap.start then []
          else [⟨t.heap.start, Tag.free (t.heap.memory.size - 8 - t.heap.start) true⟩])) := by
  obtain ⟨P, hP⟩ := hs.exists_sound
  obtain ⟨t, P', hrun, ht⟩ := hP.exists_frees hlive hnodup
  have hlive' : ∀ q ∈ qs, s.IsLive q := fun q hq => hlive q (hperm.mem_iff.mpr hq)
  obtain ⟨u, P'', hrun', hu⟩ := hP.exists_frees hlive' (hperm.nodup_iff.mp hnodup)
  have hplaces : places true s.heap.start P''.spans = places true s.heap.start P'.spans := by
    rw [ht.places_eq, hu.places_eq]
    refine List.filter_congr fun v _ => decide_eq_decide.mpr ?_
    simp only [hperm.mem_iff]
  have hlayout := Heap.Realizes.sameLayout (ht.heap_eq ▸ ht.sound.realizes)
    (hu.heap_eq ▸ hu.sound.realizes) (hu.size_eq.trans ht.size_eq.symm) hplaces
  rw [← ht.heap_eq, ← hu.heap_eq] at hlayout
  refine ⟨t, u, hrun, hrun', hlayout, ?_, fun q => ht.isLive_iff, fun q hq => ?_,
    ht.blocks_eq⟩
  · rw [ht.live_eq, hu.live_eq]
    refine List.filter_congr fun e _ => decide_eq_decide.mpr ?_
    rw [hperm.mem_iff]
  · obtain ⟨hq, hnot⟩ := ht.isLive_iff.mp hq
    obtain ⟨o, k, ho, hk⟩ := hP.place_of_live hq
    refine ⟨_, hP.realizes.payload_eq ho hk, ?_, ?_⟩
    · rw [ht.payload_eq q hq hnot, hP.realizes.payload_eq ho hk]
    · rw [hu.payload_eq q hq (fun hmem => hnot (hperm.mem_iff.mpr hmem)),
        hP.realizes.payload_eq ho hk]

/-- Three blocks side by side: the first two are freed in both orders, and then all three. -/
theorem Reachable.frees_commute_of_run : ∃ s, (start? (Region.empty 4096) {}).bind (fun t => t.run?
      [.allocate 16, .allocate 200, .allocate 40, .write ⟨352, by decide⟩ 8 [1, 2, 3]]) = some s ∧
    (∃ t u, s.run? [.free (some ⟨104, by decide⟩), .free (some ⟨136, by decide⟩)] = some t ∧
      s.run? [.free (some ⟨136, by decide⟩), .free (some ⟨104, by decide⟩)] = some u ∧
      t.heap.SameLayout u.heap ∧ ∃ bytes, s.heap.payload ⟨352, by decide⟩ = .ok bytes ∧
        t.heap.payload ⟨352, by decide⟩ = .ok bytes ∧
        u.heap.payload ⟨352, by decide⟩ = .ok bytes) ∧
    ∃ t u, s.run? [.free (some ⟨104, by decide⟩), .free (some ⟨352, by decide⟩),
        .free (some ⟨136, by decide⟩)] = some t ∧
      s.run? [.free (some ⟨136, by decide⟩), .free (some ⟨104, by decide⟩),
        .free (some ⟨352, by decide⟩)] = some u ∧
      t.heap.SameLayout u.heap ∧ t.heap.blocks =
        .ok (if t.heap.memory.size - 8 = t.heap.start then []
          else [⟨t.heap.start, Tag.free (t.heap.memory.size - 8 - t.heap.start) true⟩]) := by
  have hrun : ((start? (Region.empty 4096) {}).bind (fun t => t.run?
      [.allocate 16, .allocate 200, .allocate 40, .write ⟨352, by decide⟩ 8 [1, 2, 3]])).map
      (fun s => s.live.map fun e => e.1.offset) = some [352, 136, 104] := by
    decide +kernel
  obtain ⟨s, hs, hoffsets⟩ := Option.map_eq_some_iff.mp hrun
  have hlive : ∀ p, s.IsLive p ↔
      p ∈ [(⟨104, by decide⟩ : Handle), ⟨352, by decide⟩, ⟨136, by decide⟩] := by
    intro p
    have hmem : s.IsLive p ↔ p.offset ∈ s.live.map fun e => e.1.offset := by
      rw [List.mem_map]
      constructor
      · rintro ⟨n, hn⟩
        exact ⟨(p, n), hn, rfl⟩
      · rintro ⟨⟨q, n⟩, hn, hoff⟩
        exact ⟨n, handle_ext hoff ▸ hn⟩
    rw [hmem, hoffsets]
    obtain ⟨o, ho⟩ := p
    simp only [List.mem_cons, List.not_mem_nil, or_false, Handle.mk.injEq]
    omega
  have hreach : Reachable (Region.empty 4096) {} s := reachable_iff.mpr ⟨_, hs⟩
  have htwo : ∀ p ∈ [(⟨104, by decide⟩ : Handle), ⟨136, by decide⟩], s.IsLive p :=
    fun p hp => (hlive p).mpr (by revert p; decide)
  have hthree : ∀ p ∈ [(⟨104, by decide⟩ : Handle), ⟨352, by decide⟩, ⟨136, by decide⟩],
      s.IsLive p := fun p => (hlive p).mpr
  have hswap : [(⟨104, by decide⟩ : Handle), ⟨136, by decide⟩].Perm
      [⟨136, by decide⟩, ⟨104, by decide⟩] := by decide
  have hturn : [(⟨104, by decide⟩ : Handle), ⟨352, by decide⟩, ⟨136, by decide⟩].Perm
      [⟨136, by decide⟩, ⟨104, by decide⟩, ⟨352, by decide⟩] := by decide
  obtain ⟨t, u, ht, hu, hlayout, -, hleft, hbytes, -⟩ :=
    Reachable.frees_commute hreach htwo (by decide) hswap
  obtain ⟨t', u', ht', hu', hlayout', -, -, -, hall⟩ :=
    Reachable.frees_commute hreach hthree (by decide) hturn
  exact ⟨s, hs, ⟨t, u, ht, hu, hlayout,
    hbytes _ ((hleft _).mpr ⟨(hlive _).mpr (by decide), by decide⟩)⟩,
    t', u', ht', hu', hlayout', hall fun p => (hlive p).mp⟩

end Session

end BoundaryTag
