import BoundaryTag.Proofs.Coalesced
import BoundaryTag.Proofs.Heap.Payload
import BoundaryTag.Proofs.Heap.Reports
import BoundaryTag.Proofs.Heap.Reuse
import BoundaryTag.Proofs.Session.Effect

set_option autoImplicit false

/-! # Accounts

The census walks over the blocks by address, the listing of free blocks follows the lists, and a
request searches the lists for a block that fits. In every reachable session the three agree with
each other and with what the client knows (`Reachable.accounts`). The places of a row, allocated or
free, are what they have in common: the census is the places counted and added up, the listing is
the free places in another order (`freeEntries_perm`), and the live handles are the allocated places
(`Sound.live_perm`). -/

open BoundaryTag.Span (total layout places)

namespace BoundaryTag

/-! ## Counts over places -/

namespace Span

variable {o : Nat} {p : Bool} {ss : List Span} {a : Bool}

theorem bytes_eq_sum : bytes a ss = ((places a o ss).map Prod.snd).sum := by
  induction ss generalizing o with
  | nil => rfl
  | cons s ss ih =>
    rw [bytes]
    by_cases hs : s.allocated = a
    · rw [if_pos hs, places_cons_self hs, List.map_cons, List.sum_cons, ih (o := o + s.size)]
    · rw [if_neg hs, places_cons_of_ne hs, Nat.zero_add, ih (o := o + s.size)]

theorem countP_allocated_eq : ss.countP (·.allocated) = (places true o ss).length := by
  induction ss generalizing o with
  | nil => rfl
  | cons s ss ih =>
    by_cases hs : s.allocated = true
    · rw [List.countP_cons_of_pos hs, places_cons_self hs, List.length_cons, ih (o := o + s.size)]
    · rw [List.countP_cons_of_neg hs, places_cons_of_ne hs, ih (o := o + s.size)]

theorem largestFree_eq_foldr :
    largestFree ss = ((places false o ss).map Prod.snd).foldr max 0 := by
  induction ss generalizing o with
  | nil => rfl
  | cons s ss ih =>
    rw [largestFree]
    cases hs : s.allocated with
    | true =>
      rw [if_pos rfl, places_cons_of_ne (by simp [hs]), ih (o := o + s.size)]
    | false =>
      rw [if_neg Bool.false_ne_true, places_cons_self hs, List.map_cons, List.foldr_cons,
        ih (o := o + s.size)]

/-- The free blocks of a layout lie in the free places. -/
theorem filter_layout_map {α : Type} (f : Nat × Nat → α) :
    ((layout o p ss).filter (!·.tag.allocated)).map (fun b => f (b.offset, b.tag.size)) =
      (places false o ss).map f := by
  induction ss generalizing o p with
  | nil => rfl
  | cons s ss ih =>
    rw [layout_cons]
    cases hs : s.allocated with
    | true =>
      rw [List.filter_cons_of_neg (by simp), places_cons_of_ne (by simp [hs]), ih]
    | false =>
      rw [List.filter_cons_of_pos (by simp), places_cons_self hs, List.map_cons, List.map_cons, ih]

end Span

/-- A number is at most the largest of a list, which is not empty, exactly if it is at most some
    member. -/
theorem le_foldr_max_iff {n : Nat} {ks : List Nat} :
    n ≤ ks.foldr max 0 ∧ ks ≠ [] ↔ ∃ k ∈ ks, n ≤ k := by
  induction ks with
  | nil => simp
  | cons k ks ih =>
    rw [List.foldr_cons, List.exists_mem_cons_iff, ← ih]
    cases ks with
    | nil => simp
    | cons j ks =>
      simp only [List.foldr_cons, ne_eq, reduceCtorEq, not_false_eq_true, and_true]
      omega

/-! ## The listing -/

/-- A free block as the listing shows it. -/
def FreeEntry.ofBlock (x : FreeIndex) (b : Block) : FreeEntry :=
  ⟨b.offset, b.tag.size, x.classify b.tag.size⟩

namespace Heap.Realizes

variable {h : Heap} {P : Plan}

/-- The blocks of the lists, class by class. -/
def entries (h : Heap) (P : Plan) : List FreeEntry :=
  (List.range h.index.size).flatMap fun k => (P.lists k).map fun u =>
    ⟨u, Span.sizeFrom h.start P.spans u, k⟩

theorem mem_entries_iff (hr : h.Realizes P) {e : FreeEntry} : e ∈ entries h P ↔
    (e.offset, e.size) ∈ places false h.start P.spans ∧ e.sizeClass = h.index.classify e.size := by
  rw [entries, List.mem_flatMap]
  constructor
  · rintro ⟨c, hc, he⟩
    obtain ⟨u, hu, rfl⟩ := List.mem_map.mp he
    obtain ⟨k, hk, rfl⟩ := (hr.mem_lists_iff (List.mem_range.mp hc)).mp hu
    rw [Span.sizeFrom_place hr.proper hk]
    exact ⟨hk, rfl⟩
  · rintro ⟨hk, hclass⟩
    have hc := h.index.classify_lt_size e.size
    refine ⟨h.index.classify e.size, List.mem_range.mpr hc, List.mem_map.mpr ⟨e.offset,
      (hr.mem_lists_iff hc).mpr ⟨_, hk, rfl⟩, ?_⟩⟩
    rw [Span.sizeFrom_place hr.proper hk, ← hclass]

theorem nodup_entries (hr : h.Realizes P) : (entries h P).Nodup := by
  refine List.nodup_flatMap.mpr ⟨fun c hc => ?_, List.nodup_range.imp fun hne => ?_⟩
  · refine (hr.nodup_lists (List.mem_range.mp hc)).map fun u v huv => ?_
    exact congrArg FreeEntry.offset huv
  · intro e he he'
    obtain ⟨u, -, rfl⟩ := List.mem_map.mp he
    obtain ⟨v, -, heq⟩ := List.mem_map.mp he'
    exact hne (congrArg FreeEntry.sizeClass heq).symm

/-- The listing has each free block of the heap once. -/
theorem freeEntries_perm (hr : h.Realizes P) : (entries h P).Perm
    (((layout h.start true P.spans).filter (!·.tag.allocated)).map (.ofBlock h.index)) := by
  have hmap : ((layout h.start true P.spans).filter (!·.tag.allocated)).map
      (FreeEntry.ofBlock h.index) =
        (places false h.start P.spans).map fun u => ⟨u.1, u.2, h.index.classify u.2⟩ :=
    Span.filter_layout_map fun u => (⟨u.1, u.2, h.index.classify u.2⟩ : FreeEntry)
  have hnodup : ((places false h.start P.spans).map Prod.fst).Nodup := Span.nodup_places hr.proper
  rw [hmap]
  refine (List.perm_ext_iff_of_nodup hr.nodup_entries ?_).mpr fun e => ?_
  · refine (List.Nodup.of_map _ hnodup).map fun u v huv => ?_
    exact Prod.ext (congrArg FreeEntry.offset huv) (congrArg FreeEntry.size huv)
  · rw [hr.mem_entries_iff, List.mem_map]
    constructor
    · rintro ⟨hk, hclass⟩
      refine ⟨_, hk, ?_⟩
      rw [← hclass]
    · rintro ⟨u, hu, rfl⟩
      exact ⟨hu, rfl⟩

/-- The listing shows the sizes of the free places. -/
theorem sizes_perm (hr : h.Realizes P) :
    ((entries h P).map (·.size)).Perm ((places false h.start P.spans).map Prod.snd) := by
  have hperm := hr.freeEntries_perm.map (·.size)
  rw [List.map_map] at hperm
  rwa [← Span.filter_layout_map (p := true) Prod.snd]

theorem pairwise_entries (h : Heap) (P : Plan) :
    (entries h P).Pairwise (·.sizeClass ≤ ·.sizeClass) := by
  refine List.pairwise_flatMap.mpr ⟨fun c _ => ?_, List.pairwise_lt_range.imp fun hlt => ?_⟩
  · rw [List.pairwise_map]
    exact List.pairwise_of_forall fun _ _ => Nat.le_refl c
  · intro e he e' he'
    obtain ⟨u, -, rfl⟩ := List.mem_map.mp he
    obtain ⟨v, -, rfl⟩ := List.mem_map.mp he'
    exact Nat.le_of_lt hlt

end Heap.Realizes

/-! ## Sessions -/

namespace Session

variable {region : Region} {settings : Settings} {s : Session} {P : Plan} {t : Nat}

/-- The handles of the session, the census of its heap, the listing of its free blocks and the
    requests that the heap serves without growing agree. -/
structure Accounts (s : Session) (c : Census) (es : List FreeEntry) : Prop where
  arena : c.arenaBytes = s.heap.memory.size
  total : s.heap.memory.size = s.heap.start + c.allocatedBytes + c.freeBytes + 8
  /-- Each live handle has one allocated block. -/
  live : (s.live.map Prod.fst).Nodup ∧ c.allocatedBlocks = s.live.length
  usable : ∃ ns, s.live.mapM (fun e => s.heap.usableSize e.1) = .ok ns ∧
    c.allocatedBytes = (ns.map (· + 8)).sum
  /-- The free blocks that a walk by address meets are listed once each. -/
  listed : ∃ bs, s.heap.blocks = .ok bs ∧
    es.Perm ((bs.filter (!·.tag.allocated)).map (.ofBlock s.heap.index))
  distinct : (es.map (·.offset)).Nodup
  ascending : es.Pairwise (·.sizeClass ≤ ·.sizeClass)
  freeBlocks : c.freeBlocks = es.length
  freeBytes : c.freeBytes = (es.map (·.size)).sum
  largestFree : c.largestFree = (es.map (·.size)).foldr max 0
  /-- The free blocks decide whether the memory grows. -/
  reuse : ∀ size needed, size ≠ 0 → Request.blockSize size = .ok (some needed) →
    ((∃ p h', (s.heap.allocate size).result = .ok (.ok (some p), h') ∧
      h'.memory.size = s.heap.memory.size) ↔ needed ≤ c.largestFree ∧ es ≠ [])

/-- The place of a live handle, with the size that the row gives it. -/
def placeOf (s : Session) (P : Plan) (e : Handle × Nat) : Nat × Nat :=
  (e.1.offset - 8, Span.sizeFrom s.heap.start P.spans (e.1.offset - 8))

namespace Sound

theorem placeOf_eq (hs : s.Sound P) {e : Handle × Nat} (he : e ∈ s.live) :
    ∃ o k, e.1.offset = o + 8 ∧ (o, k) ∈ places true s.heap.start P.spans ∧
      s.placeOf P e = (o, k) := by
  obtain ⟨o, k, ho, hk⟩ := hs.place_of_live ⟨e.2, he⟩
  refine ⟨o, k, ho, hk, ?_⟩
  rw [placeOf, ho, Nat.add_sub_cancel, Span.sizeFrom_place hs.realizes.proper hk]

/-- The live handles are the allocated places. -/
theorem live_perm (hs : s.Sound P) :
    (s.live.map (s.placeOf P)).Perm (places true s.heap.start P.spans) := by
  have hplaces : ((places true s.heap.start P.spans).map Prod.fst).Nodup :=
    Span.nodup_places hs.realizes.proper
  refine (List.perm_ext_iff_of_nodup ?_ (List.Nodup.of_map _ hplaces)).mpr fun u => ?_
  · -- distinct handles have distinct offsets, and so distinct places
    refine List.Nodup.of_map (fun u => u.1 + 8) ?_
    have hoffsets : (s.live.map (s.placeOf P)).map (fun u => u.1 + 8) =
        (s.live.map Prod.fst).map Handle.offset := by
      rw [List.map_map, List.map_map]
      refine List.map_congr_left fun e he => ?_
      obtain ⟨o, k, ho, -, heq⟩ := hs.placeOf_eq he
      simp [heq, ho]
    rw [hoffsets]
    exact hs.nodup.map fun p q hpq => handle_ext hpq
  · rw [List.mem_map]
    constructor
    · rintro ⟨e, he, rfl⟩
      obtain ⟨o, k, -, hk, heq⟩ := hs.placeOf_eq he
      rwa [heq]
    · -- the owner's place starts where this one does, and places do not overlap
      intro hu
      obtain ⟨p, ⟨n, hp⟩, ho⟩ := hs.owned u.1 u.2 hu
      obtain ⟨o, k, ho', hk, heq⟩ := hs.placeOf_eq hp
      obtain rfl : o = u.1 := Nat.add_right_cancel (ho'.symm.trans ho)
      refine ⟨_, hp, heq.trans ?_⟩
      rcases hs.realizes.places_apart hk hu with ⟨-, rfl, -⟩ | hle | hle
      · rfl
      · have := hs.realizes.place_bounds hk
        omega
      · have := hs.realizes.place_bounds hu
        omega

theorem usable_eq (hs : s.Sound P) : s.live.mapM (fun e => s.heap.usableSize e.1) =
    .ok (s.live.map fun e => (s.placeOf P e).2 - 8) := by
  refine mapM_eq_ok fun e he => ?_
  obtain ⟨o, k, ho, hk, heq⟩ := hs.placeOf_eq he
  rw [hs.realizes.usableSize_eq ho hk, heq]

theorem sum_usable_eq (hs : s.Sound P) :
    ((s.live.map fun e => (s.placeOf P e).2 - 8).map (· + 8)).sum =
      Span.bytes true P.spans := by
  rw [Span.bytes_eq_sum (o := s.heap.start), ← (hs.live_perm.map Prod.snd).sum_nat, List.map_map,
    List.map_map]
  refine congrArg List.sum (List.map_congr_left fun e he => ?_)
  obtain ⟨o, k, -, hk, heq⟩ := hs.placeOf_eq he
  have hbounds := hs.realizes.place_bounds hk
  simp only [Function.comp_apply, heq]
  omega

theorem accounts_ofSpans (hs : s.Sound P) (ht : s.heap.settings.splitThreshold = .ok t) :
    s.Accounts (.ofSpans s.heap.memory.size P.spans) (Heap.Realizes.entries s.heap P) := by
  have hr := hs.realizes
  have hsizes := hr.sizes_perm
  have hlargest : Span.largestFree P.spans =
      ((Heap.Realizes.entries s.heap P).map (·.size)).foldr max 0 := by
    rw [Span.largestFree_eq_foldr (o := s.heap.start), hsizes.foldr_eq]
  refine ⟨rfl, ?_, ⟨hs.nodup, ?_⟩, ⟨_, hs.usable_eq, hs.sum_usable_eq.symm⟩,
    ⟨_, hr.blocks_eq, hr.freeEntries_perm⟩, ?_, Heap.Realizes.pairwise_entries _ _, ?_, ?_,
    hlargest, fun size needed h0 hb => ?_⟩
  · have hsize := hr.size_eq
    have hbytes := Span.bytes_add_bytes P.spans
    simp only [Census.ofSpans]
    omega
  · have hlength := hs.live_perm.length_eq
    rw [List.length_map] at hlength
    rw [hlength]
    exact Span.countP_allocated_eq
  · have hperm := hr.freeEntries_perm.map (·.offset)
    rw [List.map_map] at hperm
    rw [hperm.nodup_iff]
    have hfree : ((layout s.heap.start true P.spans).filter (!·.tag.allocated)).map
        (fun b => b.offset) = (places false s.heap.start P.spans).map Prod.fst :=
      Span.filter_layout_map Prod.fst
    exact hfree ▸ Span.nodup_places hr.proper
  · have hlength := hsizes.length_eq
    rw [List.length_map, List.length_map] at hlength
    rw [hlength]
    exact Span.length_places_false.symm
  · rw [hsizes.sum_nat]
    exact Span.bytes_eq_sum
  · have hmap : Heap.Realizes.entries s.heap P ≠ [] ↔
        (Heap.Realizes.entries s.heap P).map (·.size) ≠ [] := by
      rw [ne_eq, ne_eq, List.map_eq_nil_iff]
    rw [hr.reuses_iff ht h0 hb, hmap]
    simp only [Census.ofSpans]
    rw [hlargest, le_foldr_max_iff]
    simp only [hsizes.mem_iff]
    constructor
    · rintro ⟨u, k, hk, hle⟩
      exact ⟨k, List.mem_map.mpr ⟨_, hk, rfl⟩, hle⟩
    · rintro ⟨k, hk, hle⟩
      obtain ⟨u, hu, rfl⟩ := List.mem_map.mp hk
      exact ⟨u.1, u.2, hu, hle⟩

end Sound

/-- In every reachable session of a heap whose split threshold is a word, the census and the listing
    of free blocks have answers, which agree with each other, with the live handles and with what
    an allocation does. -/
theorem Reachable.accounts (hs : Reachable region settings s)
    (hthreshold : settings.splitThreshold = .ok t) :
    ∃ c es, s.heap.census = .ok c ∧ s.heap.freeEntries = .ok es ∧ s.Accounts c es := by
  obtain ⟨P, hP⟩ := hs.exists_sound
  rw [← hs.settings_eq] at hthreshold
  exact ⟨_, _, hP.realizes.census_eq, hP.realizes.freeEntries_eq, hP.accounts_ofSpans hthreshold⟩

/-- A heap with two allocated blocks and two free ones, in different classes. -/
theorem Reachable.accounts_of_run : ∃ s c es,
    (start? (Region.empty 4096) {}).bind (fun t => t.run?
      [.allocate 16, .allocate 300, .allocate 40, .allocate 16, .allocate 24,
        .free (some ⟨136, by decide⟩), .free (some ⟨512, by decide⟩)]) = some s ∧
    s.heap.census = .ok c ∧ s.heap.freeEntries = .ok es ∧ s.Accounts c es ∧
    c.allocatedBlocks = 3 ∧ c.largestFree = 320 := by
  have hrun : ((start? (Region.empty 4096) {}).bind (fun t => t.run?
      [.allocate 16, .allocate 300, .allocate 40, .allocate 16, .allocate 24,
        .free (some ⟨136, by decide⟩), .free (some ⟨512, by decide⟩)])).map
      (fun s => s.heap.census.toOption.map fun c => (c.allocatedBlocks, c.largestFree)) =
        some (some (3, 320)) := by
    decide +kernel
  obtain ⟨s, hs, heq⟩ := Option.map_eq_some_iff.mp hrun
  have hreach : Reachable (Region.empty 4096) {} s := reachable_iff.mpr ⟨_, hs⟩
  obtain ⟨c, es, hcensus, hentries, haccounts⟩ := Reachable.accounts hreach (t := 56) rfl
  rw [hcensus] at heq
  simp only [Except.toOption, Option.map_some, Option.some.injEq, Prod.mk.injEq] at heq
  exact ⟨s, c, es, hs, hcensus, hentries, haccounts, heq.1, heq.2⟩

end Session

end BoundaryTag
