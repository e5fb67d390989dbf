import BoundaryTag.Proofs.FreeIndex.Complete
import BoundaryTag.Proofs.Heap.Shown
import BoundaryTag.Proofs.Session.Accounts

set_option autoImplicit false

/-! # First fit

An allocation goes by the listing of the free blocks: the first entry that is large enough is taken
off its list and cut, and without one the heap grows at its end by just the new block
(`Reachable.allocates_firstFit`). The search starts at the class of the needed size, but no block
of a lower class is large enough, so it finds what a search of the whole listing finds
(`Realizes.find?_entries`). -/

open BoundaryTag.Span (total places)

namespace BoundaryTag

open FreeIndex (without)

namespace Heap

variable {h : Heap} {P : Plan} {e : FreeEntry} {t size needed : Nat}

/-- How the heap answers a request of `size` bytes, which needs a block of `needed`, if it shows the
    plan `P`, lists the free blocks `es`, and splits off more than `t` bytes. -/
structure ServesFirstFit (h : Heap) (P : Plan) (es : List FreeEntry) (t size needed : Nat) :
    Prop where
  /-- The first entry that is large enough serves the request, and the memory does not grow. -/
  reuse : ∀ e, es.find? (needed ≤ ·.size) = some e → ∃ before after p m,
    P.spans = before ++ ⟨e.size, false⟩ :: after ∧ h.start + total before = e.offset ∧
      (h.allocate size).result = .ok (.ok (some p), h.withMemory m) ∧ p.offset = e.offset + 8 ∧
      m.size = h.memory.size ∧
      (h.withMemory m).ShowsCut before after (without P.lists e.offset) t e.offset e.size needed
  /-- A new block takes the place of the epilogue, and no list changes. -/
  grow : es.find? (needed ≤ ·.size) = none → h.memory.size + needed ≤ h.region.limit →
    h.region.backing.holds (h.memory.size + needed) = true → ∃ p m,
      (h.allocate size).result = .ok (.ok (some p), h.withMemory m) ∧
        p.offset = h.start + total P.spans + 8 ∧ m.size = h.memory.size + needed ∧
        (h.withMemory m).Shows ⟨P.spans ++ [⟨needed, true⟩], P.lists⟩
  refuse : es.find? (needed ≤ ·.size) = none → h.region.limit < h.memory.size + needed →
    (h.allocate size).result = .ok (.error (.outOfMemory needed h.memory.size h.region.limit), h)
  /-- The limit allows for the new block, but there is no storage for it. -/
  overflow : es.find? (needed ≤ ·.size) = none → h.memory.size + needed ≤ h.region.limit →
    h.region.backing.holds (h.memory.size + needed) = false →
    (h.allocate size).result = .error .storageTooLarge

namespace Realizes

/-- Searching the listing of all free blocks finds what the heap finds. -/
theorem find?_entries (hr : h.Realizes P) :
    ((entries h P).find? (needed ≤ ·.size)).map (·.offset) =
      h.index.firstOf P.lists (Span.sizeFrom h.start P.spans) needed := by
  have hlt := h.index.classify_lt_size needed
  have hrange : List.range h.index.size = List.range (h.index.classify needed) ++
      List.range' (0 + h.index.classify needed) (h.index.size - h.index.classify needed) := by
    rw [List.range_eq_range', List.range_eq_range', List.range'_append_1]
    congr 1
    omega
  have hlow : (List.range (h.index.classify needed)).findSome? (fun c =>
      (P.lists c).find? (needed ≤ Span.sizeFrom h.start P.spans ·)) = none := by
    refine List.findSome?_eq_none_iff.mpr fun c hc => List.find?_eq_none.mpr fun u hu => ?_
    have := hr.filed.lt_of_lower_class (List.mem_range.mp hc) hu
    simpa using this
  calc ((entries h P).find? (needed ≤ ·.size)).map (·.offset)
      = (List.range h.index.size).findSome? (fun c =>
          (P.lists c).find? (needed ≤ Span.sizeFrom h.start P.spans ·)) := by
        rw [entries, List.find?_flatMap, List.map_findSome?]
        congr 1
        funext c
        simp [List.find?_map, Function.comp_def]
    _ = h.index.firstOf P.lists (Span.sizeFrom h.start P.spans) needed := by
        rw [hrange, List.findSome?_append, hlow, Option.none_or, Nat.zero_add]
        rfl

/-- The entry that is found is a free span that is large enough. -/
theorem exists_of_find?_entries (hr : h.Realizes P)
    (he : (entries h P).find? (needed ≤ ·.size) = some e) :
    h.index.firstOf P.lists (Span.sizeFrom h.start P.spans) needed = some e.offset ∧
      ∃ before after, P.spans = before ++ ([⟨e.size, false⟩] ++ after) ∧
        h.start + total before = e.offset ∧ needed ≤ e.size ∧
        Span.nextAllocated after = true := by
  have hfit : h.index.firstOf P.lists (Span.sizeFrom h.start P.spans) needed = some e.offset := by
    rw [← hr.find?_entries, he]
    rfl
  have hplace := (hr.mem_entries_iff.mp (List.mem_of_find?_eq_some he)).1
  obtain ⟨before, n, after, hP, ho, hle, hnext⟩ := hr.exists_fit hfit
  have hn : (e.offset, n) ∈ places false h.start P.spans := by
    rw [hP, Span.places_append, ho]
    simp [places]
  obtain rfl : n = e.size :=
    Except.ok.inj ((hr.sizeAt_place hn).symm.trans (hr.sizeAt_place hplace))
  exact ⟨hfit, before, after, hP, ho, hle, hnext⟩

/-- If no entry is found, the heap finds nothing either. -/
theorem firstOf_eq_none (hr : h.Realizes P)
    (hfind : (entries h P).find? (needed ≤ ·.size) = none) :
    h.index.firstOf P.lists (Span.sizeFrom h.start P.spans) needed = none := by
  rw [← hr.find?_entries, hfind]
  rfl

theorem servesFirstFit (hr : h.Realizes P) (hlimit : h.region.limit < Word.limit)
    (ht : h.settings.splitThreshold = .ok t) (h0 : size ≠ 0)
    (hb : Request.blockSize size = .ok (some needed)) :
    h.ServesFirstFit P (entries h P) t size needed where
  reuse e he := by
    obtain ⟨hfit, before, after, hP, ho, hle, hnext⟩ := hr.exists_of_find?_entries he
    obtain ⟨p, m, hres, hp, hsize, hreal⟩ := allocate_of_fit hr ht h0 hb hfit hP ho hle hnext
    exact ⟨before, after, p, m, hP, ho, hres, hp, hsize, hreal.showsCut ht⟩
  grow hfind hle hholds := by
    have hword := hle.trans_lt hlimit
    have hext := Region.result_extend_of_le (r := h.region) hle hword hholds
    obtain ⟨p, m, hres, hp, hsize, hreal⟩ :=
      allocate_of_granted hr h0 hb (hr.firstOf_eq_none hfind) hword hext
    exact ⟨p, m, hres, hp, hsize, hreal.shows⟩
  refuse hfind hlt :=
    allocate_of_refused hr h0 hb (hr.firstOf_eq_none hfind) (Region.result_extend_of_lt hlt)
  overflow hfind hle hholds :=
    allocate_of_error hr h0 hb (hr.firstOf_eq_none hfind)
      (Region.result_extend_of_not_holds hle (hle.trans_lt hlimit) hholds)

end Realizes

end Heap

namespace Session

variable {region : Region} {settings : Settings} {s : Session} {t size needed : Nat}

/-- In every reachable session of a heap whose split threshold is a word, an allocation is first fit
    on the listing of the free blocks, which goes through the lists class by class. -/
theorem Reachable.allocates_firstFit (hs : Reachable region settings s)
    (hlimit : region.limit < Word.limit) (ht : settings.splitThreshold = .ok t)
    (h0 : size ≠ 0) (hb : Request.blockSize size = .ok (some needed)) :
    ∃ P es, s.heap.Shows P ∧ s.heap.freeEntries = .ok es ∧
      es.map (·.offset) = (List.range s.heap.index.size).flatMap P.lists ∧
      s.heap.ServesFirstFit P es t size needed := by
  obtain ⟨P, hP⟩ := hs.exists_sound
  have hregion : s.heap.region.limit = region.limit := by rw [hs.region_eq]
  rw [← hregion] at hlimit
  rw [← hs.settings_eq] at ht
  refine ⟨P, _, hP.realizes.shows, hP.realizes.freeEntries_eq, ?_,
    hP.realizes.servesFirstFit hlimit ht h0 hb⟩
  simp [List.map_flatMap, Function.comp_def]

/-- Of two free blocks the one in the lower class is too small, so the other one is cut. -/
theorem Reachable.allocates_firstFit_of_run : ∃ s P p m,
    (start? (Region.empty 4096) {}).bind (fun t => t.run?
      [.allocate 16, .allocate 300, .allocate 40, .allocate 16, .allocate 24,
        .free (some ⟨136, by decide⟩), .free (some ⟨512, by decide⟩)]) = some s ∧
    s.heap.freeEntries = .ok [⟨504, 32, 0⟩, ⟨128, 320, 1⟩] ∧ s.heap.Shows P ∧
    s.heap.ServesFirstFit P [⟨504, 32, 0⟩, ⟨128, 320, 1⟩] 56 40 56 ∧
    (s.heap.allocate 40).result = .ok (.ok (some p), s.heap.withMemory m) ∧ p.offset = 136 := by
  have hrun : ((start? (Region.empty 4096) {}).bind (fun t => t.run?
      [.allocate 16, .allocate 300, .allocate 40, .allocate 16, .allocate 24,
        .free (some ⟨136, by decide⟩), .free (some ⟨512, by decide⟩)])).map
      (fun s => decide (s.heap.freeEntries = .ok [⟨504, 32, 0⟩, ⟨128, 320, 1⟩])) =
        some true := by
    decide +kernel
  obtain ⟨s, hs, hentries⟩ := Option.map_eq_some_iff.mp hrun
  replace hentries := of_decide_eq_true hentries
  have hreach : Reachable (Region.empty 4096) {} s := reachable_iff.mpr ⟨_, hs⟩
  obtain ⟨P, es, hshows, hes, -, hserves⟩ :=
    Reachable.allocates_firstFit hreach (by decide) (t := 56) rfl (by decide : 40 ≠ 0)
      (rfl : Request.blockSize 40 = .ok (some 56))
  cases hes.symm.trans hentries
  obtain ⟨before, after, p, m, -, -, hres, hp, -⟩ := hserves.reuse ⟨128, 320, 1⟩ rfl
  exact ⟨s, P, p, m, hs, hentries, hshows, hserves, hres, hp⟩

/-- Half the address range is within the limit of this region, but owned storage is too small for
    it: nothing is free, the sum passes no limit, and yet there is no answer. -/
theorem Reachable.allocate_beyond_storage : ∃ s,
    start? (Region.empty (Word.limit - 1)) {} = some s ∧ s.heap.freeEntries = .ok [] ∧
    Request.blockSize 0x8000000000000000 = .ok (some 0x8000000000000010) ∧
    s.heap.memory.size + 0x8000000000000010 ≤ Word.limit - 1 ∧
    (s.heap.allocate 0x8000000000000000).result = .error .storageTooLarge := by
  have hrun : (start? (Region.empty (Word.limit - 1)) {}).map (fun s =>
      decide (s.heap.freeEntries = .ok [] ∧
        s.heap.memory.size + 0x8000000000000010 ≤ Word.limit - 1 ∧
        Prod.fst <$> (s.heap.allocate 0x8000000000000000).result = .error .storageTooLarge)) =
          some true := by
    decide +kernel
  obtain ⟨s, hs, hshape⟩ := Option.map_eq_some_iff.mp hrun
  obtain ⟨hentries, hroom, hfault⟩ := of_decide_eq_true hshape
  refine ⟨s, hs, hentries, rfl, hroom, ?_⟩
  cases hres : (s.heap.allocate 0x8000000000000000).result with
  | ok r =>
    rw [hres] at hfault
    cases hfault
  | error f =>
    rw [hres] at hfault
    cases hfault
    rfl

end Session

end BoundaryTag
