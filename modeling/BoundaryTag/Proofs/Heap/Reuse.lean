import BoundaryTag.Proofs.FreeIndex.Complete
import BoundaryTag.Proofs.Heap.Resize

set_option autoImplicit false

/-! # Serving requests from free blocks

The search for a free block finds one whenever there is one that is large enough
(`Realizes.exists_fit_iff`). A request is then served from it, and the memory does not grow
(`allocate_of_fit`); otherwise a request that is granted makes the memory grow
(`size_of_allocate`). So the free blocks decide alone whether the memory grows
(`Realizes.reuses_iff`). -/

open BoundaryTag.Span (total layout tags lastAllocated nextAllocated places)

namespace BoundaryTag

open Memory (Within)
open FreeIndex (without)

namespace Heap

variable {h h' : Heap} {P : Plan} {p : Handle} {before after : List Span} {m : Memory}
  {o n t k needed size : Nat}

/-- The search finds a block exactly if some free block is large enough. -/
theorem Realizes.exists_fit_iff (hr : h.Realizes P) :
    (∃ o, h.index.firstOf P.lists (Span.sizeFrom h.start P.spans) needed = some o) ↔
      ∃ u k, (u, k) ∈ places false h.start P.spans ∧ needed ≤ k := by
  rw [← Option.ne_none_iff_exists', Ne, hr.filed.firstOf_eq_none_iff]
  push Not
  constructor
  · rintro ⟨c, hc, u, hu, hle⟩
    obtain ⟨k, hk, -⟩ := (hr.mem_lists_iff hc).mp hu
    exact ⟨u, k, hk, Span.sizeFrom_place hr.proper hk ▸ hle⟩
  · rintro ⟨u, k, hk, hle⟩
    have hc := h.index.classify_lt_size k
    refine ⟨h.index.classify k, hc, u, (hr.mem_lists_iff hc).mpr ⟨k, hk, rfl⟩, ?_⟩
    rwa [Span.sizeFrom_place hr.proper hk]

/-! ## Steps of an allocation -/

/-- A block that was acquired becomes the answer. -/
theorem allocate_of_acquire (h0 : size ≠ 0) (hb : Request.blockSize size = .ok (some needed))
    (hres : (h.acquire needed).result = .ok (.ok o, h.withMemory m)) (hlim : o + 8 < Word.limit)
    (hk : m.sizeAt o = .ok k) {P' : Plan} (hr : (h.withMemory m).Realizes P') :
    (h.allocate size).result =
      .ok (.ok (some ⟨o + 8, Nat.succ_ne_zero _⟩), h.withMemory m) := by
  have hp : Handle.ofBlock o = .ok ⟨o + 8, Nat.succ_ne_zero _⟩ := by
    rw [Handle.ofBlock, if_pos (by unfold Block.headerBytes; exact hlim)]
  rw [allocate, if_neg h0]
  simp only [Traced.result_bind, Traced.result_lift, Traced.result_record, Traced.result_pure,
    hb, hres, ok_bind, hp, memory_withMemory, hk, hr.result_verify]

/-- An allocation faults if no block can be acquired for a fault. -/
theorem allocate_of_acquire_error (h0 : size ≠ 0)
    (hb : Request.blockSize size = .ok (some needed)) {f : Fault}
    (hres : (h.acquire needed).result = .error f) : (h.allocate size).result = .error f := by
  rw [allocate, if_neg h0]
  simp only [Traced.result_bind, Traced.result_lift, hb, hres, ok_bind, error_bind]

/-- An allocation is refused if no block can be acquired for a refusal. -/
theorem allocate_of_acquire_refused (h0 : size ≠ 0)
    (hb : Request.blockSize size = .ok (some needed)) {e : Refusal}
    (hres : (h.acquire needed).result = .ok (.error e, h)) :
    (h.allocate size).result = .ok (.error e, h) := by
  rw [allocate, if_neg h0]
  simp only [Traced.result_bind, Traced.result_lift, Traced.result_pure, hb, hres, ok_bind]

/-! ## With and without a fit -/

/-- A request that a free block can serve is served from it. -/
theorem allocate_of_fit (hr : h.Realizes P) (ht : h.settings.splitThreshold = .ok t)
    (h0 : size ≠ 0) (hb : Request.blockSize size = .ok (some needed))
    (hfit : h.index.firstOf P.lists (Span.sizeFrom h.start P.spans) needed = some o)
    (hP : P.spans = before ++ ([⟨n, false⟩] ++ after)) (ho : h.start + total before = o)
    (hle : needed ≤ n) (hnext : nextAllocated after = true) :
    ∃ p m', (h.allocate size).result = .ok (.ok (some p), h.withMemory m') ∧
      p.offset = o + 8 ∧ m'.size = h.memory.size ∧
      (h.withMemory m').Realizes ⟨before ++ (carved t n needed ++ after),
        carvedLists h.index (without P.lists o) t o n needed⟩ := by
  have hneeded := (proper_of_blockSize hb).1
  obtain ⟨m', hres, hreal, hw⟩ := acquire_eq_of_some hr ht hneeded hfit hP ho hle hnext
  have hsize := hr.size_eq
  have hlim := hr.charted.addressable
  rw [hP, Span.total_append, Span.total_append, Span.total_cons] at hsize
  have hplace : ∃ k, (o, k) ∈ places true h.start (before ++ (carved t n needed ++ after)) := by
    rw [Span.places_append, Span.places_append, ho, places_carved]
    exact ⟨_, List.mem_append_right _ (List.mem_append_left _ (List.mem_singleton_self _))⟩
  obtain ⟨k, hk⟩ := hplace
  exact ⟨_, m', allocate_of_acquire h0 hb hres (by omega) (hreal.sizeAt_place hk) hreal, rfl,
    hw.size_eq, hreal⟩

/-- A request that no free block can serve gets a new block at the end, if the region may grow by
    it. -/
theorem allocate_of_granted (hr : h.Realizes P) (h0 : size ≠ 0)
    (hb : Request.blockSize size = .ok (some needed))
    (hfit : h.index.firstOf P.lists (Span.sizeFrom h.start P.spans) needed = none)
    (hword : h.memory.size + needed < Word.limit)
    (hext : (h.region.extend needed).result =
      .ok (.ok h.region.size, { h.region with memory := h.memory.grow needed })) :
    ∃ p m', (h.allocate size).result = .ok (.ok (some p), h.withMemory m') ∧
      p.offset = h.start + total P.spans + 8 ∧ m'.size = h.memory.size + needed ∧
      (h.withMemory m').Realizes ⟨P.spans ++ [⟨needed, true⟩], P.lists⟩ := by
  have hneeded := (proper_of_blockSize hb).1
  obtain ⟨m', happend, hreal, -⟩ := append_eq_of_granted hr hneeded hword hext
  have hacquire := (acquire_eq_of_none hr hfit).trans happend
  have hsize := hr.size_eq
  have hsize' := hreal.size_eq
  simp only [start_withMemory, memory_withMemory, Span.total_append, Span.total_cons,
    Span.total_nil] at hsize'
  have hplace : (h.start + total P.spans, needed) ∈
      places true h.start (P.spans ++ [⟨needed, true⟩]) := by
    simp [Span.places_append, places]
  exact ⟨_, m', allocate_of_acquire h0 hb hacquire (by omega) (hreal.sizeAt_place hplace) hreal,
    rfl, by omega, hreal⟩

/-- A request that no free block can serve is refused if the region refuses to grow. -/
theorem allocate_of_refused (hr : h.Realizes P) (h0 : size ≠ 0)
    (hb : Request.blockSize size = .ok (some needed))
    (hfit : h.index.firstOf P.lists (Span.sizeFrom h.start P.spans) needed = none) {e : Refusal}
    (hext : (h.region.extend needed).result = .ok (.error e, h.region)) :
    (h.allocate size).result = .ok (.error e, h) :=
  allocate_of_acquire_refused h0 hb
    ((acquire_eq_of_none hr hfit).trans (append_eq_of_refused hr hext))

/-- A request that no free block can serve faults if there is no storage to grow by. -/
theorem allocate_of_error (hr : h.Realizes P) (h0 : size ≠ 0)
    (hb : Request.blockSize size = .ok (some needed))
    (hfit : h.index.firstOf P.lists (Span.sizeFrom h.start P.spans) needed = none) {f : Fault}
    (hext : (h.region.extend needed).result = .error f) : (h.allocate size).result = .error f :=
  allocate_of_acquire_error h0 hb
    ((acquire_eq_of_none hr hfit).trans (append_eq_of_error hr hext))

/-- A request that no free block can serve makes the memory grow by the new block if it is granted. -/
theorem size_of_allocate (hr : h.Realizes P) (h0 : size ≠ 0)
    (hb : Request.blockSize size = .ok (some needed))
    (hfit : h.index.firstOf P.lists (Span.sizeFrom h.start P.spans) needed = none)
    (hres : (h.allocate size).result = .ok (.ok (some p), h')) :
    h'.memory.size = h.memory.size + needed := by
  rcases h.region.result_extend_cases needed with ⟨hword, -, -, hext⟩ | ⟨-, -, -, hext⟩ |
    ⟨-, hext⟩
  · obtain ⟨q, m', hgranted, -, hsize, -⟩ := allocate_of_granted hr h0 hb hfit hword hext
    cases hres.symm.trans hgranted
    exact hsize
  · cases hres.symm.trans (allocate_of_error hr h0 hb hfit hext)
  · cases hres.symm.trans (allocate_of_refused hr h0 hb hfit hext)

/-- A request is served without growth exactly if some free block is large enough. -/
theorem Realizes.reuses_iff (hr : h.Realizes P) (ht : h.settings.splitThreshold = .ok t)
    (h0 : size ≠ 0) (hb : Request.blockSize size = .ok (some needed)) :
    (∃ p h', (h.allocate size).result = .ok (.ok (some p), h') ∧
      h'.memory.size = h.memory.size) ↔
      ∃ u k, (u, k) ∈ places false h.start P.spans ∧ needed ≤ k := by
  rw [← hr.exists_fit_iff]
  constructor
  · rintro ⟨p, h', hres, hsize⟩
    refine Option.ne_none_iff_exists'.mp fun hnone => ?_
    have hgrown := size_of_allocate hr h0 hb hnone hres
    have h32 := (proper_of_blockSize hb).1.1
    dsimp only at h32
    omega
  · rintro ⟨o, hfit⟩
    obtain ⟨before, n, after, hP, ho, hle, hnext⟩ := hr.exists_fit hfit
    obtain ⟨p, m', hres, -, hsize, -⟩ := allocate_of_fit hr ht h0 hb hfit hP ho hle hnext
    exact ⟨p, _, hres, hsize⟩

end Heap

end BoundaryTag
