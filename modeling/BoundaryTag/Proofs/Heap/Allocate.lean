import BoundaryTag.Heap.Operations
import BoundaryTag.Proofs.Heap.Check
import BoundaryTag.Proofs.Heap.Merge
import BoundaryTag.Proofs.Heap.Outcome

set_option autoImplicit false

/-! # Allocating keeps the invariant

A request is served from the first free block that fits (`acquire_eq_of_some`) or by growing the
region (`acquire_eq_of_none`); a region that may not grow refuses, and the heap stays as it is.
Either way the heap after it realizes the plan in which the free span was carved, or a span was
added at the end. -/

open BoundaryTag.Span (total layout tags lastAllocated nextAllocated tags_append layout_append)

namespace BoundaryTag.Heap

open Memory (Touches Within Keeps)
open FreeIndex (without pushed)

variable {h : Heap} {P P' : Plan} {before mid after : List Span} {lists : Nat → List Nat}
  {m : Memory} {o n t needed : Nat}

/-! ## Carving -/

theorem total_carved (hle : needed ≤ n) : total (carved t n needed) = n := by
  unfold carved
  split <;> simp only [Span.total_cons, Span.total_nil] <;> omega

theorem proper_carved (ht : 32 ≤ t) (hn : 32 ≤ n) (hmod : n % 8 = 0)
    (hneeded : Span.Proper ⟨needed, true⟩) : ∀ s ∈ carved t n needed, s.Proper := by
  have hrest := hneeded.2
  dsimp only at hrest
  unfold carved
  split
  · simp only [List.mem_cons, List.not_mem_nil, or_false, forall_eq_or_imp, forall_eq]
    exact ⟨hneeded, ⟨by dsimp only; omega, by dsimp only; omega⟩⟩
  · rw [List.forall_mem_singleton]
    exact ⟨hn, hmod⟩

theorem coalesced_carved (prev : Bool) : Span.Coalesced prev (carved t n needed) := by
  unfold carved
  split <;> simp [Span.Coalesced]

theorem covers_carved (x : FreeIndex) :
    x.Covers (carvedLists x lists t o n needed) o (carved t n needed) := by
  unfold carved carvedLists
  split
  · simp [FreeIndex.mem_pushed_self]
  · simp

theorem mem_carvedLists {x : FreeIndex} {c u : Nat} (hu : u ∈ lists c) :
    u ∈ carvedLists x lists t o n needed c := by
  unfold carvedLists
  split
  · unfold pushed
    split
    · exact List.mem_cons_of_mem _ hu
    · exact hu
  · exact hu

/-- The settings of a heap split off blocks of the least size only. -/
theorem Realizes.le_threshold (hr : h.Realizes P) (ht : h.settings.splitThreshold = .ok t) :
    32 ≤ t := by
  have hmin := (Settings.validate_eq_ok_iff.mp hr.valid).2.2.1
  have hsum := (Word.add_eq_ok_iff.mp ht).1
  have h16 : Block.overhead = 16 := rfl
  omega

/-- A stretch of the row that is one unlisted block in the memory can be carved. -/
theorem Realizes.exists_carve (hr : h.Realizes P) (hP : P.spans = before ++ (mid ++ after))
    (hmid : total mid = n) {a : Bool}
    (hu : Uncarved h.index h.start m lists before after o n a) (hsize : m.size = h.memory.size)
    (hkeep : ∀ c < h.index.size, ∀ u ∈ P.lists c, u < o ∨ o + n ≤ u → u ∈ lists c)
    (ht : h.settings.splitThreshold = .ok t) (hneeded : Span.Proper ⟨needed, true⟩)
    (hle : needed ≤ n) :
    ∃ m', (carve h.index h.settings m o needed).result = .ok m' ∧
      (h.withMemory m').Realizes ⟨before ++ (carved t n needed ++ after),
        carvedLists h.index lists t o n needed⟩ ∧
      Within (fun w => h.index.LinkWord lists w ∨ w = o ∨ (o + needed ≤ w ∧ w ≤ o + n)) m m' := by
  have ht32 := hr.le_threshold ht
  have hB := hu.charted.proper _ (List.mem_append_right _ List.mem_cons_self)
  obtain ⟨m', hm', h', hw⟩ := hu.carve_eq ht ht32 hneeded hle
  refine ⟨m', hm', ?_, hw⟩
  have htotal : total (carved t n needed) = total mid := by rw [total_carved hle, hmid]
  refine hr.replace hP hu.start_eq (.inl htotal) ?_ (coalesced_carved _)
    (.inr hu.next_allocated) ?_ h' (covers_carved _) ?_
  · have h32 := hneeded.1
    dsimp only at h32
    exact proper_carved ht32 (by omega) hB.size_mod hneeded
  · rw [hw.size_eq, hsize, htotal]
  · intro c hc u hu hout
    rw [hmid] at hout
    exact mem_carvedLists (hkeep c hc u hu hout)

/-! ## Searching -/

/-- The search of the heap is the search over the plan. -/
theorem Realizes.firstFit_eq (hr : h.Realizes P) : h.index.firstFit h.memory needed =
    .ok (h.index.firstOf P.lists (Span.sizeFrom h.start P.spans) needed) :=
  hr.charted.threaded.firstFit_eq fun _ hc _ hu => hr.sizeAt_listed hc hu

/-- A listed block is a free span between allocated neighbours. -/
theorem Realizes.exists_of_mem_lists (hr : h.Realizes P) {c u : Nat} (hc : c < h.index.size)
    (hu : u ∈ P.lists c) : ∃ before n after, P.spans = before ++ ([⟨n, false⟩] ++ after) ∧
      h.start + total before = u ∧ n = Span.sizeFrom h.start P.spans u ∧
      h.index.classify n = c ∧ lastAllocated true before = true ∧ nextAllocated after = true := by
  obtain ⟨k, hk, hclass⟩ := (hr.mem_lists_iff hc).mp hu
  obtain ⟨b, hb, hfree, rfl, rfl⟩ := (Span.mem_places_iff (p := true)).mp hk
  obtain ⟨before, after, hss, hoff, -⟩ := Span.exists_of_mem_layout hb
  rw [hfree] at hss
  have hcoalesced := hr.coalesced
  rw [hss, Span.coalesced_append] at hcoalesced
  refine ⟨before, b.tag.size, after, hss, hoff.symm, (Span.sizeFrom_eq hr.proper hb).symm, hclass,
    ?_, ?_⟩
  · simpa [Span.Coalesced] using hcoalesced.2.1
  · simpa using (Span.coalesced_iff.mp hcoalesced.2.2).1

/-! ## Acquiring a block -/

/-- The first listed block that fits is a free span that is large enough. -/
theorem Realizes.exists_fit (hr : h.Realizes P)
    (hfit : h.index.firstOf P.lists (Span.sizeFrom h.start P.spans) needed = some o) :
    ∃ before n after, P.spans = before ++ ([⟨n, false⟩] ++ after) ∧ h.start + total before = o ∧
      needed ≤ n ∧ nextAllocated after = true := by
  obtain ⟨c, hc, hu, hle⟩ := FreeIndex.mem_of_firstOf_eq_some hfit
  obtain ⟨before, n, after, hP, ho, hn, -, -, hnext⟩ := hr.exists_of_mem_lists hc hu
  exact ⟨before, n, after, hP, ho, hn ▸ hle, hnext⟩

/-- If some listed block fits, the first one is carved. -/
theorem acquire_eq_of_some (hr : h.Realizes P) (ht : h.settings.splitThreshold = .ok t)
    (hneeded : Span.Proper ⟨needed, true⟩)
    (hfit : h.index.firstOf P.lists (Span.sizeFrom h.start P.spans) needed = some o)
    (hP : P.spans = before ++ ([⟨n, false⟩] ++ after)) (ho : h.start + total before = o)
    (hle : needed ≤ n) (hnext : nextAllocated after = true) :
    ∃ m', (h.acquire needed).result = .ok (.ok o, h.withMemory m') ∧
      (h.withMemory m').Realizes ⟨before ++ (carved t n needed ++ after),
        carvedLists h.index (without P.lists o) t o n needed⟩ ∧
      Within (fun w => h.index.LinkWord P.lists w ∨ (o ≤ w ∧ w ≤ o + n)) h.memory m' := by
  obtain ⟨c, hc, hu, -⟩ := FreeIndex.mem_of_firstOf_eq_some hfit
  have h32 := hneeded.1
  dsimp only at h32
  obtain ⟨m₁, hm₁, h₁, hw₁⟩ := hr.charted.unlink hc hu
  have hrow : tags h.start true P.spans = layout h.start true before ++
      ⟨o, ⟨n, false, lastAllocated true before⟩⟩ :: tags (o + n) false after := by
    rw [hP, tags_append, ho]
    simp
  rw [hrow] at h₁
  have huncarved : Uncarved h.index h.start m₁ (without P.lists o) before after o n false :=
    ⟨ho, h₁, fun _ d hd => hr.charted.threaded.not_mem_without hd, hnext⟩
  obtain ⟨m₂, hm₂, hreal, hw₂⟩ := hr.exists_carve hP (by simp) huncarved hw₁.size_eq
    (fun d hd u hu hout => (List.mem_erase_of_ne (by omega)).mpr hu) ht hneeded hle
  refine ⟨m₂, ?_, hreal, (hw₁.mono fun w hw => .inl hw.1).trans (hw₂.mono ?_)⟩
  · simp only [acquire, Traced.result_bind, Traced.result_lift, Traced.result_pure, hr.firstFit_eq,
      hfit, ok_bind, hm₁, hm₂]
  · rintro w (hw | rfl | hw)
    · exact .inl hw.of_without
    · exact .inr (by omega)
    · exact .inr (by omega)

/-- Carving comes to the split threshold. -/
theorem carve_eq_error {x : FreeIndex} {settings : Settings} {tag : Tag} {f : Fault}
    (htag : m.tagAt o = .ok tag) (hle : needed ≤ tag.size)
    (hf : settings.splitThreshold = .error f) :
    (carve x settings m o needed).result = .error f := by
  have hsub : Word.sub tag.size needed = .ok (tag.size - needed) :=
    Word.sub_eq_ok_iff.mpr (by omega)
  simp only [carve, Traced.result_bind, Traced.result_lift, htag, hsub, hf, ok_bind, error_bind]

/-- Without a split threshold no listed block can be carved. -/
theorem acquire_eq_error (hr : h.Realizes P) {f : Fault} (hf : h.settings.splitThreshold = .error f)
    (hfit : h.index.firstOf P.lists (Span.sizeFrom h.start P.spans) needed = some o) :
    (h.acquire needed).result = .error f := by
  obtain ⟨c, hc, hu, hle⟩ := FreeIndex.mem_of_firstOf_eq_some hfit
  obtain ⟨m₁, hm₁, h₁, -⟩ := hr.charted.unlink hc hu
  obtain ⟨k, hk, -⟩ := (hr.mem_lists_iff hc).mp hu
  obtain ⟨b, hb, -, rfl, rfl⟩ := (Span.mem_places_iff (p := true)).mp hk
  rw [Span.sizeFrom_eq hr.proper hb] at hle
  have hcarve : (carve h.index h.settings m₁ b.offset needed).result = .error f :=
    carve_eq_error (h₁.tagAt (List.mem_append_left _ hb)) hle hf
  simp only [acquire, Traced.result_bind, Traced.result_lift, hr.firstFit_eq, hfit, ok_bind, hm₁,
    hcarve, error_bind]

/-- If no listed block fits, a new one is appended. -/
theorem acquire_eq_of_none (hr : h.Realizes P)
    (hfit : h.index.firstOf P.lists (Span.sizeFrom h.start P.spans) needed = none) :
    (h.acquire needed).result = (h.append needed).result := by
  simp only [acquire, Traced.result_bind, Traced.result_lift, hr.firstFit_eq, hfit, ok_bind]

/-! ## Growing the region -/

/-- A last block and the epilogue can be written behind the blocks of a row. -/
theorem exists_setLast {x : FreeIndex} {start : Nat}
    (h : Charted x start m (layout start true before) lists) (ho : start + total before = o)
    (hn : 32 ≤ n) (hmod : n % 8 = 0) (hsize : o + n + 8 = m.size) :
    ∃ m', setLast m o n (lastAllocated true before) = .ok m' ∧
      Charted x start m' (tags start true (before ++ [⟨n, true⟩])) lists ∧
      Touches [o, o + n] m m' := by
  have hlim := h.addressable
  have hstop : ∀ b ∈ layout start true before, b.stop ≤ o := fun b hb => by
    rw [← ho]
    exact (Span.le_of_mem_layout hb).2
  rw [← List.append_nil (layout start true before)] at h
  obtain ⟨m₁, hm₁, h₁, ht₁⟩ := h.setHeader (p := lastAllocated true before) (n := n) (o := o)
    (by omega) hmod (by omega) hstop (by simp) (by omega)
  rw [← List.append_nil (layout start true before ++ _)] at h₁
  have hsize₁ := ht₁.size_eq
  obtain ⟨m₂, hm₂, h₂, ht₂⟩ := h₁.setHeader (p := true) (n := 8) (o := o + n) (Nat.le_refl 8) rfl
    (by omega)
    (by
      intro b hb
      rw [List.mem_append, List.mem_singleton] at hb
      rcases hb with hb | rfl
      · exact (hstop b hb).trans (Nat.le_add_right o n)
      · exact Nat.le_refl _)
    (by simp) (by omega)
  refine ⟨m₂, ?_, ?_, ht₁.trans ht₂⟩
  · have hadd : Word.add o n = .ok (o + n) := Word.add_eq_ok_iff.mpr ⟨rfl, by omega⟩
    simp only [setLast, setEpilogue, hm₁, hadd, ok_bind]
    exact hm₂
  · simpa [tags_append, ho, Span.epilogue] using h₂

/-- What comes last in the row can make place for an allocated span, if none of it is listed any
    more and the memory has grown to the new end. -/
theorem Realizes.exists_extend (hr : h.Realizes P) (hP : P.spans = before ++ mid)
    (ho : h.start + total before = o) (hcharted : Charted h.index h.start m
      (tags h.start true (before ++ mid)) lists)
    (hsize : o + n + 8 = m.size)
    (hmid : ∀ b ∈ tags o (lastAllocated true before) mid, b.tag.allocated = false →
      ∀ c < h.index.size, b.offset ∉ lists c)
    (hkeep : ∀ c < h.index.size, ∀ u ∈ P.lists c, u < o → u ∈ lists c)
    (hn : 32 ≤ n) (hmod : n % 8 = 0) :
    ∃ m', setLast m o n (lastAllocated true before) = .ok m' ∧
      (h.withMemory m').Realizes ⟨before ++ [⟨n, true⟩], lists⟩ ∧ Touches [o, o + n] m m' := by
  rw [tags_append, ho, ← List.append_nil (_ ++ _)] at hcharted
  have hrow := hcharted.drop hmid
  rw [List.append_nil] at hrow
  obtain ⟨m', hm', h', ht⟩ := exists_setLast hrow ho hn hmod hsize
  have hP' : P.spans = before ++ (mid ++ []) := by rw [hP, List.append_nil]
  have hend := hr.size_eq
  rw [hP, Span.total_append] at hend
  have hreal : (h.withMemory m').Realizes ⟨before ++ ([⟨n, true⟩] ++ []), lists⟩ := by
    refine hr.replace hP' ho (.inr rfl) ?_ (by simp [Span.Coalesced]) (.inr rfl) ?_
      (by simpa using h') (by simp) ?_
    · rw [List.forall_mem_singleton]
      exact ⟨hn, hmod⟩
    · rw [ht.size_eq, ← hsize, Span.total_cons, Span.total_nil]
      dsimp only
      omega
    · intro c hc u hu hout
      have hlt := hr.lt_of_mem_lists hc hu
      rw [hP, Span.total_append] at hlt
      exact hkeep c hc u hu (by omega)
  rw [List.append_nil] at hreal
  exact ⟨m', hm', hreal, ht⟩

theorem Realizes.epilogue_eq (hr : h.Realizes P) : h.epilogue = .ok (h.start + total P.spans) :=
  Word.sub_eq_ok_iff.mpr (by rw [Nat.add_comm]; exact hr.size_eq.symm)

theorem Realizes.prevAllocatedAt_epilogue (hr : h.Realizes P) :
    h.memory.prevAllocatedAt (h.start + total P.spans) = .ok (lastAllocated true P.spans) := by
  have hchart := hr.charted
  rw [← List.append_nil P.spans, tags_append] at hchart
  exact hchart.prevAllocatedAt_first

/-- A granted extension appends an allocated span. -/
theorem append_eq_of_granted (hr : h.Realizes P) (hneeded : Span.Proper ⟨needed, true⟩)
    (hword : h.memory.size + needed < Word.limit)
    (hext : (h.region.extend needed).result =
      .ok (.ok h.region.size, { h.region with memory := h.memory.grow needed })) :
    ∃ m', (h.append needed).result = .ok (.ok (h.start + total P.spans), h.withMemory m') ∧
      (h.withMemory m').Realizes ⟨P.spans ++ [⟨needed, true⟩], P.lists⟩ ∧
      Keeps (fun w => h.start + total P.spans ≤ w) h.memory m' := by
  have hend := hr.size_eq
  obtain ⟨m', hm', hreal, ht⟩ := hr.exists_extend (n := needed) (List.append_nil _).symm rfl
    (by rw [List.append_nil]; exact hr.charted.grow hword)
    (by rw [Memory.size_grow]; omega) (by simp [Span.epilogue]) (fun _ _ _ hu _ => hu)
    hneeded.1 hneeded.2
  refine ⟨m', ?_, hreal, (Keeps.grow _ _ needed).trans (ht.within ?_).keeps⟩
  · simp only [append, Traced.result_bind, Traced.result_lift, Traced.result_record,
      Traced.result_pure, hr.epilogue_eq, hr.prevAllocatedAt_epilogue, Region.provider_extend,
      Region.provider_memory, Region.provider_setMemory, hext, ok_bind, hm']
    rfl
  · intro w hw
    simp only [List.mem_cons, List.not_mem_nil, or_false] at hw
    omega

theorem append_eq_of_refused (hr : h.Realizes P) {e : Refusal}
    (hext : (h.region.extend needed).result = .ok (.error e, h.region)) :
    (h.append needed).result = .ok (.error e, h) := by
  simp only [append, Traced.result_bind, Traced.result_lift, Traced.result_pure, hr.epilogue_eq,
    hr.prevAllocatedAt_epilogue, Region.provider_extend, hext, ok_bind]

theorem append_eq_of_error (hr : h.Realizes P) {f : Fault}
    (hext : (h.region.extend needed).result = .error f) :
    (h.append needed).result = .error f := by
  simp only [append, Traced.result_bind, Traced.result_lift, hr.epilogue_eq,
    hr.prevAllocatedAt_epilogue, Region.provider_extend, hext, ok_bind, error_bind]

/-! ## Outcomes -/

theorem places_carved : Span.places true o (carved t n needed) =
    [(o, if t < n - needed then needed else n)] := by
  unfold carved
  split <;> simp [Span.places]

/-- An allocated block of at least the needed size, or a refusal that changes nothing. -/
theorem acquire_ends (hr : h.Realizes P) (hneeded : Span.Proper ⟨needed, true⟩) :
    Ends h.Lacks (fun r => (∃ e, r = (.error e, h) ∧ h.OutOfRoom e) ∨
      ∃ o m' P', r = (.ok o, h.withMemory m') ∧ h.Gives P o needed m' P')
      (h.acquire needed).result := by
  cases hfit : h.index.firstOf P.lists (Span.sizeFrom h.start P.spans) needed with
  | some o =>
    cases ht : h.settings.splitThreshold with
    | error f =>
      rw [acquire_eq_error hr ht hfit]
      exact .threshold ht
    | ok t =>
      obtain ⟨before, n, after, hP, ho, hle, hnext⟩ := hr.exists_fit hfit
      obtain ⟨m', hres, hreal, hw⟩ := acquire_eq_of_some hr ht hneeded hfit hP ho hle hnext
      rw [hres]
      refine .inr ⟨o, m', _, rfl, hreal, ?_, hw.keeps.mono ?_⟩
      · refine ⟨Span.places true h.start before, Span.places true (o + n) after,
          if t < n - needed then needed else n, by split <;> omega, ?_, ?_⟩
        · rw [hP, Span.places_append, ho]
          simp [Span.places]
        · simp only [Span.places_append, ho, places_carved, total_carved hle, List.cons_append,
            List.nil_append]
      · rintro w (hw | hw)
        · exact .inl hw
        · refine .inr (.inl ⟨o, n, ?_, hw⟩)
          rw [hP, Span.places_append, ho]
          simp [Span.places]
  | none =>
    rw [acquire_eq_of_none hr hfit]
    rcases h.region.result_extend_cases needed with ⟨hword, -, -, hext⟩ |
      ⟨hword, hlimit, hholds, hext⟩ | ⟨hfull, hext⟩
    · obtain ⟨m', hres, hreal, hk⟩ := append_eq_of_granted hr hneeded hword hext
      rw [hres]
      refine .inr ⟨_, m', _, rfl, hreal, ⟨Span.places true h.start P.spans, [], needed,
        Nat.le_refl _, by simp, ?_⟩, hk.mono fun w hw => .inr (.inr hw)⟩
      simp [Span.places_append, Span.places]
    · rw [append_eq_of_error hr hext]
      exact .storage hword hlimit hholds
    · rw [append_eq_of_refused hr hext]
      exact .inl ⟨_, rfl, needed, rfl, hfull⟩

/-- The block size of a request holds it together with two tags. -/
theorem proper_of_blockSize {size : Nat} (h : Request.blockSize size = .ok (some needed)) :
    Span.Proper ⟨needed, true⟩ ∧ size + 16 ≤ needed := by
  obtain ⟨-, rfl⟩ := Request.blockSize_eq_some_iff.mp h
  refine ⟨⟨Nat.le_max_right _ _, ?_⟩, ?_⟩
  · dsimp only
    omega
  · omega

theorem Gives.lt_limit (hg : h.Gives P o needed m P') : o + 8 < Word.limit := by
  obtain ⟨k, -, hmem⟩ := hg.mem_places
  have hbounds := hg.realizes.place_bounds hmem
  have hsize := hg.realizes.size_eq
  have hlim := hg.realizes.charted.addressable
  simp only [start_withMemory, memory_withMemory] at hbounds hsize hlim
  omega

/-- Allocating has an answer, unless it faults for want of something. -/
theorem allocate_ends (hr : h.Realizes P) (size : Nat) :
    Ends (h.Falters size) (h.Allocates P size) (h.allocate size).result := by
  rw [allocate]
  by_cases h0 : size = 0
  · rw [if_pos h0]
    exact .nothing h0
  rw [if_neg h0, Traced.result_bind, Traced.result_lift]
  cases hb : Request.blockSize size with
  | error f => exact .inr hb
  | ok request =>
    rw [ok_bind]
    cases request with
    | none => exact .refused (.tooLarge hb)
    | some needed =>
      have hneeded := proper_of_blockSize hb
      rw [Traced.result_bind]
      refine ((acquire_ends hr hneeded.1).mono fun f => .inl).bind ?_
      rintro r (⟨e, rfl, he⟩ | ⟨o, m', P', rfl, hg⟩)
      · exact .refused (.outOfRoom he)
      · have hlim := hg.lt_limit
        obtain ⟨k, -, hmem⟩ := hg.mem_places
        have hk : m'.sizeAt o = .ok k := hg.realizes.sizeAt_place hmem
        have hp : Handle.ofBlock o = .ok ⟨o + 8, Nat.succ_ne_zero _⟩ := by
          rw [Handle.ofBlock, if_pos (by unfold Block.headerBytes; exact hlim)]
        simp only [Traced.result_bind, Traced.result_lift, Traced.result_record, Traced.result_pure,
          hp, ok_bind, memory_withMemory, hk, hg.realizes.result_verify]
        exact .given h0 hb rfl hg

end BoundaryTag.Heap
