import BoundaryTag.Proofs.Heap.Reports
import BoundaryTag.Proofs.Heap.Resize

set_option autoImplicit false

/-! # Operations go by the plan

Two heaps that differ in nothing but their bytes and realize the same plan cannot be told apart:
each operation has the same answer, or the same fault, on both, and leaves heaps that realize the
same plan again (`Heap.Agree`); and both report the same (`Realizes.view_eq`). What is in payloads
is no part of the plan, so nothing depends on it. -/

open BoundaryTag.Span (total layout places lastAllocated)

namespace BoundaryTag

/-- Regions of the same size grow alike. -/
theorem Region.extend_agree {r : Region} {m : Memory} (hsize : m.size = r.memory.size) (n : Nat) :
    (r.memory.size + n < Word.limit ∧ m.size + n < Word.limit ∧
      (r.extend n).result = .ok (.ok r.size, { r with memory := r.memory.grow n }) ∧
      (({ r with memory := m } : Region).extend n).result =
        .ok (.ok m.size, { r with memory := m.grow n })) ∨
    (∃ f, (r.extend n).result = .error f ∧
      (({ r with memory := m } : Region).extend n).result = .error f) ∨
    ∃ e, (r.extend n).result = .ok (.error e, r) ∧
      (({ r with memory := m } : Region).extend n).result =
        .ok (.error e, { r with memory := m }) := by
  have hsize' : ({ r with memory := m } : Region).size = r.size := hsize
  rcases r.result_extend_cases n with ⟨hword, hlimit, hholds, hext⟩ |
    ⟨hword, hlimit, hholds, hext⟩ | ⟨hfull, hext⟩
  · refine .inl ⟨hword, by rwa [hsize], hext, Region.result_extend_of_le ?_ ?_ ?_⟩ <;> rw [hsize']
    · exact hlimit
    · exact hword
    · exact hholds
  · refine .inr (.inl ⟨_, hext, ?_⟩)
    rw [extend, hsize', if_pos ⟨hword, hlimit⟩]
    simp [hholds]
  · refine .inr (.inr ⟨_, hext, ?_⟩)
    rw [extend, hsize', if_neg hfull]
    rfl

namespace Heap

variable {h : Heap} {m : Memory} {P : Plan} {p : Handle} {before after : List Span}
  {right : Option Nat} {s o k needed size : Nat}

/-- Two outcomes agree: they are the same fault, or the same answer with two heaps that realize the
    same plan and are, but for their bytes, the given one. -/
inductive Agree (h : Heap) {α : Type} :
    Except Fault (Outcome α) → Except Fault (Outcome α) → Prop where
  | fault {f : Fault} : Agree h (.error f) (.error f)
  | answer {a : Except Refusal α} {m m' : Memory} {P : Plan} : (h.withMemory m).Realizes P →
      (h.withMemory m').Realizes P → Agree h (.ok (a, h.withMemory m)) (.ok (a, h.withMemory m'))

theorem Agree.bind {α β : Type} {x y : Except Fault (Outcome α)}
    {f : Outcome α → Except Fault (Outcome β)} (hxy : h.Agree x y)
    (hf : ∀ a m m' P, x = .ok (a, h.withMemory m) → (h.withMemory m).Realizes P →
      (h.withMemory m').Realizes P → h.Agree (f (a, h.withMemory m)) (f (a, h.withMemory m'))) :
    h.Agree (x >>= f) (y >>= f) := by
  cases hxy with
  | fault => exact .fault
  | answer hr hr' => exact hf _ _ _ _ rfl hr hr'

theorem withMemory_injective {m' : Memory} (heq : h.withMemory m = h.withMemory m') : m = m' :=
  congrArg Heap.memory heq

theorem Realizes.size_eq_of (hr : h.Realizes P) (hr' : (h.withMemory m).Realizes P) :
    m.size = h.memory.size :=
  hr'.size_eq.symm.trans hr.size_eq

/-- A heap shows one row. -/
theorem Realizes.spans_unique {P' : Plan} (hr : h.Realizes P) (hr' : h.Realizes P') :
    P.spans = P'.spans :=
  Span.layout_injective (Except.ok.inj (hr.blocks_eq.symm.trans hr'.blocks_eq))

/-- Every plan of the heap afterwards has the block acquired. -/
theorem Realizes.exists_acquired (hr : h.Realizes P) (hneeded : Span.Proper ⟨needed, true⟩)
    (hres : (h.acquire needed).result = .ok (.ok o, h.withMemory m)) {P' : Plan}
    (hr' : (h.withMemory m).Realizes P') : ∃ k, (o, k) ∈ places true h.start P'.spans := by
  rcases (acquire_ends hr hneeded).of_ok hres with ⟨e, heq, -⟩ | ⟨o', m', P₁, heq, hg⟩
  · cases heq
  · rw [Prod.mk.injEq, Except.ok.injEq] at heq
    obtain ⟨rfl, hmemory⟩ := heq
    obtain rfl := withMemory_injective hmemory
    obtain ⟨k, -, hk⟩ := hg.mem_places
    rw [hg.realizes.spans_unique hr'] at hk
    exact ⟨k, hk⟩

/-- Every plan of the heap after an allocation has the block given, with the payload requested, and
    the blocks there were. -/
theorem Realizes.exists_target (hr : h.Realizes P)
    (hres : (h.allocate size).result = .ok (.ok (some p), h.withMemory m)) {P' : Plan}
    (hr' : (h.withMemory m).Realizes P') :
    (∃ o k, p.offset = o + 8 ∧ size + 16 ≤ k ∧ (o, k) ∈ places true h.start P'.spans) ∧
      places true h.start P.spans ⊆ places true h.start P'.spans := by
  generalize hheap : h.withMemory m = h₁ at hres
  cases (allocate_ends hr size).of_ok hres with
  | given _ hb hp hg =>
    obtain rfl := withMemory_injective hheap
    obtain ⟨k, hle, hk⟩ := hg.mem_places
    have hsub := hg.places_subset
    rw [hg.realizes.spans_unique hr'] at hk hsub
    exact ⟨⟨_, k, hp, (proper_of_blockSize hb).2.trans hle, hk⟩, hsub⟩

theorem At.withMemory (ha : h.At P before after right s o) :
    (h.withMemory m).At P before after right s o :=
  ⟨ha.spans_eq, ha.offset_eq, ha.next⟩

/-! ## Allocating -/

section Agree

variable (hr : h.Realizes P) (hr' : (h.withMemory m).Realizes P)

include hr hr'

theorem append_agree (hneeded : Span.Proper ⟨needed, true⟩) :
    h.Agree (h.append needed).result ((h.withMemory m).append needed).result := by
  have hsize := hr.size_eq_of hr'
  rcases Region.extend_agree (r := h.region) hsize needed with
    ⟨hword, hword', hext, hext'⟩ | ⟨f, hext, hext'⟩ | ⟨e, hext, hext'⟩
  · obtain ⟨m₁, hres, hreal, -⟩ := append_eq_of_granted hr hneeded hword hext
    obtain ⟨m₂, hres', hreal', -⟩ := append_eq_of_granted hr' hneeded hword' hext'
    rw [hres, hres']
    exact .answer hreal hreal'
  · rw [append_eq_of_error hr hext, append_eq_of_error hr' hext']
    exact .fault
  · rw [append_eq_of_refused hr hext, append_eq_of_refused hr' hext']
    exact .answer hr hr'

theorem acquire_agree (hneeded : Span.Proper ⟨needed, true⟩) :
    h.Agree (h.acquire needed).result ((h.withMemory m).acquire needed).result := by
  cases hfit : h.index.firstOf P.lists (Span.sizeFrom h.start P.spans) needed with
  | none =>
    rw [acquire_eq_of_none hr hfit, acquire_eq_of_none hr' hfit]
    exact append_agree hr hr' hneeded
  | some o =>
    cases ht : h.settings.splitThreshold with
    | error f =>
      rw [acquire_eq_error hr ht hfit, acquire_eq_error hr' ht hfit]
      exact .fault
    | ok t =>
      obtain ⟨before, n, after, hP, ho, hle, hnext⟩ := hr.exists_fit hfit
      obtain ⟨m₁, hres, hreal, -⟩ := acquire_eq_of_some hr ht hneeded hfit hP ho hle hnext
      obtain ⟨m₂, hres', hreal', -⟩ := acquire_eq_of_some hr' ht hneeded hfit hP ho hle hnext
      rw [hres, hres']
      exact .answer hreal hreal'

theorem allocate_agree (size : Nat) :
    h.Agree (h.allocate size).result ((h.withMemory m).allocate size).result := by
  rw [allocate, allocate]
  by_cases h0 : size = 0
  · rw [if_pos h0, if_pos h0]
    exact .answer hr hr'
  rw [if_neg h0, if_neg h0]
  simp only [Traced.result_bind, Traced.result_lift]
  cases hb : Request.blockSize size with
  | error f => exact .fault
  | ok request =>
    simp only [ok_bind]
    cases request with
    | none => exact .answer hr hr'
    | some needed =>
      have hneeded := (proper_of_blockSize hb).1
      simp only [Traced.result_bind]
      refine (acquire_agree hr hr' hneeded).bind fun a m₁ m₂ P' hres hreal hreal' => ?_
      cases a with
      | error e => exact .answer hreal hreal'
      | ok o =>
        -- only the size of the block is read afterwards, and the plan tells it
        obtain ⟨k, hk⟩ := hr.exists_acquired hneeded hres hreal
        have hsize := hreal.sizeAt_place hk
        have hsize' := hreal'.sizeAt_place hk
        simp only [Traced.result_bind, Traced.result_lift, Traced.result_record, Traced.result_pure]
        cases Handle.ofBlock o with
        | error f => exact .fault
        | ok q =>
          simp only [ok_bind, hsize, hsize', hreal.result_verify, hreal'.result_verify]
          exact .answer hreal hreal'

/-! ## Freeing -/

/-- A block that is freed on both sides is merged with the same neighbours. -/
theorem free_agree (hp : p.offset = o + 8) (hk : (o, k) ∈ places true h.start P.spans) :
    ∃ m₁ m₂ P', (h.free (some p)).result = .ok (h.withMemory m₁) ∧
      ((h.withMemory m).free (some p)).result = .ok (h.withMemory m₂) ∧
      (h.withMemory m₁).Realizes P' ∧ (h.withMemory m₂).Realizes P' := by
  obtain ⟨before, left, right, after, hP, ho, hlast, hnext⟩ := hr.exists_neighbours hk
  obtain ⟨m₁, hres, hreal, -⟩ := free_eq (p := p) hr hP rfl (by omega) hlast hnext
  obtain ⟨m₂, hres', hreal', -⟩ := free_eq (p := p) (o := h.start + total before) hr' hP rfl
    (by omega) hlast hnext
  exact ⟨m₁, m₂, _, hres, hres', hreal, hreal'⟩

/-! ## Resizing -/

theorem move_agree (hp : p.offset = o + 8) (hk : (o, k) ∈ places true h.start P.spans) :
    h.Agree (h.move p size).result ((h.withMemory m).move p size).result := by
  rw [move, move, Traced.result_bind, Traced.result_bind]
  refine (allocate_agree hr hr' size).bind fun a m₁ m₂ P' hres hreal hreal' => ?_
  cases a with
  | error e => exact .answer hreal hreal'
  | ok target =>
    cases target with
    | none => exact .answer hreal hreal'
    | some target =>
      -- the copies may differ, but both go into the payload of the new block
      obtain ⟨⟨o', k', hp', hle, hk'⟩, hsub⟩ := hr.exists_target hres hreal
      obtain ⟨m₃, hcopy, hreal₃⟩ := hreal.copyPayload hp (hsub hk) hp' hk'
        (n := min size (k - 8)) (by omega) (by omega)
      obtain ⟨m₄, hcopy', hreal₄⟩ := hreal'.copyPayload hp (hsub hk) hp' hk'
        (n := min size (k - 8)) (by omega) (by omega)
      obtain ⟨m₅, m₆, P₂, hfree, hfree', hreal₅, hreal₆⟩ := free_agree hreal₃ hreal₄ hp (hsub hk)
      rw [memory_withMemory] at hcopy hcopy'
      rw [withMemory_withMemory, withMemory_withMemory] at hreal₅ hreal₆ hfree hfree'
      simp only [Traced.result_bind, Traced.result_lift, Traced.result_record, Traced.result_pure,
        hreal.usableSize_eq hp (hsub hk), hreal'.usableSize_eq hp (hsub hk), hcopy, hcopy', hfree,
        hfree', memory_withMemory, withMemory_withMemory, ok_bind]
      exact .answer hreal₅ hreal₆

theorem enlarge_absorbNext_agree {r : Nat} (ha : h.At P before after (some r) s o)
    (hneeded : Span.Proper ⟨needed, true⟩) (hlt : s < needed) (hle : needed ≤ s + r) :
    h.Agree (h.enlarge p size o needed ⟨s, true, lastAllocated true before⟩ (.absorbNext r)).result
      ((h.withMemory m).enlarge p size o needed ⟨s, true, lastAllocated true before⟩
        (.absorbNext r)).result := by
  cases ht : h.settings.splitThreshold with
  | error f =>
    rw [enlarge_absorbNext_eq_error hr ha ht hle,
      enlarge_absorbNext_eq_error hr' ha.withMemory ht hle]
    exact .fault
  | ok t =>
    obtain ⟨m₁, hres, hreal, -⟩ := enlarge_absorbNext_eq hr ha ht hneeded hlt hle
    obtain ⟨m₂, hres', hreal', -⟩ := enlarge_absorbNext_eq hr' ha.withMemory ht hneeded hlt hle
    rw [hres, hres']
    exact .answer hreal hreal'

theorem enlarge_growLast_agree (ha : h.At P before [] none s o)
    (hneeded : Span.Proper ⟨needed, true⟩) (hlt : s < needed) :
    h.Agree (h.enlarge p size o needed ⟨s, true, lastAllocated true before⟩ .growLast).result
      ((h.withMemory m).enlarge p size o needed ⟨s, true, lastAllocated true before⟩
        .growLast).result := by
  have hsize := hr.size_eq_of hr'
  rcases Region.extend_agree (r := h.region) hsize (needed - s) with
    ⟨hword, hword', hext, hext'⟩ | ⟨f, hext, hext'⟩ | ⟨e, hext, hext'⟩
  · obtain ⟨m₁, hres, hreal, -⟩ := enlarge_growLast_of_granted hr ha hneeded hlt hword hext
    obtain ⟨m₂, hres', hreal', -⟩ :=
      enlarge_growLast_of_granted hr' ha.withMemory hneeded hlt hword' hext'
    rw [hres, hres']
    exact .answer hreal hreal'
  · rw [enlarge_growLast_of_error hlt rfl hext, enlarge_growLast_of_error hlt rfl hext']
    exact .fault
  · rw [enlarge_growLast_of_refused hlt rfl hext, enlarge_growLast_of_refused hlt rfl hext']
    exact .answer hr hr'

theorem enlarge_absorbLast_agree {r : Nat} (ha : h.At P before [] (some r) s o)
    (hneeded : Span.Proper ⟨needed, true⟩) (hlt : s + r < needed) :
    h.Agree (h.enlarge p size o needed ⟨s, true, lastAllocated true before⟩ (.absorbLast r)).result
      ((h.withMemory m).enlarge p size o needed ⟨s, true, lastAllocated true before⟩
        (.absorbLast r)).result := by
  have hsize := hr.size_eq_of hr'
  rcases Region.extend_agree (r := h.region) hsize (needed - s - r) with
    ⟨hword, hword', hext, hext'⟩ | ⟨f, hext, hext'⟩ | ⟨e, hext, hext'⟩
  · obtain ⟨m₁, hres, hreal, -⟩ := enlarge_absorbLast_of_granted hr ha hneeded hlt hword hext
    obtain ⟨m₂, hres', hreal', -⟩ :=
      enlarge_absorbLast_of_granted hr' ha.withMemory hneeded hlt hword' hext'
    rw [hres, hres']
    exact .answer hreal hreal'
  · rw [enlarge_absorbLast_of_error hr ha hlt hext,
      enlarge_absorbLast_of_error hr' ha.withMemory hlt hext']
    exact .fault
  · rw [enlarge_absorbLast_of_refused hr ha hlt hext,
      enlarge_absorbLast_of_refused hr' ha.withMemory hlt hext']
    exact .answer hr hr'

/-- The plan tells in which way a block grows. -/
theorem enlarge_agree (hp : p.offset = o + 8) (hk : (o, k) ∈ places true h.start P.spans)
    (ha : h.At P before after right k o) (hneeded : Span.Proper ⟨needed, true⟩)
    (hlt : k < needed) :
    h.Agree (h.enlarge p size o needed ⟨k, true, lastAllocated true before⟩
        (growthOf k needed right after)).result
      ((h.withMemory m).enlarge p size o needed ⟨k, true, lastAllocated true before⟩
        (growthOf k needed right after)).result := by
  unfold growthOf
  cases right with
  | none =>
    dsimp only
    split
    · subst after
      exact enlarge_growLast_agree hr hr' ha hneeded hlt
    · exact move_agree hr hr' hp hk
  | some r =>
    dsimp only
    split
    · rename_i hle
      exact enlarge_absorbNext_agree hr hr' ha hneeded hlt hle
    · split
      · subst after
        exact enlarge_absorbLast_agree hr hr' ha hneeded (by omega)
      · exact move_agree hr hr' hp hk

theorem resize_agree (hp : p.offset = o + 8) (hk : (o, k) ∈ places true h.start P.spans)
    (h0 : size ≠ 0) :
    h.Agree (h.resize (some p) size).result ((h.withMemory m).resize (some p) size).result := by
  rw [resize, resize, if_neg h0, if_neg h0, Traced.result_bind, Traced.result_bind,
    Traced.result_lift]
  cases hb : Request.blockSize size with
  | error f => exact .fault
  | ok request =>
    rw [ok_bind, ok_bind]
    cases request with
    | none => exact .answer hr hr'
    | some needed =>
      obtain ⟨before, right, after, ha⟩ := hr.exists_at hk
      have htag := hr.charted.tagAt ha.mem_tags
      have htag' := hr'.charted.tagAt ha.mem_tags
      have hsucc := hr.charted.successor ha.mem_tags
      have hsucc' := hr'.charted.successor ha.mem_tags
      simp only [Block.stop] at hsucc hsucc'
      simp only [Traced.result_bind, Traced.result_lift, block_eq_ok_iff.mpr hp, htag, htag',
        ok_bind]
      by_cases hfits : needed ≤ k
      · rw [if_pos hfits, if_pos hfits]
        exact .answer hr hr'
      · rw [if_neg hfits, if_neg hfits]
        simp only [Traced.result_bind, Traced.result_lift, hsucc, hsucc', growth_eq hr ha,
          growth_eq hr' ha.withMemory, ok_bind]
        exact enlarge_agree hr hr' hp hk ha (proper_of_blockSize hb).1 (by omega)

end Agree

/-! ## Reports -/

/-- All that a heap reports of itself. -/
structure View where
  size : Nat
  blocks : Except Fault (List Block)
  entries : Except Fault (List FreeEntry)
  census : Except Fault Census
  verdict : Except Fault (Except Violation Unit)

/-- What the heap reports. -/
def view (h : Heap) : View :=
  ⟨h.memory.size, h.blocks, h.freeEntries, h.census, h.check⟩

/-- The plan tells what the heap reports. -/
theorem Realizes.view_eq (hr : h.Realizes P) (hr' : (h.withMemory m).Realizes P) :
    (h.withMemory m).view = h.view := by
  simp only [view, hr.blocks_eq, hr'.blocks_eq, hr.freeEntries_eq, hr'.freeEntries_eq,
    hr.census_eq, hr'.census_eq, hr.check_eq, hr'.check_eq, memory_withMemory, start_withMemory,
    index_withMemory, hr.size_eq_of hr']

end Heap

end BoundaryTag
