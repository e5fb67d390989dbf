import BoundaryTag.Proofs.Heap.Reuse
import BoundaryTag.Proofs.Session.Frees

set_option autoImplicit false

/-! # Giving back at once what was allocated

A block that is allocated and freed right away leaves the allocated blocks as they were. Nothing but
the size of the memory decides about the free ones then (`Span.eq_of_places_eq`). So the heap has the
same layout as before, if a free block was reused, and otherwise as much more free space at its end
as the block took (`Reachable.free_undoes_allocate`). -/

open BoundaryTag.Span (total layout places lastAllocated freeSpan)

namespace BoundaryTag

namespace Heap

variable {h h₁ h₂ : Heap} {P P' P'' : Plan} {p : Handle} {before : List Span} {left : Option Nat}
  {m' m'' : Memory} {o k size needed : Nat}

/-- How the heap `h₂`, in which the handle is freed that `h` gave out with a block of `needed` bytes,
    differs from `h`. -/
inductive Undoes (h : Heap) (needed : Nat) (p : Handle) (h₁ h₂ : Heap) : Prop where
  /-- The block was one of the free ones, or a part of it. -/
  | reused {o : Nat} : h.index.firstFit h.memory needed = .ok (some o) → p.offset = o + 8 →
      h₁.memory.size = h.memory.size → h.SameLayout h₂ → Undoes h needed p h₁ h₂
  /-- The memory has grown by the block. It is free space now, one block with the free block that was
      last before, if there was one. -/
  | grown {before : List Span} {left : Option Nat} :
      h.index.firstFit h.memory needed = .ok none → h₁.memory.size = h.memory.size + needed →
      h₂.memory.size = h₁.memory.size → h₂.start = h.start → lastAllocated true before = true →
      h.blocks = .ok (layout h.start true (before ++ freeSpan left)) →
      h₂.blocks = .ok (layout h.start true (before ++ [⟨left.getD 0 + needed, false⟩])) →
      Undoes h needed p h₁ h₂

/-- Taking the block that was given leaves the blocks there were before. -/
theorem Gives.places_of_takes (hg : h.Gives P o needed m' P')
    (ht : (h.withMemory m').Takes P' o k m'' P'') :
    Span.places true h.start P''.spans = Span.places true h.start P.spans := by
  obtain ⟨before, after, j, -, hold, hnew⟩ := hg.places
  have hfilter : Span.places true h.start P''.spans =
      (Span.places true h.start P'.spans).filter (·.1 ≠ o) :=
    Takes.places_eq_filter (h := h.withMemory m') hg.realizes ht
  have hother : (Span.places true h.start P.spans).filter (·.1 ≠ o) =
      Span.places true h.start P.spans := by
    refine List.filter_eq_self.mpr ?_
    rintro ⟨u, i⟩ hu
    rw [decide_eq_true_iff]
    rintro rfl
    exact hg.not_mem_places hu
  rw [hfilter, ← hother, hold, hnew, List.filter_append, List.filter_cons_of_neg (by simp),
    List.filter_append]

/-- A row with the same allocated spans and more bytes has these as free space at its end. -/
theorem Realizes.spans_eq_of_grown (hr : h.Realizes P) (hr' : (h.withMemory m').Realizes P')
    (hP : P.spans = before ++ freeSpan left) (hlast : lastAllocated true before = true)
    (hneeded : Span.Proper ⟨needed, true⟩) (hsize : m'.size = h.memory.size + needed)
    (hplaces : places true h.start P'.spans = places true h.start P.spans) :
    P'.spans = before ++ [⟨left.getD 0 + needed, false⟩] := by
  have hproper := hr.proper
  have hcoalesced := hr.coalesced
  have htotal := hr.size_eq
  have htotal' := hr'.size_eq
  simp only [start_withMemory, memory_withMemory] at htotal'
  rw [hP] at hproper hcoalesced
  rw [hP, Span.total_append, Span.total_freeSpan] at htotal
  refine Span.eq_of_places_eq hr'.proper ?_ hr'.coalesced ?_ ?_ (hplaces.trans ?_)
  · intro t ht
    rw [List.mem_append, List.mem_singleton] at ht
    rcases ht with ht | rfl
    · exact hproper t (List.mem_append_left _ ht)
    · obtain ⟨h32, hmod⟩ := hneeded
      cases left with
      | none => exact ⟨by simpa using h32, by simpa using hmod⟩
      | some l =>
        obtain ⟨hl32, hlmod⟩ := hproper ⟨l, false⟩ (by simp)
        simp only [Span.Proper, Option.getD_some] at *
        omega
  · exact Span.coalesced_append.mpr ⟨hcoalesced.append_left, by simp [Span.Coalesced, hlast]⟩
  · rw [Span.total_append, Span.total_cons, Span.total_nil]
    dsimp only
    omega
  · rw [hP, Span.places_append, Span.places_append]
    cases left <;> simp [places]

/-- Whatever block is given, taking it again undoes what giving it did. -/
theorem Realizes.undoes (hr : h.Realizes P)
    (hb : Request.blockSize size = .ok (some needed)) (h0 : size ≠ 0)
    (hres : (h.allocate size).result = .ok (.ok (some p), h.withMemory m'))
    (hg : h.Gives P o needed m' P') (ht : (h.withMemory m').Takes P' o k m'' P'')
    (hsize : m''.size = m'.size) : h.Undoes needed p (h.withMemory m') (h.withMemory m'') := by
  have hplaces := hg.places_of_takes ht
  have hfirst : h.index.firstFit h.memory needed =
      .ok (h.index.firstOf P.lists (Span.sizeFrom h.start P.spans) needed) := hr.firstFit_eq
  cases hfit : h.index.firstOf P.lists (Span.sizeFrom h.start P.spans) needed with
  | none =>
    have hgrown := size_of_allocate hr h0 hb hfit hres
    obtain ⟨before, left, hP, hlast⟩ := hr.coalesced.exists_freeSpan_last
    have hspans := hr.spans_eq_of_grown ht.realizes hP hlast (proper_of_blockSize hb).1
      (hsize.trans hgrown) hplaces
    have hold : h.blocks = .ok (layout h.start true (before ++ freeSpan left)) := by
      rw [hr.blocks_eq, hP]
    have hnew : (h.withMemory m'').blocks = .ok (layout h.start true P''.spans) :=
      ht.realizes.blocks_eq
    rw [hspans] at hnew
    exact .grown (hfit ▸ hfirst) hgrown hsize rfl hlast hold hnew
  | some u =>
    cases hthreshold : h.settings.splitThreshold with
    | error f =>
      have hfault := acquire_eq_error hr hthreshold hfit
      cases hres.symm.trans (allocate_of_acquire_error h0 hb hfault)
    | ok t =>
      obtain ⟨before, n, after, hP, ho, hle, hnext⟩ := hr.exists_fit hfit
      obtain ⟨q, m₁, hres', hq, hkept, -⟩ := allocate_of_fit hr hthreshold h0 hb hfit hP ho hle hnext
      obtain ⟨hpq, hm⟩ := Prod.mk.inj (Except.ok.inj (hres.symm.trans hres'))
      cases hpq
      obtain rfl := withMemory_injective hm
      exact .reused (hfit ▸ hfirst) hq hkept
        (Realizes.sameLayout (m := h.memory) hr ht.realizes (hsize.trans hkept) hplaces)

end Heap

namespace Session

variable {region : Region} {settings : Settings} {s : Session} {h₁ : Heap} {p : Handle} {size : Nat}

/-- In every reachable session a handle that was just given out can be given back, and that undoes
    the allocation. If a free block was reused, whole or in part, the heap has the blocks that it had
    before, as many bytes, and the same blocks on each list. If the memory grew, all that is left
    of it is more free space at the end. -/
theorem Reachable.free_undoes_allocate (hs : Reachable region settings s)
    (hres : (s.heap.allocate size).result = .ok (.ok (some p), h₁)) :
    ∃ needed h₂, Request.blockSize size = .ok (some needed) ∧
      (h₁.free (some p)).result = .ok h₂ ∧ s.heap.Undoes needed p h₁ h₂ := by
  obtain ⟨P, hP⟩ := hs.exists_sound
  have hr := hP.realizes
  cases (Heap.allocate_ends hr size).of_ok hres with
  | @given _ o needed m' P' h0 hb hp hg =>
    obtain ⟨k, -, hk⟩ := hg.mem_places
    obtain ⟨m'', P'', hfree, ht, hsize⟩ := Heap.exists_free_of_size hg.realizes hp hk
    exact ⟨needed, _, hb, hfree, hr.undoes hb h0 hres hg ht hsize⟩

/-- A request that a part of a free block serves, and one that makes the memory grow. -/
theorem Reachable.free_undoes_allocate_of_run : ∃ s,
    (start? (Region.empty 4096) {}).bind (fun t => t.run?
      [.allocate 16, .allocate 300, .allocate 16, .allocate 40,
        .free (some ⟨136, by decide⟩), .free (some ⟨488, by decide⟩)]) = some s ∧
    (∃ h₁ h₂, (s.heap.allocate 200).result = .ok (.ok (some ⟨136, by decide⟩), h₁) ∧
      (h₁.free (some ⟨136, by decide⟩)).result = .ok h₂ ∧ s.heap.SameLayout h₂) ∧
    ∃ h₁ h₂, (s.heap.allocate 1000).result = .ok (.ok (some ⟨544, by decide⟩), h₁) ∧
      (h₁.free (some ⟨544, by decide⟩)).result = .ok h₂ ∧
      h₂.memory.size = s.heap.memory.size + 1016 := by
  have hrun : ((start? (Region.empty 4096) {}).bind (fun t => t.run?
      [.allocate 16, .allocate 300, .allocate 16, .allocate 40,
        .free (some ⟨136, by decide⟩), .free (some ⟨488, by decide⟩)])).map
      (fun s => decide (s.heap.index.firstFit s.heap.memory 216 = .ok (some 128) ∧
        s.heap.index.firstFit s.heap.memory 1016 = .ok none ∧
        Prod.fst <$> (s.heap.allocate 200).result = .ok (.ok (some ⟨136, by decide⟩)) ∧
        Prod.fst <$> (s.heap.allocate 1000).result = .ok (.ok (some ⟨544, by decide⟩)))) =
          some true := by
    decide +kernel
  obtain ⟨s, hs, hshape⟩ := Option.map_eq_some_iff.mp hrun
  obtain ⟨hfit, hnone, hreused, hgrown⟩ := of_decide_eq_true hshape
  have hreach : Reachable (Region.empty 4096) {} s := reachable_iff.mpr ⟨_, hs⟩
  obtain ⟨⟨_, h₁⟩, hres, rfl⟩ := map_eq_ok_iff.mp hreused
  obtain ⟨needed, h₂, hb, hfree, hundoes⟩ := Reachable.free_undoes_allocate hreach hres
  cases (hb.symm.trans (rfl : Request.blockSize 200 = .ok (some 216)))
  obtain ⟨⟨_, h₁'⟩, hres', rfl⟩ := map_eq_ok_iff.mp hgrown
  obtain ⟨needed, h₂', hb', hfree', hundoes'⟩ := Reachable.free_undoes_allocate hreach hres'
  cases (hb'.symm.trans (rfl : Request.blockSize 1000 = .ok (some 1016)))
  refine ⟨s, hs, ⟨h₁, h₂, hres, hfree, ?_⟩, h₁', h₂', hres', hfree', ?_⟩
  · cases hundoes with
    | reused _ _ _ hlayout => exact hlayout
    | grown hnot => cases hfit.symm.trans hnot
  · cases hundoes' with
    | reused hsome => cases hnone.symm.trans hsome
    | grown _ hsize hkept => exact hkept.trans hsize

end Session

end BoundaryTag
