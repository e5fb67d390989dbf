import BoundaryTag.Proofs.Session.FirstFit
import BoundaryTag.Proofs.Session.Resizing

set_option autoImplicit false

/-! # Exhaustion

A block that cannot grow where it is moves to wherever a new block would be, so a request to
resize it is refused for want of memory only if a request for a new block would be refused as
well. The last allocated block of the heap never moves: with the free block after it, if there is
one, it grows at the end or not at all, and is refused as soon as the region cannot grow by what it
lacks. That is how `Reachable.exhausts` has it, and there may well be a free block elsewhere that is
large enough (`Reachable.refused_despite_fit`). -/

open BoundaryTag.Span (total freeSpan)

namespace BoundaryTag

namespace Heap

variable {h h' : Heap} {P Q : Plan} {before after : List Span} {right : Option Nat} {p : Handle}
  {o k n size needed usable : Nat} {e : Refusal} {f : FreeEntry}
  {answer : Except Fault (Outcome (Option Handle))}

/-- Why the block of `k` bytes with the spans `rest` after it is not made as large as `needed`, in a
    heap that lists the free blocks `es`, if the refusal is `e`. -/
structure Exhausts (h : Heap) (es : List FreeEntry) (rest : List Span) (k size needed : Nat)
    (e : Refusal) : Prop where
  lt : k < needed
  /-- Only a free block could serve a request for a new block. -/
  refused : (∀ f ∈ es, f.size < needed) → (h.allocate size).result =
    .ok (.error (.outOfMemory needed h.memory.size h.region.limit), h)
  /-- With an allocated block behind it, the block would have gone to a free one. -/
  inside : (∃ s ∈ rest, s.allocated = true) →
    (∀ f ∈ es, f.size < needed) ∧ e = .outOfMemory needed h.memory.size h.region.limit
  /-- The last allocated block lacks more than the region can grow by. -/
  last : (∀ s ∈ rest, s.allocated = false) →
    e = .outOfMemory (needed - k - total rest) h.memory.size h.region.limit ∧
      h.region.limit < h.memory.size + (needed - k - total rest)

/-- Growth is refused only for want of room. -/
theorem GrowsBy.of_refused (hg : h.GrowsBy p n Q answer) (hlimit : h.region.limit < Word.limit)
    (hres : answer = .ok (.error e, h')) :
    e = .outOfMemory n h.memory.size h.region.limit ∧ h.region.limit < h.memory.size + n := by
  rw [GrowsBy] at hg
  rcases h.region.result_extend_cases n with ⟨-, -, -, hext⟩ | ⟨-, -, -, hext⟩ | ⟨hfull, hext⟩
  · rw [hext] at hg
    obtain ⟨m, hanswer, -⟩ := hg
    rw [hanswer] at hres
    cases hres
  · rw [hext] at hg
    cases hg.symm.trans hres
  · rw [hext] at hg
    cases hg.symm.trans hres
    have hsize : h.region.size = h.memory.size := rfl
    exact ⟨rfl, by omega⟩

/-- A move is refused only if there is no new block to move to. -/
theorem MovesTo.of_refused (hm : h.MovesTo p usable size answer)
    (hres : answer = .ok (.error e, h')) : ∃ h₁, (h.allocate size).result = .ok (.error e, h₁) := by
  rw [MovesTo] at hm
  split at hm
  · exact absurd hm id
  · obtain ⟨m, h₁, -, -, hanswer, -⟩ := hm
    rw [hanswer] at hres
    cases hres
  · rename_i hallocate
    cases hm.symm.trans hres
    exact ⟨_, hallocate⟩
  · cases hm.symm.trans hres

namespace Realizes

/-- A free block that is large enough is found. -/
theorem exists_find?_entries (hf : f ∈ entries h P) (hle : needed ≤ f.size) :
    ∃ f', (entries h P).find? (needed ≤ ·.size) = some f' := by
  rw [← Option.isSome_iff_exists, List.find?_isSome]
  exact ⟨f, hf, by simpa using hle⟩

/-- A request that some free block can serve is not refused. -/
theorem entries_lt_of_refused (hr : h.Realizes P) (h0 : size ≠ 0)
    (hb : Request.blockSize size = .ok (some needed))
    (hres : (h.allocate size).result = .ok (.error e, h')) :
    ∀ f ∈ entries h P, f.size < needed := by
  intro f hf
  by_contra hle
  obtain ⟨f', hfind⟩ := exists_find?_entries hf (Nat.not_lt.mp hle)
  obtain ⟨hfit, before, after, hP, ho, hle', hnext⟩ := hr.exists_of_find?_entries hfind
  cases ht : h.settings.splitThreshold with
  | error fault =>
    cases hres.symm.trans (allocate_of_acquire_error h0 hb (acquire_eq_error hr ht hfit))
  | ok t =>
    obtain ⟨q, m, hserved, -⟩ := allocate_of_fit hr ht h0 hb hfit hP ho hle' hnext
    cases hres.symm.trans hserved

/-- Without a free block that is large enough nothing is found. -/
theorem firstOf_eq_none_of_entries_lt (hr : h.Realizes P)
    (hsmall : ∀ f ∈ entries h P, f.size < needed) :
    h.index.firstOf P.lists (Span.sizeFrom h.start P.spans) needed = none :=
  hr.firstOf_eq_none (List.find?_eq_none.mpr fun f hf => by simpa using hsmall f hf)

/-- A request for a new block is refused only for want of room for it. -/
theorem full_of_refused (hr : h.Realizes P) (hlimit : h.region.limit < Word.limit) (h0 : size ≠ 0)
    (hb : Request.blockSize size = .ok (some needed))
    (hres : (h.allocate size).result = .ok (.error e, h')) :
    e = .outOfMemory needed h.memory.size h.region.limit ∧
      h.region.limit < h.memory.size + needed := by
  have hfit := hr.firstOf_eq_none_of_entries_lt (hr.entries_lt_of_refused h0 hb hres)
  rcases h.region.result_extend_cases needed with ⟨hword, -, -, hext⟩ | ⟨-, -, -, hext⟩ |
    ⟨hfull, hext⟩
  · obtain ⟨q, m, hserved, -⟩ := allocate_of_granted hr h0 hb hfit hword hext
    cases hres.symm.trans hserved
  · cases hres.symm.trans (allocate_of_error hr h0 hb hfit hext)
  · cases hres.symm.trans (allocate_of_refused hr h0 hb hfit hext)
    have hsize : h.region.size = h.memory.size := rfl
    exact ⟨rfl, by omega⟩

end Realizes

section

variable (hr : h.Realizes P) (hlimit : h.region.limit < Word.limit) (h0 : size ≠ 0)
  (hb : Request.blockSize size = .ok (some needed)) (hlt : k < needed)

include hr h0 hb hlt

/-- The last allocated block was refused the bytes that it lacks. -/
theorem exhausts_of_last (hfree : ∀ s ∈ freeSpan right, s.allocated = false)
    (hrefused : e = .outOfMemory (needed - k - right.getD 0) h.memory.size h.region.limit ∧
      h.region.limit < h.memory.size + (needed - k - right.getD 0)) :
    h.Exhausts (Realizes.entries h P) (freeSpan right) k size needed e where
  lt := hlt
  refused hsmall :=
    allocate_of_refused hr h0 hb (hr.firstOf_eq_none_of_entries_lt hsmall)
      (Region.result_extend_of_lt (by
        have hsize : h.region.size = h.memory.size := rfl
        omega))
  inside := by
    rintro ⟨s, hs, hall⟩
    rw [hfree s hs] at hall
    cases hall
  last _ := by rwa [Span.total_freeSpan]

include hlimit

/-- A block with an allocated one behind it was refused a new place. -/
theorem exhausts_of_inside {rest : List Span} (hinside : ∃ s ∈ rest, s.allocated = true)
    {h₁ : Heap} (hres : (h.allocate size).result = .ok (.error e, h₁)) :
    h.Exhausts (Realizes.entries h P) rest k size needed e where
  lt := hlt
  refused hsmall :=
    allocate_of_refused hr h0 hb (hr.firstOf_eq_none_of_entries_lt hsmall)
      (Region.result_extend_of_lt (hr.full_of_refused hlimit h0 hb hres).2)
  inside _ :=
    ⟨hr.entries_lt_of_refused h0 hb hres, (hr.full_of_refused hlimit h0 hb hres).1⟩
  last hall := by
    obtain ⟨s, hs, hallocated⟩ := hinside
    rw [hall s hs] at hallocated
    cases hallocated

end

/-- Taking in a free block that is enough is never refused. -/
theorem not_refused_of_absorbs (hr : h.Realizes P) (hp : p.offset = o + 8) (h0 : size ≠ 0)
    (hb : Request.blockSize size = .ok (some needed)) {r : Nat}
    (ha : h.At P before after (some r) k o) (hlt : k < needed) (hle : needed ≤ k + r) :
    (h.resize (some p) size).result ≠ .ok (.error e, h') := by
  intro hres
  rw [resize_eq_enlarge hr hp ha h0 hb hlt, growthOf, if_pos hle] at hres
  obtain ⟨m, P', heq, -⟩ :=
    (enlarge_absorbNext_ends hr ha (proper_of_blockSize hb).1 hlt hle).of_ok hres
  cases heq

/-- The refusals of a request to resize a block that is too small are those of the end of the heap,
    or those of a request for a new block. -/
theorem Realizes.exhausts_of_at (hr : h.Realizes P) (hlimit : h.region.limit < Word.limit)
    (hp : p.offset = o + 8) (ha : h.At P before after right k o) (h0 : size ≠ 0)
    (hb : Request.blockSize size = .ok (some needed))
    (hres : (h.resize (some p) size).result = .ok (.error e, h')) :
    h.Exhausts (entries h P) (freeSpan right ++ after) k size needed e := by
  have hlt : k < needed := by
    by_contra hle
    cases hres.symm.trans (resize_of_le hr hp ha h0 hb (Nat.not_lt.mp hle))
  have hmoves : ∀ t ts, after = t :: ts → growthOf k needed right after = .move →
      h.Exhausts (entries h P) (freeSpan right ++ after) k size needed e := by
    rintro t ts rfl hway
    obtain ⟨h₁, hallocate⟩ := (moves_of_at hr hp h0 hb ha hlt hway).of_refused hres
    refine exhausts_of_inside hr hlimit h0 hb hlt ⟨t, ?_, ha.next⟩ hallocate
    exact List.mem_append_right _ List.mem_cons_self
  cases right with
  | none =>
    cases after with
    | nil =>
      have hnone : ∀ s ∈ freeSpan none, s.allocated = false := nofun
      exact exhausts_of_last hr h0 hb hlt hnone
        ((growsLast_of_at hr hp h0 hb ha hlt).of_refused hlimit hres)
    | cons t ts => exact hmoves t ts rfl (by rw [growthOf, if_neg (List.cons_ne_nil t ts)])
  | some r =>
    by_cases hle : needed ≤ k + r
    · exact absurd hres (not_refused_of_absorbs hr hp h0 hb ha hlt hle)
    cases after with
    | nil =>
      rw [List.append_nil]
      exact exhausts_of_last hr h0 hb hlt (by simp)
        ((absorbsLast_of_at hr hp h0 hb ha (Nat.not_le.mp hle)).of_refused hlimit hres)
    | cons t ts =>
      refine hmoves t ts rfl ?_
      rw [growthOf, if_neg hle, if_neg (List.cons_ne_nil t ts)]

end Heap

namespace Session

variable {region : Region} {settings : Settings} {s : Session} {p : Handle} {h' : Heap}
  {n used limit size : Nat}

/-- In every reachable session, a request to resize a live handle that is refused for want of
    memory is one for which no free block is large enough, and a request for a new block is refused
    likewise, unless the handle has the last allocated block of the heap. Then that block lacks more
    than the region can grow by. -/
theorem Reachable.exhausts (hs : Reachable region settings s) (hlimit : region.limit < Word.limit)
    (hlive : s.IsLive p) (h0 : size ≠ 0) (hres : (s.heap.resize (some p) size).result =
      .ok (.error (.outOfMemory n used limit), h')) :
    ∃ P before k rest needed es, s.heap.Shows P ∧ P.spans = before ++ ⟨k, true⟩ :: rest ∧
      p.offset = s.heap.start + total before + 8 ∧
      Request.blockSize size = .ok (some needed) ∧ s.heap.freeEntries = .ok es ∧
      s.heap.Exhausts es rest k size needed (.outOfMemory n used limit) := by
  obtain ⟨P, hP⟩ := hs.exists_sound
  obtain ⟨o, k, ho, hk⟩ := hP.place_of_live hlive
  obtain ⟨before, right, after, ha⟩ := hP.realizes.exists_at hk
  have hregion : s.heap.region.limit = region.limit := by rw [hs.region_eq]
  rw [← hregion] at hlimit
  cases hb : Request.blockSize size with
  | error f =>
    rw [Heap.resize, if_neg h0, Traced.result_bind, Traced.result_lift, hb] at hres
    cases hres
  | ok request =>
    cases request with
    | none =>
      rw [Heap.resize, if_neg h0, Traced.result_bind, Traced.result_lift, hb] at hres
      cases hres
    | some needed =>
      exact ⟨P, before, k, _, needed, _, hP.realizes.shows, ha.spans_eq, by rw [ho, ha.offset_eq],
        rfl, hP.realizes.freeEntries_eq, hP.realizes.exhausts_of_at hlimit ho ha h0 hb hres⟩

/-- A block between allocated ones is to have 120 bytes, but the only free block has 56 and the
    region has no room for a new one. -/
theorem Reachable.exhausts_of_run : ∃ s es, (start? (Region.empty 300) {}).bind (fun t => t.run?
      [.allocate 40, .allocate 16, .allocate 16, .free (some ⟨104, by decide⟩)]) = some s ∧
    s.IsLive ⟨160, by decide⟩ ∧
    (∃ h', (s.heap.resize (some ⟨160, by decide⟩) 100).result =
      .ok (.error (.outOfMemory 120 224 300), h')) ∧
    s.heap.freeEntries = .ok es ∧ (∀ f ∈ es, f.size < 120) ∧
    (s.heap.allocate 100).result = .ok (.error (.outOfMemory 120 224 300), s.heap) := by
  have hrun : ((start? (Region.empty 300) {}).bind (fun t => t.run?
      [.allocate 40, .allocate 16, .allocate 16, .free (some ⟨104, by decide⟩)])).map
      (fun s => decide (s.IsLive ⟨160, by decide⟩ ∧ s.heap.start = 96 ∧ s.heap.memory.size = 224 ∧
        Prod.fst <$> (s.heap.resize (some ⟨160, by decide⟩) 100).result =
          .ok (.error (.outOfMemory 120 224 300)) ∧
        s.heap.blocks = .ok (Span.layout 96 true
          [⟨56, false⟩, ⟨32, true⟩, ⟨32, true⟩]))) = some true := by
    decide +kernel
  obtain ⟨s, hs, hshape⟩ := Option.map_eq_some_iff.mp hrun
  obtain ⟨hlive, hstart, hsize, heq, hblocks⟩ := of_decide_eq_true hshape
  obtain ⟨⟨answer, h'⟩, hres, rfl⟩ := map_eq_ok_iff.mp heq
  have hreach : Reachable (Region.empty 300) {} s := reachable_iff.mpr ⟨_, hs⟩
  obtain ⟨P, before, k, rest, needed, es, hshows, hP, hp, hb, hes, hex⟩ :=
    Reachable.exhausts hreach (by decide) hlive (by decide) hres
  rw [← hstart] at hblocks
  have hspans := hshows.spans_eq hblocks
  rw [hP] at hspans
  cases hb.symm.trans (rfl : Request.blockSize 100 = .ok (some 120))
  rw [hstart] at hp
  match before, hspans, hp with
  | [], hspans, hp => cases hspans
  | [b], hspans, hp =>
    obtain ⟨-, hrest⟩ := List.cons.inj hspans
    obtain ⟨hk, rfl⟩ := List.cons.inj hrest
    have hsmall := (hex.inside ⟨_, List.mem_singleton_self _, rfl⟩).1
    have hrefused := hex.refused hsmall
    rw [hsize, hreach.region_eq] at hrefused
    exact ⟨s, es, hs, hlive, ⟨h', hres⟩, hes, hsmall, hrefused⟩
  | b :: b' :: bs, hspans, hp =>
    -- the handle is not that of a later block
    obtain ⟨rfl, hrest⟩ := List.cons.inj hspans
    obtain ⟨rfl, -⟩ := List.cons.inj hrest
    rw [Span.total_cons, Span.total_cons] at hp
    dsimp only at hp
    omega

/-- After these commands in an empty region of this limit, the live handle `p` is refused to be
    resized, while a new block of that size is served, with the handle `q`. -/
def StuckAfter (limit : Nat) (cs : List Command) (p : Handle) (size : Nat) (e : Refusal)
    (q : Handle) : Prop :=
  ∃ s h₁ h₂, (start? (Region.empty limit) {}).bind (fun t => t.run? cs) = some s ∧ s.IsLive p ∧
    (s.heap.resize (some p) size).result = .ok (.error e, h₁) ∧
    (s.heap.allocate size).result = .ok (.ok (some q), h₂)

theorem stuckAfter_of_run {cs : List Command} {e : Refusal} {q : Handle}
    (hrun : ((start? (Region.empty limit) {}).bind (fun t => t.run? cs)).map (fun s =>
      decide (s.IsLive p ∧ Prod.fst <$> (s.heap.resize (some p) size).result = .ok (.error e) ∧
        Prod.fst <$> (s.heap.allocate size).result = .ok (.ok (some q)))) = some true) :
    StuckAfter limit cs p size e q := by
  obtain ⟨s, hs, hshape⟩ := Option.map_eq_some_iff.mp hrun
  obtain ⟨hlive, hresize, hallocate⟩ := of_decide_eq_true hshape
  obtain ⟨⟨answer, h₁⟩, hresize, rfl⟩ := map_eq_ok_iff.mp hresize
  obtain ⟨⟨answer', h₂⟩, hallocate, rfl⟩ := map_eq_ok_iff.mp hallocate
  exact ⟨s, h₁, h₂, hs, hlive, hresize, hallocate⟩

/-- The handle is that of the last allocated block, in the second run with a free block after it.
    The region cannot grow by what the block lacks, but the first block of the heap is free and has
    216 bytes. -/
theorem Reachable.refused_despite_fit :
    StuckAfter 420 [.allocate 200, .allocate 16, .allocate 16, .free (some ⟨104, by decide⟩)]
      ⟨352, by decide⟩ 100 (.outOfMemory 88 384 420) ⟨104, by decide⟩ ∧
    StuckAfter 448 [.allocate 200, .allocate 16, .allocate 16, .allocate 16,
        .free (some ⟨104, by decide⟩), .free (some ⟨384, by decide⟩)]
      ⟨352, by decide⟩ 150 (.outOfMemory 104 416 448) ⟨104, by decide⟩ :=
  ⟨stuckAfter_of_run (by decide +kernel), stuckAfter_of_run (by decide +kernel)⟩

end Session

end BoundaryTag
