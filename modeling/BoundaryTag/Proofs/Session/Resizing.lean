import BoundaryTag.Proofs.Heap.Contents
import BoundaryTag.Proofs.Heap.Resize
import BoundaryTag.Proofs.Heap.Shown
import BoundaryTag.Proofs.Session.Effect

set_option autoImplicit false

/-! # Resizing from end to end

What becomes of a block that is resized depends on its size and on what comes after it, and on
nothing else (`Heap.ResizesAt`): it stays as it is, takes in the free block after it, grows with the
memory if the heap ends there, or moves. In every reachable session a live handle can be resized,
and its block is resized so (`Reachable.resizes`). -/

open BoundaryTag.Span (total nextAllocated freeSpan)

namespace BoundaryTag

open FreeIndex (without)

namespace Heap

/-- The answer, if it takes `n` more bytes to make the block of `p` as large as needed. If the region
    grants them, the handle stays and the heap shows the plan `Q` after it; whatever keeps the
    region from it is passed on, and a refusal leaves the heap as it was. -/
def GrowsBy (h : Heap) (p : Handle) (n : Nat) (Q : Plan)
    (answer : Except Fault (Outcome (Option Handle))) : Prop :=
  match (h.region.extend n).result with
  | .ok (.ok _, _) => ∃ m, answer = .ok (.ok (some p), h.withMemory m) ∧
      m.size = h.memory.size + n ∧ (h.withMemory m).Shows Q
  | .ok (.error refusal, _) => answer = .ok (.error refusal, h)
  | .error fault => answer = .error fault

/-- The answer, if the payload of `p`, of `usable` bytes, has to move. It is the answer to a request
    for a new block; if there is one, then as many bytes as both have room for are copied, and `p`
    is freed. -/
def MovesTo (h : Heap) (p : Handle) (usable size : Nat)
    (answer : Except Fault (Outcome (Option Handle))) : Prop :=
  match (h.allocate size).result with
  | .ok (.ok none, _) => False
  | .ok (.ok (some q), h₁) => ∃ m h',
      h₁.memory.copy p.offset q.offset (min size usable) = .ok m ∧
        ((h₁.withMemory m).free (some p)).result = .ok h' ∧ answer = .ok (.ok (some q), h') ∧
        h'.memory.load q.offset (min size usable) = h.memory.load p.offset (min size usable)
  | .ok (.error refusal, _) => answer = .ok (.error refusal, h)
  | .error fault => answer = .error fault

/-- What becomes of the block of `k` bytes after the spans `before` when its handle `p` is resized to
    `size` bytes, which need a block of `needed`. After the block come the spans `rest`, and more than
    `t` bytes are split off. -/
structure ResizesAt (h : Heap) (P : Plan) (before rest : List Span) (p : Handle)
    (k t size needed : Nat) : Prop where
  fits : needed ≤ k → (h.resize (some p) size).result = .ok (.ok (some p), h)
  absorbs : ∀ r after, rest = ⟨r, false⟩ :: after → k < needed → needed ≤ k + r →
    ∃ m, (h.resize (some p) size).result = .ok (.ok (some p), h.withMemory m) ∧
      m.size = h.memory.size ∧ (h.withMemory m).ShowsCut before after
        (without P.lists (h.start + total before + k)) t (h.start + total before) (k + r) needed
  absorbsLast : ∀ r, rest = [⟨r, false⟩] → k + r < needed →
    h.GrowsBy p (needed - k - r)
      ⟨before ++ [⟨needed, true⟩], without P.lists (h.start + total before + k)⟩
      (h.resize (some p) size).result
  growsLast : rest = [] → k < needed →
    h.GrowsBy p (needed - k) ⟨before ++ [⟨needed, true⟩], P.lists⟩ (h.resize (some p) size).result
  moves : k < needed → rest ≠ [] →
    (∀ r after, rest = ⟨r, false⟩ :: after → k + r < needed ∧ after ≠ []) →
    h.MovesTo p (k - 8) size (h.resize (some p) size).result

variable {h : Heap} {P : Plan} {before after : List Span} {right : Option Nat} {p : Handle}
  {o k t size needed : Nat}

/-- An answer that passes on each answer of the region goes by the region. -/
theorem GrowsBy.of_extend {n : Nat} {Q : Plan}
    {answer : Except Fault (Outcome (Option Handle))}
    (hgranted : h.memory.size + n < Word.limit →
      (h.region.extend n).result =
        .ok (.ok h.region.size, { h.region with memory := h.memory.grow n }) →
      ∃ m, answer = .ok (.ok (some p), h.withMemory m) ∧ m.size = h.memory.size + n ∧
        (h.withMemory m).Shows Q)
    (hrefused : ∀ e, (h.region.extend n).result = .ok (.error e, h.region) →
      answer = .ok (.error e, h))
    (herror : ∀ f, (h.region.extend n).result = .error f → answer = .error f) :
    h.GrowsBy p n Q answer := by
  rw [GrowsBy]
  rcases h.region.result_extend_cases n with ⟨hword, -, -, hext⟩ | ⟨-, -, -, hext⟩ | ⟨-, hext⟩
  · rw [hext]
    exact hgranted hword hext
  · rw [hext]
    exact herror _ hext
  · rw [hext]
    exact hrefused _ hext

/-- A free span that comes next in a row is the free neighbour. -/
theorem At.eq_of_next_free (ha : h.At P before after right k o) {r : Nat} {ts : List Span}
    (hnext : freeSpan right ++ after = ⟨r, false⟩ :: ts) : right = some r ∧ after = ts := by
  cases right with
  | none =>
    rw [Span.freeSpan_none, List.nil_append] at hnext
    have hall := ha.next
    rw [hnext] at hall
    exact absurd hall (by simp [nextAllocated])
  | some r' =>
    rw [Span.freeSpan_some, List.singleton_append, List.cons.injEq, Span.mk.injEq] at hnext
    exact ⟨congrArg some hnext.1.1, hnext.2⟩

/-- The memory is larger by what the last block and the free one after it lacked. -/
theorem At.size_eq_of_last (hr : h.Realizes P) (ha : h.At P before [] right k o) {m : Memory}
    {lists : Nat → List Nat} (hreal : (h.withMemory m).Realizes ⟨before ++ [⟨needed, true⟩], lists⟩)
    (hle : k + right.getD 0 ≤ needed) :
    m.size = h.memory.size + (needed - k - right.getD 0) := by
  have hsize := hr.size_eq
  have hsize' := hreal.size_eq
  have htotal := ha.total_eq
  have ho := ha.offset_eq
  simp only [start_withMemory, memory_withMemory, Span.total_append, Span.total_cons,
    Span.total_nil] at hsize' htotal
  omega

section

variable (hr : h.Realizes P) (hp : p.offset = o + 8) (h0 : size ≠ 0)
  (hb : Request.blockSize size = .ok (some needed))

include hr hp h0 hb

theorem absorbs_of_at (ht : h.settings.splitThreshold = .ok t) {r : Nat}
    (ha : h.At P before after (some r) k o) (hlt : k < needed) (hle : needed ≤ k + r) :
    ∃ m, (h.resize (some p) size).result = .ok (.ok (some p), h.withMemory m) ∧
      m.size = h.memory.size ∧
      (h.withMemory m).ShowsCut before after (without P.lists (o + k)) t o (k + r) needed := by
  obtain ⟨m, hres, hreal, hw⟩ :=
    enlarge_absorbNext_eq hr ha ht (proper_of_blockSize hb).1 hlt hle
  refine ⟨m, ?_, hw.size_eq, hreal.showsCut ht⟩
  rw [resize_eq_enlarge hr hp ha h0 hb hlt, growthOf, if_pos hle, hres]

theorem absorbsLast_of_at {r : Nat} (ha : h.At P before [] (some r) k o)
    (hlt : k + r < needed) :
    h.GrowsBy p (needed - k - r) ⟨before ++ [⟨needed, true⟩], without P.lists (o + k)⟩
      (h.resize (some p) size).result := by
  have hneeded := (proper_of_blockSize hb).1
  rw [resize_eq_enlarge hr hp ha h0 hb (by omega), growthOf, if_neg (by omega), if_pos rfl]
  refine .of_extend (fun hword hext => ?_) (fun _ => enlarge_absorbLast_of_refused hr ha hlt)
    (fun _ => enlarge_absorbLast_of_error hr ha hlt)
  obtain ⟨m, hres, hreal, -⟩ := enlarge_absorbLast_of_granted hr ha hneeded hlt hword hext
  exact ⟨m, hres, ha.size_eq_of_last hr hreal hlt.le, hreal.shows⟩

theorem growsLast_of_at (ha : h.At P before [] none k o) (hlt : k < needed) :
    h.GrowsBy p (needed - k) ⟨before ++ [⟨needed, true⟩], P.lists⟩
      (h.resize (some p) size).result := by
  have hneeded := (proper_of_blockSize hb).1
  rw [resize_eq_enlarge hr hp ha h0 hb hlt, growthOf, if_pos rfl]
  refine .of_extend (fun hword hext => ?_) (fun _ => enlarge_growLast_of_refused hlt rfl)
    (fun _ => enlarge_growLast_of_error hlt rfl)
  obtain ⟨m, hres, hreal, -⟩ := enlarge_growLast_of_granted hr ha hneeded hlt hword hext
  exact ⟨m, hres, ha.size_eq_of_last hr hreal hlt.le, hreal.shows⟩

/-- Where no other way is left the payload moves. -/
theorem moves_of_at (ha : h.At P before after right k o) (hlt : k < needed)
    (hway : growthOf k needed right after = .move) :
    h.MovesTo p (k - 8) size (h.resize (some p) size).result := by
  have hk : (o, k) ∈ Span.places true h.start P.spans := by
    rw [ha.places_true_eq]
    simp
  rw [resize_eq_enlarge hr hp ha h0 hb hlt, hway, enlarge, MovesTo]
  have hends := allocate_ends hr size
  cases hres : (h.allocate size).result with
  | error f =>
    dsimp only
    rw [move, Traced.result_bind, hres]
    rfl
  | ok r =>
    cases hends.of_ok hres with
    | refused _ =>
      dsimp only
      rw [move, Traced.result_bind, hres]
      rfl
    | nothing hzero => exact absurd hzero h0
    | given _ hb' hq hgives =>
      obtain ⟨m₂, m₃, P₃, hmove, hmoves, hfree⟩ :=
        move_of_given hp hk (proper_of_blockSize hb').2 hq hgives hres
      have hfits := (proper_of_blockSize hb').2
      refine ⟨m₂, h.withMemory m₃, ?_, hfree, hmove, ?_⟩
      · rw [hp, hq]
        exact hmoves.copy_eq
      · rw [hp, hq]
        exact hmoves.load_moved hr hk (Nat.min_le_right _ _) (by omega)

end

namespace Realizes

/-- The block of an allocated span is resized as its neighbourhood has it. -/
theorem resizesAt (hr : h.Realizes P) (hp : p.offset = o + 8)
    (ha : h.At P before after right k o) (ht : h.settings.splitThreshold = .ok t)
    (h0 : size ≠ 0) (hb : Request.blockSize size = .ok (some needed)) :
    h.ResizesAt P before (freeSpan right ++ after) p k t size needed where
  fits := resize_of_le hr hp ha h0 hb
  absorbs r ts hnext hlt hle := by
    obtain ⟨rfl, rfl⟩ := ha.eq_of_next_free hnext
    rw [ha.offset_eq]
    exact absorbs_of_at hr hp h0 hb ht ha hlt hle
  absorbsLast r hnext hlt := by
    obtain ⟨rfl, rfl⟩ := ha.eq_of_next_free hnext
    rw [ha.offset_eq]
    exact absorbsLast_of_at hr hp h0 hb ha hlt
  growsLast hnil hlt := by
    obtain ⟨hright, rfl⟩ := List.append_eq_nil_iff.mp hnil
    cases right with
    | none => exact growsLast_of_at hr hp h0 hb ha hlt
    | some r => cases hright
  moves hlt hne hfar := by
    refine moves_of_at hr hp h0 hb ha hlt ?_
    cases right with
    | none => exact if_neg hne
    | some r =>
      obtain ⟨hsmall, hafter⟩ := hfar r after rfl
      rw [growthOf, if_neg (Nat.not_le.mpr hsmall), if_neg hafter]

end Realizes

end Heap

namespace Session

variable {region : Region} {settings : Settings} {s : Session} {p : Handle} {t size needed : Nat}

/-- In every reachable session of a heap whose split threshold is a word, the block of a live handle
    is resized by what comes after it. -/
theorem Reachable.resizes (hs : Reachable region settings s)
    (ht : settings.splitThreshold = .ok t) (hlive : s.IsLive p) (h0 : size ≠ 0)
    (hb : Request.blockSize size = .ok (some needed)) :
    ∃ P before k rest, s.heap.Shows P ∧ P.spans = before ++ ⟨k, true⟩ :: rest ∧
      p.offset = s.heap.start + total before + 8 ∧ s.heap.usableSize p = .ok (k - 8) ∧
      s.heap.ResizesAt P before rest p k t size needed := by
  obtain ⟨P, hP⟩ := hs.exists_sound
  obtain ⟨o, k, ho, hk⟩ := hP.place_of_live hlive
  obtain ⟨before, right, after, ha⟩ := hP.realizes.exists_at hk
  rw [← hs.settings_eq] at ht
  refine ⟨P, before, k, freeSpan right ++ after, hP.realizes.shows, ha.spans_eq, ?_,
    hP.realizes.usableSize_eq ho hk, hP.realizes.resizesAt ho ha ht h0 hb⟩
  rw [ho, ha.offset_eq]

/-- A block of 32 bytes takes in the free one of 320 bytes after it, and gives back what is left. -/
theorem Reachable.resizes_of_run : ∃ s P m, (start? (Region.empty 4096) {}).bind (fun t => t.run?
      [.allocate 16, .allocate 300, .allocate 16, .allocate 16,
        .free (some ⟨136, by decide⟩)]) = some s ∧ s.IsLive ⟨104, by decide⟩ ∧ s.heap.Shows P ∧
    P.spans = [⟨32, true⟩, ⟨320, false⟩, ⟨32, true⟩, ⟨32, true⟩] ∧
    (s.heap.resize (some ⟨104, by decide⟩) 40).result =
      .ok (.ok (some ⟨104, by decide⟩), s.heap.withMemory m) ∧
    (s.heap.withMemory m).ShowsCut [] [⟨32, true⟩, ⟨32, true⟩] (without P.lists 128) 56 96 352
      56 := by
  have hrun : ((start? (Region.empty 4096) {}).bind (fun t => t.run?
      [.allocate 16, .allocate 300, .allocate 16, .allocate 16,
        .free (some ⟨136, by decide⟩)])).map (fun s => decide (
          s.IsLive ⟨104, by decide⟩ ∧ s.heap.start = 96 ∧ s.heap.blocks =
            .ok (Span.layout 96 true [⟨32, true⟩, ⟨320, false⟩, ⟨32, true⟩, ⟨32, true⟩]))) =
              some true := by
    decide +kernel
  obtain ⟨s, hs, hshape⟩ := Option.map_eq_some_iff.mp hrun
  obtain ⟨hlive, hstart, hblocks⟩ := of_decide_eq_true hshape
  have hreach : Reachable (Region.empty 4096) {} s := reachable_iff.mpr ⟨_, hs⟩
  obtain ⟨P, before, k, rest, hshows, hP, hp, -, hat⟩ :=
    Reachable.resizes hreach (t := 56) rfl hlive (by decide : 40 ≠ 0)
      (rfl : Request.blockSize 40 = .ok (some 56))
  rw [← hstart] at hblocks
  have hspans := hshows.spans_eq hblocks
  rw [hP] at hspans
  cases before with
  | nil =>
    obtain ⟨hk, rfl⟩ := List.cons.inj hspans
    cases hk
    obtain ⟨m, hres, -, hcut⟩ := hat.absorbs 320 _ rfl (by decide) (by decide)
    rw [hstart] at hcut
    exact ⟨s, P, m, hs, hlive, hshows, hP, hres, hcut⟩
  | cons b bs =>
    -- the first block is that of the handle
    obtain ⟨rfl, -⟩ := List.cons.inj hspans
    rw [hstart, Span.total_cons] at hp
    dsimp only at hp
    omega

end Session

end BoundaryTag
