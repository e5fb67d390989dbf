import BoundaryTag.Heap.Operations
import BoundaryTag.Proofs.Heap.Check
import BoundaryTag.Proofs.Heap.Merge
import BoundaryTag.Proofs.Heap.Outcome

set_option autoImplicit false

/-! # Freeing keeps the invariant

`free_eq`: on a heap that realizes a plan, freeing an allocated span has a result, which realizes
the plan with the span and its free neighbours replaced by one free span, at the front of the list
of its class. Nothing is written outside that span, the tag after it, and the links of the lists. -/

open BoundaryTag.Span (total layout tags lastAllocated nextAllocated freeSpan tags_append
  layout_append)

namespace BoundaryTag.Heap

open Memory (Touches Within)
open FreeIndex (without pushed)

variable {h : Heap} {P : Plan} {p : Handle} {before after : List Span} {left right : Option Nat}
  {s o : Nat}

/-- The plan after the allocated span with these neighbours was freed. -/
def freed (x : FreeIndex) (P : Plan) (before after : List Span) (left right : Option Nat)
    (s o : Nat) : Plan where
  spans := before ++ ([⟨left.getD 0 + s + right.getD 0, false⟩] ++ after)
  lists := pushed (without (without P.lists o) (o + left.getD 0 + s))
    (x.classify (left.getD 0 + s + right.getD 0)) o

theorem block_eq_ok_iff {b : Nat} : p.block = .ok b ↔ p.offset = b + 8 := by
  rw [Handle.block, Word.sub_eq_ok_iff, Nat.add_comm]

/-- An allocated block is made free and the block after it is told. -/
theorem exists_format (hr : h.Realizes P)
    (hP : P.spans = before ++ (freeSpan left ++ ⟨s, true⟩ :: (freeSpan right ++ after)))
    (ho : h.start + total before = o) (hnext : nextAllocated after = true) :
    ∃ m₁ m₂, h.memory.formatFree (o + left.getD 0) s
        (lastAllocated true (before ++ freeSpan left)) = .ok m₁ ∧
      m₁.successor (o + left.getD 0) = .ok (o + left.getD 0 + s) ∧
      m₁.markPrevAllocated (o + left.getD 0 + s) false = .ok m₂ ∧
      Charted h.index h.start m₂ (tags h.start true
        (before ++ (freeSpan left ++ ⟨s, false⟩ :: (freeSpan right ++ after)))) P.lists ∧
      Within (fun w => o ≤ w ∧ w ≤ o + (left.getD 0 + s + right.getD 0)) h.memory m₂ := by
  have hchart := hr.charted
  obtain ⟨h32, hmod⟩ := hr.proper ⟨s, true⟩ (by rw [hP]; simp)
  dsimp only at h32 hmod
  have hrow : tags h.start true
      (before ++ (freeSpan left ++ ⟨s, true⟩ :: (freeSpan right ++ after))) =
      layout h.start true (before ++ freeSpan left) ++
        [⟨o + left.getD 0, ⟨s, true, lastAllocated true (before ++ freeSpan left)⟩⟩] ++
        tags (o + left.getD 0 + s) true (freeSpan right ++ after) := by
    simp [tags_append, layout_append, ← ho, Nat.add_assoc]
  rw [hP, hrow] at hchart
  have hgap := hchart.drop (by
    rw [List.forall_mem_singleton]
    exact fun hfalse => absurd hfalse (by simp))
  have ho' : h.start + total (before ++ freeSpan left) = o + left.getD 0 := by
    rw [Span.total_append, Span.total_freeSpan, ← Nat.add_assoc, ho]
  obtain ⟨m₁, m₂, hm₁, hsucc, hm₂, h₂, hw⟩ := exists_formatGap ho' hgap h32 hmod
  rw [List.append_assoc] at h₂
  refine ⟨m₁, m₂, hm₁, hsucc, hm₂, h₂, hw.mono ?_⟩
  rintro w (hw | ⟨k, ts, hk, rfl⟩)
  · omega
  -- the footer is that of the right neighbour
  · cases right with
    | none =>
      rw [Span.freeSpan_none, List.nil_append] at hk
      simp [hk, nextAllocated] at hnext
    | some r =>
      simp only [Span.freeSpan_some, List.cons_append, List.cons.injEq, Span.mk.injEq, and_true]
        at hk
      rw [Option.getD_some]
      omega

/-- A listed block that is neither neighbour of the freed one stays listed. -/
theorem mem_freed (hr : h.Realizes P)
    (hP : P.spans = before ++ (freeSpan left ++ ⟨s, true⟩ :: (freeSpan right ++ after)))
    (ho : h.start + total before = o) (hnext : nextAllocated after = true) {c u : Nat}
    (hc : c < h.index.size) (hu : u ∈ P.lists c)
    (hout : u < o ∨ o + (left.getD 0 + s + right.getD 0) ≤ u) :
    u ∈ (freed h.index P before after left right s o).lists c := by
  have hchart := hr.charted
  rw [hP] at hchart
  have hs := (hchart.proper _ (middle_mem_tags ho)).word_le
  dsimp only at hs
  have hne : u ≠ o + left.getD 0 + s := by
    rintro rfl
    cases right with
    | none =>
      rw [tags_eq_append_right ho] at hchart
      exact hchart.not_mem_first hnext hc hu
    | some r =>
      have hr32 := (hchart.proper _ (right_mem_tags ho r)).least_le rfl
      simp only [Option.getD] at hout hr32
      omega
  have hmem : u ∈ without (without P.lists o) (o + left.getD 0 + s) c :=
    (List.mem_erase_of_ne hne).mpr ((List.mem_erase_of_ne (by omega)).mpr hu)
  simp only [freed, pushed]
  split
  · exact List.mem_cons_of_mem o hmem
  · exact hmem

/-- A memory that shows the row with the free span, and its lists, realizes the plan after. -/
theorem realizes_freed (hr : h.Realizes P)
    (hP : P.spans = before ++ (freeSpan left ++ ⟨s, true⟩ :: (freeSpan right ++ after)))
    (ho : h.start + total before = o) (hlast : lastAllocated true before = true)
    (hnext : nextAllocated after = true) {m : Memory} (hsize : m.size = h.memory.size)
    (hm : Charted h.index h.start m (tags h.start true
        (before ++ ⟨left.getD 0 + s + right.getD 0, false⟩ :: after))
      (freed h.index P before after left right s o).lists) :
    (h.withMemory m).Realizes (freed h.index P before after left right s o) := by
  have hmid : P.spans = before ++ ((freeSpan left ++ ⟨s, true⟩ :: freeSpan right) ++ after) := by
    rw [hP]
    simp
  have htotal : total (freeSpan left ++ ⟨s, true⟩ :: freeSpan right) =
      left.getD 0 + s + right.getD 0 := by
    simp [Nat.add_assoc]
  have hM : ⟨o, ⟨left.getD 0 + s + right.getD 0, false, true⟩⟩ ∈
      tags h.start true (before ++ ⟨left.getD 0 + s + right.getD 0, false⟩ :: after) := by
    simp [tags_append, ho, hlast]
  have hproper := hm.proper _ hM
  refine hr.replace hmid ho (.inl (by simp [htotal])) ?_ ?_ (.inr hnext) ?_ hm ?_ ?_
  · rw [List.forall_mem_singleton]
    exact ⟨hproper.least_le rfl, hproper.size_mod⟩
  · simp [Span.Coalesced, hlast]
  · rw [hsize, htotal]
    rfl
  · simp [FreeIndex.mem_pushed_self]
  · rw [htotal]
    exact fun c hc u hu hout => mem_freed hr hP ho hnext hc hu hout

/-- Links stand in whole words. -/
theorem Realizes.mod_of_linkWord (hr : h.Realizes P) {w : Nat}
    (hw : h.index.LinkWord P.lists w) : w % 8 = 0 := by
  obtain ⟨c, hc, u, hu, hwu⟩ := hw
  have hbase := hr.base_mod
  rw [FreeIndex.cycle, List.mem_cons] at hu
  rcases hu with rfl | hu
  · unfold FreeIndex.headAt at hwu
    omega
  · obtain ⟨k, hk, -⟩ := (hr.mem_lists_iff hc).mp hu
    have := hr.mod_of_place hk
    omega

/-- Writing in a stretch of whole words changes no link outside of it. -/
theorem Realizes.neighbourLink_of_within (hr : h.Realizes P) {m : Memory} {n w : Nat}
    (ho : o % 8 = 0) (hn : n % 8 = 0) (hm : Within (fun w => o ≤ w ∧ w ≤ o + n) h.memory m)
    (hw : NeighbourLink h.index P.lists m left right s o w) :
    NeighbourLink h.index P.lists h.memory left right s o w ∨ (o ≤ w ∧ w ≤ o + n) := by
  by_cases hin : o ≤ w ∧ w ≤ o + n
  · exact .inr hin
  · have hmod := hr.mod_of_linkWord hw.linkWord
    have hread : m.readWord w = h.memory.readWord w := hm.readWord_eq fun v hv => by omega
    refine .inl (hw.imp (And.imp_right ?_) (And.imp_right ?_)) <;>
    · rintro ⟨hlink, heq⟩
      exact ⟨hlink, hread ▸ heq⟩

/-- The free neighbours of an allocated block are on the lists of their classes. -/
theorem Realizes.neighbours_listed (hr : h.Realizes P)
    (hP : P.spans = before ++ (freeSpan left ++ ⟨s, true⟩ :: (freeSpan right ++ after)))
    (ho : h.start + total before = o) :
    (∀ l, left = some l → o ∈ P.lists (h.index.classify l)) ∧
      ∀ r, right = some r → o + left.getD 0 + s ∈ P.lists (h.index.classify r) := by
  have hcovers := hr.covers
  rw [hP, FreeIndex.covers_append, ho, FreeIndex.covers_append, Span.total_freeSpan] at hcovers
  constructor
  · rintro l rfl
    exact hcovers.2.1.1 rfl
  · rintro r rfl
    exact hcovers.2.2.2.1 rfl

/-- An allocated block can be freed. Besides the merged block and the tag after it, the words written
    are links that led to a free neighbour before or lead to the merged block after. -/
theorem free_eq (hr : h.Realizes P)
    (hP : P.spans = before ++ (freeSpan left ++ ⟨s, true⟩ :: (freeSpan right ++ after)))
    (ho : h.start + total before = o) (hp : p.offset = o + left.getD 0 + 8)
    (hlast : lastAllocated true before = true) (hnext : nextAllocated after = true) :
    ∃ m', (h.free (some p)).result = .ok (h.withMemory m') ∧
      (h.withMemory m').Realizes (freed h.index P before after left right s o) ∧
      Within (fun w => NeighbourLink h.index P.lists h.memory left right s o w ∨
        h.index.LinkTo P.lists m' o w ∨ (o ≤ w ∧ w ≤ o + (left.getD 0 + s + right.getD 0)))
        h.memory m' := by
  have hB : ⟨o + left.getD 0, ⟨s, true, lastAllocated true (before ++ freeSpan left)⟩⟩ ∈
      tags h.start true P.spans := by
    rw [hP]
    exact middle_mem_tags ho
  have htag := hr.charted.tagAt hB
  obtain ⟨hleft, hright⟩ := hr.neighbours_listed hP ho
  have hnot : ∀ c < h.index.size, o + left.getD 0 ∉ P.lists c := fun c hc =>
    hr.charted.not_mem_of_allocated hB rfl hc
  obtain ⟨m₁, m₂, hm₁, hsucc₁, hm₂, h₂, hw₂⟩ := exists_format hr hP ho hnext
  obtain ⟨m₃, hm₃, h₃, hw₃⟩ := merge_eq ho h₂ hlast hnext hleft hright hnot
  have hM : ⟨o, ⟨left.getD 0 + s + right.getD 0, false, true⟩⟩ ∈
      tags h.start true (before ++ ⟨left.getD 0 + s + right.getD 0, false⟩ :: after) := by
    simp [tags_append, ho, hlast]
  have h32 := (h₃.proper _ hM).least_le rfl
  have hfree : ∀ c < h.index.size, o ∉ without (without P.lists o) (o + left.getD 0 + s) c := by
    intro c hc hmem
    exact (hr.nodup_lists hc).not_mem_erase (List.mem_of_mem_erase hmem)
  obtain ⟨m₄, hm₄, h₄, hw₄⟩ := h₃.push hM rfl hfree
  have hsize₄ := h₄.sizeAt hM
  have hsize : m₄.size = h.memory.size := by rw [hw₄.size_eq, hw₃.size_eq, hw₂.size_eq]
  have hreal := realizes_freed hr hP ho hlast hnext hsize h₄
  have hmod : o % 8 = 0 := hreal.mod_of_mem_tags hM
  have hw : Within (fun w => NeighbourLink h.index P.lists h.memory left right s o w ∨
      h.index.LinkTo P.lists m₄ o w ∨ (o ≤ w ∧ w ≤ o + (left.getD 0 + s + right.getD 0)))
      h.memory m₄ := by
    refine ((hw₂.mono fun w hw => .inr (.inr hw)).trans (hw₃.mono ?_)).trans (hw₄.mono ?_)
    · rintro w (hw | hw)
      · exact (hr.neighbourLink_of_within hmod (h₃.proper _ hM).size_mod hw₂ hw).imp_right .inr
      · exact .inr (.inr hw)
    · dsimp only at h32 ⊢
      rintro w (hw | rfl | rfl)
      · exact .inr (.inl ⟨hw.1.of_without.of_without, hw.2⟩)
      · exact .inr (.inr (by omega))
      · exact .inr (.inr (by omega))
  refine ⟨m₄, ?_, hreal, hw⟩
  simp only [free, block_eq_ok_iff.mpr hp, htag, Traced.result_bind, Traced.result_lift,
    Traced.result_record, Traced.result_pure, ok_bind, hm₁, hsucc₁, hm₂, hm₃, hm₄, hsize₄,
    hreal.result_verify]

/-- An allocated block lies between two free neighbours, each of which may be missing. -/
theorem Realizes.exists_neighbours (hr : h.Realizes P) {k : Nat}
    (hk : (o, k) ∈ Span.places true h.start P.spans) :
    ∃ before left right after,
      P.spans = before ++ (freeSpan left ++ ⟨k, true⟩ :: (freeSpan right ++ after)) ∧
      h.start + total before + left.getD 0 = o ∧ lastAllocated true before = true ∧
      nextAllocated after = true := by
  obtain ⟨b, hb, hall, rfl, rfl⟩ := (Span.mem_places_iff (p := true)).mp hk
  obtain ⟨ss, ts, hspans, hoff, -⟩ := Span.exists_of_mem_layout hb
  rw [hall] at hspans
  have hcoalesced := hr.coalesced
  rw [hspans] at hcoalesced
  obtain ⟨before, left, rfl, hlast⟩ := hcoalesced.append_left.exists_freeSpan_last
  have hts := (Span.coalesced_append.mp hcoalesced).2
  obtain ⟨right, after, rfl, hnext⟩ := Span.Coalesced.exists_freeSpan_first hts.2
  refine ⟨before, left, right, after, by simp [hspans], ?_, hlast, hnext⟩
  rw [hoff, Span.total_append, Span.total_freeSpan, Nat.add_assoc]

/-- Freeing an allocated block has a result, and takes just that block. -/
theorem exists_free (hr : h.Realizes P) {k : Nat} (hp : p.offset = o + 8)
    (hk : (o, k) ∈ Span.places true h.start P.spans) :
    ∃ m' P', (h.free (some p)).result = .ok (h.withMemory m') ∧ h.Takes P o k m' P' := by
  obtain ⟨before, left, right, after, hP, ho, hlast, hnext⟩ := hr.exists_neighbours hk
  obtain ⟨m', hres, hreal, hw⟩ := free_eq (p := p) hr hP rfl (by omega) hlast hnext
  refine ⟨m', _, hres, hreal, ⟨Span.places true h.start before,
    Span.places true (o + k + right.getD 0) after, ?_, ?_⟩, hw.keeps.mono ?_⟩
  · rw [hP]
    cases left <;> cases right <;> simp [Span.places_append, Span.places, ← ho, Nat.add_assoc]
  · rw [freed]
    simp [Span.places_append, Span.places, ← ho, Nat.add_assoc]
  · rintro w (hw | hw | hw)
    · exact .inl (.inl hw.linkWord)
    · exact .inl (.inl hw.1)
    have hplaces : Span.places false h.start P.spans = Span.places false h.start before ++
        (Span.places false (h.start + total before) (freeSpan left) ++
          (Span.places false (o + k) (freeSpan right) ++
            Span.places false (o + k + right.getD 0) after)) := by
      rw [hP]
      simp [Span.places_append, Span.places, ← ho, Nat.add_assoc]
    -- the word lies in the left neighbour, in the block or in the right neighbour
    by_cases hleft : w < o
    · refine .inl (.inr (.inl ⟨h.start + total before, left.getD 0, ?_, hw.1, by omega⟩))
      cases left with
      | none =>
        rw [Option.getD_none] at ho
        omega
      | some l => simp [hplaces, Span.places]
    · by_cases hright : w ≤ o + k
      · exact .inr ⟨by omega, hright⟩
      · refine .inl (.inr (.inl ⟨o + k, right.getD 0, ?_, by omega, by omega⟩))
        cases right with
        | none =>
          rw [Option.getD_none] at hw
          omega
        | some r => simp [hplaces, Span.places]

end BoundaryTag.Heap
