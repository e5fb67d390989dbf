import BoundaryTag.Proofs.Heap.Allocate
import BoundaryTag.Proofs.Heap.Free
import BoundaryTag.Proofs.Heap.Payload

set_option autoImplicit false

/-! # Resizing keeps the invariant

A block that is too small grows in one of four ways, which depend on what comes after it
(`growth_eq`). Three of them keep the block in its place (`enlarge_ends`): it takes in the free
block after it, or the region grows behind it. The fourth moves the payload (`move_ends`): a new
block is given, the payload copied, and the old block taken. -/

open BoundaryTag.Span (total layout tags lastAllocated nextAllocated freeSpan tags_append
  layout_append)

namespace BoundaryTag.Heap

open Memory (Touches Within Keeps)
open FreeIndex (without pushed)

variable {h : Heap} {P : Plan} {p : Handle} {before after : List Span} {right : Option Nat}
  {s o k needed size : Nat}

/-- How a span of `s` bytes gets `needed`, given the free span after it and what follows. -/
def growthOf (s needed : Nat) (right : Option Nat) (after : List Span) : Growth :=
  match right with
  | none => if after = [] then .growLast else .move
  | some r =>
    if needed ≤ s + r then .absorbNext r else if after = [] then .absorbLast r else .move

/-- An allocated span, its free neighbour to the right, and the rest of the row. -/
structure At (h : Heap) (P : Plan) (before after : List Span) (right : Option Nat) (s o : Nat) :
    Prop where
  spans_eq : P.spans = before ++ (⟨s, true⟩ :: (freeSpan right ++ after))
  offset_eq : h.start + total before = o
  next : nextAllocated after = true

namespace At

theorem tags_eq (ha : h.At P before after right s o) : tags h.start true P.spans =
    (layout h.start true before ++ [⟨o, ⟨s, true, lastAllocated true before⟩⟩]) ++
      tags (o + s) true (freeSpan right ++ after) := by
  rw [ha.spans_eq, tags_append, ha.offset_eq]
  simp

theorem mem_tags (ha : h.At P before after right s o) :
    ⟨o, ⟨s, true, lastAllocated true before⟩⟩ ∈ tags h.start true P.spans := by
  rw [ha.tags_eq]
  simp

theorem right_mem (ha : h.At P before after right s o) {r : Nat} (hright : right = some r) :
    ⟨o + s, ⟨r, false, true⟩⟩ ∈ tags h.start true P.spans := by
  subst hright
  rw [ha.tags_eq]
  simp

theorem right_mem_lists (ha : h.At P before after right s o) (hr : h.Realizes P) {r : Nat}
    (hright : right = some r) : o + s ∈ P.lists (h.index.classify r) := by
  subst hright
  have hcovers := hr.covers
  rw [ha.spans_eq, FreeIndex.covers_append, ha.offset_eq] at hcovers
  exact hcovers.2.2.1 rfl

theorem total_eq (ha : h.At P before after right s o) :
    h.start + total P.spans = o + s + right.getD 0 + total after := by
  rw [ha.spans_eq, Span.total_append, Span.total_cons, Span.total_append, Span.total_freeSpan]
  have := ha.offset_eq
  dsimp only
  omega

theorem after_eq_nil_iff (ha : h.At P before after right s o) (hr : h.Realizes P) :
    after = [] ↔ total after = 0 := by
  constructor
  · rintro rfl
    rfl
  · intro h0
    cases after with
    | nil => rfl
    | cons t ts =>
      have ht := hr.proper t (by rw [ha.spans_eq]; simp)
      have := ht.1
      rw [Span.total_cons] at h0
      omega

end At

theorem Realizes.exists_at (hr : h.Realizes P) (hk : (o, k) ∈ Span.places true h.start P.spans) :
    ∃ before right after, h.At P before after right k o := by
  obtain ⟨before, left, right, after, hP, ho, -, hnext⟩ := hr.exists_neighbours hk
  refine ⟨before ++ freeSpan left, right, after, by simp [hP], ?_, hnext⟩
  rw [Span.total_append, Span.total_freeSpan, ← Nat.add_assoc, ho]

/-- The growth that the heap finds is that of the plan. -/
theorem growth_eq (hr : h.Realizes P) (ha : h.At P before after right s o) :
    h.growth s (o + s) needed = .ok (growthOf s needed right after) := by
  have htotal := ha.total_eq
  have hnil := ha.after_eq_nil_iff hr
  cases hright : right with
  | none =>
    subst hright
    rw [Option.getD_none] at htotal
    obtain ⟨first, rest, hoff, hall, htags⟩ := Span.exists_tags_eq (o + s) after
    have hfirst : first.withPrev true ∈ tags h.start true P.spans := by
      rw [ha.tags_eq, Span.freeSpan_none, List.nil_append, htags]
      simp
    have htag := hr.charted.tagAt hfirst
    have hsucc := hr.charted.successor hfirst
    rw [Block.offset_withPrev, hoff] at htag hsucc
    have hallocated : (first.withPrev true).tag.allocated = true := by
      rw [Block.allocated_withPrev, hall, ha.next]
    simp only [growth, hr.epilogue_eq, htag, hsucc, ok_bind, hallocated, if_true, growthOf, hnil,
      pure, Except.pure]
    congr 1
    exact if_congr (by omega) rfl rfl
  | some r =>
    have hR := ha.right_mem hright
    have htag := hr.charted.tagAt hR
    have hsucc := hr.charted.successor hR
    have h32 := (hr.charted.proper _ hR).least_le rfl
    have hstop := hr.charted.stop_lt hR
    subst hright
    simp only [Block.stop] at htag hsucc hstop h32
    rw [Option.getD_some] at htotal
    have hadd : Word.add s r = .ok (s + r) := Word.add_eq_ok_iff.mpr ⟨rfl, by omega⟩
    have hfar : ¬ o + s = h.start + total P.spans := by omega
    simp only [growth, hr.epilogue_eq, htag, hsucc, hadd, ok_bind, Bool.false_eq_true, if_false,
      if_neg hfar, growthOf, hnil, pure, Except.pure]
    have hlast : o + s + r = h.start + total P.spans ↔ total after = 0 := by omega
    simp only [hlast]
    split
    · rfl
    · split <;> rfl

/-! ## Growing in place -/

theorem At.places_eq (ha : h.At P before after right s o) (allocated : Bool) :
    Span.places allocated h.start P.spans = Span.places allocated h.start before ++
      (Span.places allocated o [⟨s, true⟩] ++ (Span.places allocated (o + s) (freeSpan right) ++
        Span.places allocated (o + s + right.getD 0) after)) := by
  rw [ha.spans_eq, Span.places_append, ha.offset_eq,
    show (⟨s, true⟩ : Span) :: (freeSpan right ++ after) =
      [⟨s, true⟩] ++ (freeSpan right ++ after) from rfl, Span.places_append, Span.places_append]
  simp [Nat.add_assoc]

theorem At.places_true_eq (ha : h.At P before after right s o) :
    Span.places true h.start P.spans = Span.places true h.start before ++
      (o, s) :: Span.places true (o + s + right.getD 0) after := by
  rw [ha.places_eq true]
  cases right <;> simp [Span.places]

/-- The block and the free one after it become one allocated block. -/
theorem exists_absorb (hr : h.Realizes P) {r : Nat} (ha : h.At P before after (some r) s o) :
    ∃ m₁ m₂, FreeIndex.unlink h.memory (o + s) = .ok m₁ ∧
      m₁.setHeader o (Tag.inUse (s + r) (lastAllocated true before)) = .ok m₂ ∧
      Charted h.index h.start m₂ (layout h.start true before ++
        ⟨o, ⟨s + r, true, lastAllocated true before⟩⟩ :: tags (o + (s + r)) false after)
        (without P.lists (o + s)) ∧
      Within (fun w => h.index.LinkWord P.lists w ∨ w = o) h.memory m₂ := by
  have hR := ha.right_mem rfl
  have hc := h.index.classify_lt_size r
  have hBproper := hr.charted.proper _ ha.mem_tags
  have hRproper := hr.charted.proper _ hR
  obtain ⟨hmod, h8, -⟩ := hBproper
  have hrmod := hRproper.size_mod
  have hstop := hr.charted.stop_le _ hR
  simp only [Block.stop] at hstop
  dsimp only at hmod h8 hrmod
  obtain ⟨m₁, hm₁, h₁, hw₁⟩ := hr.charted.unlink hc (ha.right_mem_lists hr rfl)
  have hrow : tags h.start true P.spans = layout h.start true before ++
      [⟨o, ⟨s, true, lastAllocated true before⟩⟩, ⟨o + s, ⟨r, false, true⟩⟩] ++
      tags (o + (s + r)) false after := by
    rw [ha.tags_eq]
    simp [Nat.add_assoc]
  rw [hrow] at h₁
  have hgap := h₁.drop (by
    simp only [List.mem_cons, List.not_mem_nil, or_false, forall_eq_or_imp, forall_eq]
    exact ⟨fun hfalse => absurd hfalse (by simp),
      fun _ c hc => hr.charted.threaded.not_mem_without hc⟩)
  have hsize₁ := hw₁.size_eq
  obtain ⟨m₂, hm₂, h₂, ht₂⟩ := hgap.setHeader (p := lastAllocated true before) (o := o) (n := s + r)
    (by omega) (by omega) (by have := ha.offset_eq; omega)
    (fun b hb => by rw [← ha.offset_eq]; exact (Span.le_of_mem_layout hb).2)
    (fun b hb => (Span.le_of_mem_tags hb).1) (by omega)
  refine ⟨m₁, m₂, hm₁, hm₂, h₂, (hw₁.mono fun w hw => .inl hw.1).trans (ht₂.within ?_)⟩
  rw [List.forall_mem_singleton]
  exact .inr rfl

/-- Taking in the free block after it comes to the carving of both. -/
theorem enlarge_absorbNext_steps (hr : h.Realizes P) {r : Nat}
    (ha : h.At P before after (some r) s o) {m₁ m₂ : Memory}
    (hm₁ : FreeIndex.unlink h.memory (o + s) = .ok m₁)
    (hm₂ : m₁.setHeader o (Tag.inUse (s + r) (lastAllocated true before)) = .ok m₂) :
    (h.enlarge p size o needed ⟨s, true, lastAllocated true before⟩ (.absorbNext r)).result =
      (carve h.index h.settings m₂ o needed).result >>= fun m =>
        (h.withMemory m).verify.result >>= fun _ => .ok (.ok (some p), h.withMemory m) := by
  have hB := ha.mem_tags
  have hsucc := hr.charted.successor hB
  have hstop := hr.charted.stop_lt (ha.right_mem rfl)
  have hs := (hr.charted.proper _ hB).word_le
  simp only [Block.stop] at hsucc hstop hs
  have hadd : Word.add s r = .ok (s + r) := Word.add_eq_ok_iff.mpr ⟨rfl, by omega⟩
  simp only [enlarge, Traced.result_bind, Traced.result_lift, Traced.result_record,
    Traced.result_pure, hsucc, hm₁, hadd, hm₂, ok_bind]

/-- The block takes in the free block after it, which is enough. -/
theorem enlarge_absorbNext_eq (hr : h.Realizes P) {r t : Nat}
    (ha : h.At P before after (some r) s o) (ht : h.settings.splitThreshold = .ok t)
    (hneeded : Span.Proper ⟨needed, true⟩) (hlt : s < needed) (hle : needed ≤ s + r) :
    ∃ m', (h.enlarge p size o needed ⟨s, true, lastAllocated true before⟩ (.absorbNext r)).result =
        .ok (.ok (some p), h.withMemory m') ∧
      (h.withMemory m').Realizes ⟨before ++ (carved t (s + r) needed ++ after),
        carvedLists h.index (without P.lists (o + s)) t o (s + r) needed⟩ ∧
      Within (fun w => h.index.LinkWord P.lists w ∨ w = o ∨ (o + s ≤ w ∧ w ≤ o + s + r))
        h.memory m' := by
  have hr8 := (hr.charted.proper _ (ha.right_mem rfl)).word_le
  have hs := (hr.charted.proper _ ha.mem_tags).word_le
  dsimp only at hr8 hs
  obtain ⟨m₁, m₂, hm₁, hm₂, h₂, hw₂⟩ := exists_absorb hr ha
  have hspans : P.spans = before ++ ([⟨s, true⟩, ⟨r, false⟩] ++ after) := ha.spans_eq
  obtain ⟨m₃, hm₃, hreal, hw₃⟩ := hr.exists_carve hspans (by simp)
    ⟨ha.offset_eq, h₂, fun hfalse => absurd hfalse (by simp), ha.next⟩ hw₂.size_eq
    (fun c hc u hu hout => (List.mem_erase_of_ne (by omega)).mpr hu) ht hneeded hle
  refine ⟨m₃, ?_, hreal, (hw₂.mono fun w hw => hw.imp_right .inl).trans (hw₃.mono ?_)⟩
  · rw [enlarge_absorbNext_steps hr ha hm₁ hm₂, hm₃, ok_bind, hreal.result_verify, ok_bind]
  · rintro w (hw | hw | hw)
    · exact .inl hw.of_without
    · exact .inr (.inl hw)
    · exact .inr (.inr (by omega))

theorem enlarge_absorbNext_eq_error (hr : h.Realizes P) {r : Nat} {f : Fault}
    (ha : h.At P before after (some r) s o) (hf : h.settings.splitThreshold = .error f)
    (hle : needed ≤ s + r) :
    (h.enlarge p size o needed ⟨s, true, lastAllocated true before⟩ (.absorbNext r)).result =
      .error f := by
  obtain ⟨m₁, m₂, hm₁, hm₂, h₂, -⟩ := exists_absorb hr ha
  have htag := h₂.tagAt (List.mem_append_right _ List.mem_cons_self)
  rw [enlarge_absorbNext_steps hr ha hm₁ hm₂, carve_eq_error htag hle hf, error_bind]

/-- Absorbing the next block enlarges the block, unless there is no split threshold. -/
theorem enlarge_absorbNext_ends (hr : h.Realizes P) {r : Nat}
    (ha : h.At P before after (some r) s o) (hneeded : Span.Proper ⟨needed, true⟩)
    (hlt : s < needed) (hle : needed ≤ s + r) :
    Ends h.Lacks (fun a => ∃ m' P', a = (.ok (some p), h.withMemory m') ∧
        h.Enlarges P o s needed m' P')
      (h.enlarge p size o needed ⟨s, true, lastAllocated true before⟩ (.absorbNext r)).result := by
  cases ht : h.settings.splitThreshold with
  | error f =>
    rw [enlarge_absorbNext_eq_error hr ha ht hle]
    exact .threshold ht
  | ok t =>
    obtain ⟨m', hres, hreal, hw⟩ := enlarge_absorbNext_eq hr ha ht hneeded hlt hle
    rw [hres]
    refine ⟨m', _, rfl, hreal, ⟨_, _, if t < s + r - needed then needed else s + r, ?_,
      ha.places_true_eq, ?_⟩, hw.keeps.mono ?_⟩
    · split <;> omega
    · simp only [Span.places_append, ha.offset_eq, places_carved, total_carved hle,
        List.cons_append, List.nil_append, Option.getD_some, Nat.add_assoc]
    · rintro w (hw | hw | hw)
      · exact .inl (.inl hw)
      · exact .inr hw
      · refine .inl (.inr (.inl ⟨o + s, r, ?_, hw⟩))
        simp [ha.places_eq false, Span.places]

/-- The region has grown behind the last block, which becomes as large as needed. -/
theorem enlarge_growLast_of_granted (hr : h.Realizes P) (ha : h.At P before [] none s o)
    (hneeded : Span.Proper ⟨needed, true⟩) (hlt : s < needed)
    (hword : h.memory.size + (needed - s) < Word.limit)
    (hext : (h.region.extend (needed - s)).result =
      .ok (.ok h.region.size, { h.region with memory := h.memory.grow (needed - s) })) :
    ∃ m', (h.enlarge p size o needed ⟨s, true, lastAllocated true before⟩ .growLast).result =
        .ok (.ok (some p), h.withMemory m') ∧
      (h.withMemory m').Realizes ⟨before ++ [⟨needed, true⟩], P.lists⟩ ∧
      Keeps (fun w => h.index.LinkWord P.lists w ∨ w = o ∨ h.start + total P.spans ≤ w)
        h.memory m' := by
  have hsub : Word.sub needed s = .ok (needed - s) := Word.sub_eq_ok_iff.mpr (by omega)
  have htotal := ha.total_eq
  have hend := hr.size_eq
  rw [Option.getD_none, Span.total_nil] at htotal
  have hgrown : Charted h.index h.start (h.memory.grow (needed - s))
      (tags h.start true (before ++ [⟨s, true⟩])) P.lists := by
    have hspans : P.spans = before ++ [⟨s, true⟩] := ha.spans_eq
    rw [← hspans]
    exact hr.charted.grow hword
  obtain ⟨m', hm', hreal, ht⟩ := hr.exists_extend ha.spans_eq ha.offset_eq (n := needed) hgrown
    (by rw [Memory.size_grow]; omega)
    (by simp [Span.epilogue]) (fun _ _ _ hu _ => hu) hneeded.1 hneeded.2
  have hheap : (⟨{ h.region with memory := m' }, h.index, h.settings, h.start⟩ : Heap) =
      h.withMemory m' := rfl
  refine ⟨m', ?_, hreal, (Keeps.grow _ _ _).trans (ht.within ?_).keeps⟩
  · simp only [enlarge, hsub, Region.provider_extend, hext, ok_bind, Traced.result_bind,
      Traced.result_lift, Traced.result_record, Traced.result_pure, Region.provider_memory, hm',
      Region.provider_setMemory, hheap, hreal.result_verify]
  · intro w hw
    simp only [List.mem_cons, List.not_mem_nil, or_false] at hw
    rcases hw with rfl | rfl
    · exact .inr (.inl rfl)
    · exact .inr (.inr (by omega))

theorem enlarge_growLast_of_refused (hlt : s < needed) {tag : Tag} (htag : tag.size = s)
    {e : Refusal} (hext : (h.region.extend (needed - s)).result = .ok (.error e, h.region)) :
    (h.enlarge p size o needed tag .growLast).result = .ok (.error e, h) := by
  have hsub : Word.sub needed tag.size = .ok (needed - s) := Word.sub_eq_ok_iff.mpr (by omega)
  simp only [enlarge, Traced.result_bind, Traced.result_lift, Traced.result_pure, hsub, ok_bind,
    Region.provider_extend, hext]

theorem enlarge_growLast_of_error (hlt : s < needed) {tag : Tag} (htag : tag.size = s)
    {f : Fault} (hext : (h.region.extend (needed - s)).result = .error f) :
    (h.enlarge p size o needed tag .growLast).result = .error f := by
  have hsub : Word.sub needed tag.size = .ok (needed - s) := Word.sub_eq_ok_iff.mpr (by omega)
  simp only [enlarge, Traced.result_bind, Traced.result_lift, hsub, ok_bind,
    Region.provider_extend, hext, error_bind]

/-- The region has grown behind the free block after it, the last one, which is taken in. -/
theorem enlarge_absorbLast_of_granted (hr : h.Realizes P) {r : Nat}
    (ha : h.At P before [] (some r) s o) (hneeded : Span.Proper ⟨needed, true⟩)
    (hlt : s + r < needed) (hword : h.memory.size + (needed - s - r) < Word.limit)
    (hext : (h.region.extend (needed - s - r)).result =
      .ok (.ok h.region.size, { h.region with memory := h.memory.grow (needed - s - r) })) :
    ∃ m', (h.enlarge p size o needed ⟨s, true, lastAllocated true before⟩ (.absorbLast r)).result =
        .ok (.ok (some p), h.withMemory m') ∧
      (h.withMemory m').Realizes ⟨before ++ [⟨needed, true⟩], without P.lists (o + s)⟩ ∧
      Keeps (fun w => h.index.LinkWord P.lists w ∨ w = o ∨ h.start + total P.spans ≤ w)
        h.memory m' := by
  have hsub : Word.sub needed s = .ok (needed - s) := Word.sub_eq_ok_iff.mpr (by omega)
  have hsub' : Word.sub (needed - s) r = .ok (needed - s - r) := Word.sub_eq_ok_iff.mpr (by omega)
  have hsucc := hr.charted.successor ha.mem_tags
  simp only [Block.stop] at hsucc
  have htotal := ha.total_eq
  have hend := hr.size_eq
  rw [Option.getD_some, Span.total_nil] at htotal
  obtain ⟨m₁, hm₁, h₁, hw₁⟩ := (hr.charted.grow hword).unlink (h.index.classify_lt_size r)
    (ha.right_mem_lists hr rfl)
  rw [show P.spans = before ++ [⟨s, true⟩, ⟨r, false⟩] from ha.spans_eq] at h₁
  have hsize₁ : m₁.size = h.memory.size + (needed - s - r) := hw₁.size_eq
  obtain ⟨m', hm', hreal, ht⟩ := hr.exists_extend ha.spans_eq ha.offset_eq (n := needed) h₁
    (by omega) (by
      simp only [Span.freeSpan_some, List.append_nil, Span.tags_cons, Span.tags_nil,
        List.mem_cons, List.not_mem_nil, or_false, forall_eq_or_imp, forall_eq, Span.epilogue]
      exact ⟨fun hfalse => absurd hfalse (by simp),
        fun _ c hc => hr.charted.threaded.not_mem_without hc,
        fun hfalse => absurd hfalse (by simp)⟩)
    (fun c hc u hu hout => (List.mem_erase_of_ne (by omega)).mpr hu) hneeded.1 hneeded.2
  have hheap : (⟨{ h.region with memory := m' }, h.index, h.settings, h.start⟩ : Heap) =
      h.withMemory m' := rfl
  refine ⟨m', ?_, hreal, ((Keeps.grow _ _ _).trans (hw₁.keeps.mono fun w hw => .inl hw.1)).trans
    (ht.within ?_).keeps⟩
  · simp only [enlarge, hsub, hsub', hsucc, Region.provider_extend, hext, ok_bind,
      Traced.result_bind, Traced.result_lift, Traced.result_record, Traced.result_pure,
      Region.provider_memory, hm₁, hm', Region.provider_setMemory, hheap, hreal.result_verify]
  · intro w hw
    simp only [List.mem_cons, List.not_mem_nil, or_false] at hw
    rcases hw with rfl | rfl
    · exact .inr (.inl rfl)
    · exact .inr (.inr (by omega))

section AbsorbLast

variable {r : Nat} (hr : h.Realizes P) (ha : h.At P before [] (some r) s o)
  (hlt : s + r < needed)

include hr ha hlt

theorem enlarge_absorbLast_of_refused {e : Refusal}
    (hext : (h.region.extend (needed - s - r)).result = .ok (.error e, h.region)) :
    (h.enlarge p size o needed ⟨s, true, lastAllocated true before⟩ (.absorbLast r)).result =
      .ok (.error e, h) := by
  have hsub : Word.sub needed s = .ok (needed - s) := Word.sub_eq_ok_iff.mpr (by omega)
  have hsub' : Word.sub (needed - s) r = .ok (needed - s - r) := Word.sub_eq_ok_iff.mpr (by omega)
  have hsucc := hr.charted.successor ha.mem_tags
  simp only [enlarge, Traced.result_bind, Traced.result_lift, Traced.result_pure, hsub, hsub',
    hsucc, ok_bind, Region.provider_extend, hext]

theorem enlarge_absorbLast_of_error {f : Fault}
    (hext : (h.region.extend (needed - s - r)).result = .error f) :
    (h.enlarge p size o needed ⟨s, true, lastAllocated true before⟩ (.absorbLast r)).result =
      .error f := by
  have hsub : Word.sub needed s = .ok (needed - s) := Word.sub_eq_ok_iff.mpr (by omega)
  have hsub' : Word.sub (needed - s) r = .ok (needed - s - r) := Word.sub_eq_ok_iff.mpr (by omega)
  have hsucc := hr.charted.successor ha.mem_tags
  simp only [enlarge, Traced.result_bind, Traced.result_lift, hsub, hsub', hsucc, ok_bind,
    Region.provider_extend, hext, error_bind]

end AbsorbLast

/-- The last block is enlarged if the row now ends with it. -/
theorem At.enlarges_last (ha : h.At P before [] right s o) {m' : Memory} {lists : Nat → List Nat}
    (hreal : (h.withMemory m').Realizes ⟨before ++ [⟨needed, true⟩], lists⟩)
    (hkeep : Keeps (fun w => h.index.LinkWord P.lists w ∨ w = o ∨ h.start + total P.spans ≤ w)
      h.memory m') : h.Enlarges P o s needed m' ⟨before ++ [⟨needed, true⟩], lists⟩ := by
  refine ⟨hreal, ⟨_, _, needed, Nat.le_refl _, ha.places_true_eq, ?_⟩, hkeep.mono ?_⟩
  · simp [Span.places_append, Span.places, ha.offset_eq]
  · rintro w (hw | hw | hw)
    · exact .inl (.inl hw)
    · exact .inr hw
    · exact .inl (.inr (.inr hw))

/-- The last block grows with the region, which may refuse. -/
theorem enlarge_growLast_ends (hr : h.Realizes P) (ha : h.At P before [] none s o)
    (hneeded : Span.Proper ⟨needed, true⟩) (hlt : s < needed) :
    Ends h.Lacks (fun a => (∃ e, a = (.error e, h) ∧ h.OutOfRoom e) ∨
        ∃ m' P', a = (.ok (some p), h.withMemory m') ∧ h.Enlarges P o s needed m' P')
      (h.enlarge p size o needed ⟨s, true, lastAllocated true before⟩ .growLast).result := by
  rcases h.region.result_extend_cases (needed - s) with ⟨hword, -, -, hext⟩ |
    ⟨hword, hlimit, hholds, hext⟩ | ⟨hfull, hext⟩
  · obtain ⟨m', hres, hreal, hkeep⟩ := enlarge_growLast_of_granted hr ha hneeded hlt hword hext
    rw [hres]
    exact .inr ⟨m', _, rfl, ha.enlarges_last hreal hkeep⟩
  · rw [enlarge_growLast_of_error hlt rfl hext]
    exact .storage hword hlimit hholds
  · rw [enlarge_growLast_of_refused hlt rfl hext]
    exact .inl ⟨_, rfl, _, rfl, hfull⟩

/-- The block takes in the last one and grows with the region, which may refuse. -/
theorem enlarge_absorbLast_ends (hr : h.Realizes P) {r : Nat} (ha : h.At P before [] (some r) s o)
    (hneeded : Span.Proper ⟨needed, true⟩) (hlt : s + r < needed) :
    Ends h.Lacks (fun a => (∃ e, a = (.error e, h) ∧ h.OutOfRoom e) ∨
        ∃ m' P', a = (.ok (some p), h.withMemory m') ∧ h.Enlarges P o s needed m' P')
      (h.enlarge p size o needed ⟨s, true, lastAllocated true before⟩ (.absorbLast r)).result := by
  rcases h.region.result_extend_cases (needed - s - r) with ⟨hword, -, -, hext⟩ |
    ⟨hword, hlimit, hholds, hext⟩ | ⟨hfull, hext⟩
  · obtain ⟨m', hres, hreal, hkeep⟩ := enlarge_absorbLast_of_granted hr ha hneeded hlt hword hext
    rw [hres]
    exact .inr ⟨m', _, rfl, ha.enlarges_last hreal hkeep⟩
  · rw [enlarge_absorbLast_of_error hr ha hlt hext]
    exact .storage hword hlimit hholds
  · rw [enlarge_absorbLast_of_refused hr ha hlt hext]
    exact .inl ⟨_, rfl, _, rfl, hfull⟩

/-! ## Moving -/

/-- After a block was given, the payload is copied as far as it fits, and the old block taken. -/
theorem move_of_given (hp : p.offset = o + 8)
    (hk : (o, k) ∈ Span.places true h.start P.spans) (hneeded : size + 16 ≤ needed) {p' : Handle}
    {o' : Nat} {m₁ : Memory} {P₁ : Plan} (hp' : p'.offset = o' + 8)
    (hg : h.Gives P o' needed m₁ P₁)
    (hres : (h.allocate size).result = .ok (.ok (some p'), h.withMemory m₁)) :
    ∃ m₂ m₃ P₃, (h.move p size).result = .ok (.ok (some p'), h.withMemory m₃) ∧
      h.Moves P o k o' needed (min size (k - 8)) m₃ P₃ m₁ P₁ m₂ ∧
      ((h.withMemory m₂).free (some p)).result = .ok (h.withMemory m₃) := by
  obtain ⟨k', hk', hmem'⟩ := hg.mem_places
  have hmem := hg.places_subset hk
  have hreal := hg.realizes
  have husable := hreal.usableSize_eq hp hmem
  obtain ⟨m₂, hcopy, hreal₂⟩ := hreal.copyPayload hp hmem hp' hmem' (n := min size (k - 8))
    (by omega) (by omega)
  rw [memory_withMemory] at hcopy
  rw [withMemory_withMemory] at hreal₂
  have hm₂ : m₁.copy (o + 8) (o' + 8) (min size (k - 8)) = .ok m₂ := by rw [← hp, ← hp', hcopy]
  obtain ⟨m₃, P₃, hfree, htakes⟩ := exists_free hreal₂ hp hmem
  refine ⟨m₂, m₃, P₃, ?_, ⟨hg, hm₂, hreal₂, htakes⟩, hfree⟩
  simp only [move, Traced.result_bind, Traced.result_lift, Traced.result_record,
    Traced.result_pure, hres, husable, memory_withMemory, hcopy, withMemory_withMemory, hfree,
    ok_bind]

/-- Moving has an answer, unless the allocation faults. -/
theorem move_ends (hr : h.Realizes P) (hp : p.offset = o + 8)
    (hk : (o, k) ∈ Span.places true h.start P.spans) (h0 : size ≠ 0) :
    Ends (h.Falters size) (h.Resizes P p o k size) (h.move p size).result := by
  have hends := allocate_ends hr size
  cases hres : (h.allocate size).result with
  | error f =>
    rw [hres] at hends
    rw [move, Traced.result_bind, hres]
    exact hends
  | ok r =>
    rw [hres] at hends
    cases hends with
    | refused he =>
      rw [move, Traced.result_bind, hres]
      exact .refused he
    | nothing hzero => exact absurd hzero h0
    | given _ hb hp' hg =>
      obtain ⟨m₂, m₃, P₃, hmove, hmoves, -⟩ :=
        move_of_given hp hk (proper_of_blockSize hb).2 hp' hg hres
      rw [hmove]
      exact .moved hb hp' hmoves

/-! ## Resizing -/

/-- Growing a block has an answer, unless it faults for want of something. -/
theorem enlarge_ends (hr : h.Realizes P) (hp : p.offset = o + 8)
    (hk : (o, k) ∈ Span.places true h.start P.spans) (ha : h.At P before after right k o)
    (h0 : size ≠ 0) (hb : Request.blockSize size = .ok (some needed)) (hlt : k < needed) :
    Ends (h.Falters size) (h.Resizes P p o k size)
      (h.enlarge p size o needed ⟨k, true, lastAllocated true before⟩
        (growthOf k needed right after)).result := by
  have hneeded := (proper_of_blockSize hb).1
  have henlarged : ∀ r, ((∃ e, r = (.error e, h) ∧ h.OutOfRoom e) ∨
      ∃ m' P', r = (.ok (some p), h.withMemory m') ∧ h.Enlarges P o k needed m' P') →
      h.Resizes P p o k size r := by
    rintro r (⟨e, rfl, he⟩ | ⟨m', P', rfl, he⟩)
    · exact .refused (.outOfRoom he)
    · exact .enlarged hb hlt he
  have hlacks : ∀ f, h.Lacks f → h.Falters size f := fun f => .inl
  unfold growthOf
  cases right with
  | none =>
    dsimp only
    split
    · subst after
      exact ((enlarge_growLast_ends hr ha hneeded hlt).mono hlacks).imp henlarged
    · exact move_ends hr hp hk h0
  | some r =>
    dsimp only
    split
    · rename_i hle
      exact ((enlarge_absorbNext_ends hr ha hneeded hlt hle).mono hlacks).imp fun a ha =>
        henlarged a (.inr ha)
    · split
      · subst after
        exact ((enlarge_absorbLast_ends hr ha hneeded (by omega)).mono hlacks).imp henlarged
      · exact move_ends hr hp hk h0

/-- A block that is too small is enlarged in the way of the plan. -/
theorem resize_eq_enlarge (hr : h.Realizes P) (hp : p.offset = o + 8)
    (ha : h.At P before after right k o) (h0 : size ≠ 0)
    (hb : Request.blockSize size = .ok (some needed)) (hlt : k < needed) :
    (h.resize (some p) size).result =
      (h.enlarge p size o needed ⟨k, true, lastAllocated true before⟩
        (growthOf k needed right after)).result := by
  have htag := hr.charted.tagAt ha.mem_tags
  have hsucc := hr.charted.successor ha.mem_tags
  simp only [Block.stop] at hsucc
  rw [resize, if_neg h0]
  simp only [Traced.result_bind, Traced.result_lift, hb, block_eq_ok_iff.mpr hp, htag, ok_bind]
  rw [if_neg (Nat.not_le.mpr hlt)]
  simp only [Traced.result_bind, Traced.result_lift, hsucc, growth_eq hr ha, ok_bind]

/-- A block that is large enough stays as it is. -/
theorem resize_of_le (hr : h.Realizes P) (hp : p.offset = o + 8)
    (ha : h.At P before after right k o) (h0 : size ≠ 0)
    (hb : Request.blockSize size = .ok (some needed)) (hle : needed ≤ k) :
    (h.resize (some p) size).result = .ok (.ok (some p), h) := by
  have htag := hr.charted.tagAt ha.mem_tags
  rw [resize, if_neg h0]
  simp only [Traced.result_bind, Traced.result_lift, hb, block_eq_ok_iff.mpr hp, htag, ok_bind]
  rw [if_pos hle]
  rfl

/-- Resizing an allocated block has an answer, unless it faults for want of something. -/
theorem resize_ends (hr : h.Realizes P) (hp : p.offset = o + 8)
    (hk : (o, k) ∈ Span.places true h.start P.spans) (h0 : size ≠ 0) :
    Ends (h.Falters size) (h.Resizes P p o k size) (h.resize (some p) size).result := by
  cases hb : Request.blockSize size with
  | error f =>
    rw [resize, if_neg h0, Traced.result_bind, Traced.result_lift, hb]
    exact .inr hb
  | ok request =>
    cases request with
    | none =>
      rw [resize, if_neg h0, Traced.result_bind, Traced.result_lift, hb]
      exact .refused (.tooLarge hb)
    | some needed =>
      obtain ⟨before, right, after, ha⟩ := hr.exists_at hk
      by_cases hfits : needed ≤ k
      · rw [resize_of_le hr hp ha h0 hb hfits]
        exact .fits hb hfits
      · rw [resize_eq_enlarge hr hp ha h0 hb (by omega)]
        exact enlarge_ends hr hp hk ha h0 hb (by omega)

end BoundaryTag.Heap
