import BoundaryTag.Heap.Basic
import BoundaryTag.Proofs.Chart
import BoundaryTag.Proofs.Coverage
import BoundaryTag.Proofs.FreeIndex.Search

set_option autoImplicit false

/-! # Plans of a heap

A plan says what a heap is: the row of its spans and the lists of its free blocks, whatever the
bytes are in which it is written down. `h.Realizes P` says that the heap's memory shows the plan
`P`: it is tiled by the blocks of the row and the epilogue, no two free blocks touch, and the lists
hold the free blocks, each in its class. This is the invariant that every operation preserves. -/

open BoundaryTag.Span (total layout tags lastAllocated nextAllocated freeSpan)

namespace BoundaryTag

open Memory (Touches Within Keeps)

/-- The spans of a heap, by address, and the free blocks of each class, in list order. -/
structure Plan where
  spans : List Span
  lists : Nat → List Nat

/-- The heap's memory shows the plan. -/
structure Heap.Realizes (h : Heap) (P : Plan) : Prop where
  valid : h.settings.validate = .ok ()
  thresholds_eq : h.index.classes.thresholds = h.settings.thresholds
  base_mod : h.index.base % 8 = 0
  start_eq : h.start = h.index.base + h.index.size * 24
  size_eq : h.start + total P.spans + 8 = h.memory.size
  proper : ∀ s ∈ P.spans, s.Proper
  coalesced : Span.Coalesced true P.spans
  charted : Charted h.index h.start h.memory (tags h.start true P.spans) P.lists
  covers : h.index.Covers P.lists h.start P.spans

namespace Span

variable {o u k : Nat} {p : Bool} {s : Span} {ss ts : List Span} {b : Block}

/-- The size of the span that starts at `u`, in a row laid out from `o` on. -/
def sizeFrom : Nat → List Span → Nat → Nat
  | _, [], _ => 0
  | o, s :: ss, u => if u = o then s.size else sizeFrom (o + s.size) ss u

theorem sizeFrom_eq (hss : ∀ s ∈ ss, s.Proper) (hb : b ∈ layout o p ss) :
    sizeFrom o ss b.offset = b.tag.size := by
  induction ss generalizing o p with
  | nil => simp at hb
  | cons s ss ih =>
    rw [layout_cons, List.mem_cons] at hb
    rw [List.forall_mem_cons] at hss
    rcases hb with rfl | hb
    · simp [sizeFrom]
    · have hle := (le_of_mem_layout hb).1
      have hpos := hss.1.1
      rw [sizeFrom, if_neg (by omega)]
      exact ih hss.2 hb

theorem mod_of_mem_tags (ho : o % 8 = 0) (hss : ∀ s ∈ ss, s.Proper) (hb : b ∈ tags o p ss) :
    b.offset % 8 = 0 := by
  induction ss generalizing o p with
  | nil =>
    rw [tags_nil, List.mem_singleton] at hb
    rw [hb]
    exact ho
  | cons s ss ih =>
    rw [List.forall_mem_cons] at hss
    rw [tags_cons, List.mem_cons] at hb
    rcases hb with rfl | hb
    · exact ho
    · have := hss.1.2
      exact ih (by omega) hss.2 hb

theorem mod_of_mem_layout (ho : o % 8 = 0) (hss : ∀ s ∈ ss, s.Proper) (hb : b ∈ layout o p ss) :
    b.offset % 8 = 0 :=
  mod_of_mem_tags ho hss (List.mem_append_left _ hb)

/-- Where the blocks of a row start, if they are in the given state, and how long they are. -/
def places (allocated : Bool) : Nat → List Span → List (Nat × Nat)
  | _, [] => []
  | o, s :: ss =>
    if s.allocated = allocated then (o, s.size) :: places allocated (o + s.size) ss
    else places allocated (o + s.size) ss

variable {allocated : Bool}

@[simp] theorem places_nil : places allocated o [] = [] := rfl

theorem places_append : places allocated o (ss ++ ts) =
    places allocated o ss ++ places allocated (o + total ss) ts := by
  induction ss generalizing o with
  | nil => simp
  | cons s ss ih =>
    simp only [List.cons_append, places, ih, total_cons, Nat.add_assoc]
    split <;> rfl

theorem mem_places_iff : (u, k) ∈ places allocated o ss ↔
    ∃ b ∈ layout o p ss, b.tag.allocated = allocated ∧ b.offset = u ∧ b.tag.size = k := by
  induction ss generalizing o p with
  | nil => simp
  | cons s ss ih =>
    rw [places, layout_cons]
    simp only [List.mem_cons, exists_eq_or_imp]
    split <;> rename_i hs
    · rw [List.mem_cons, ih (p := s.allocated), Prod.mk.injEq]
      simp only [hs, true_and, eq_comm]
    · rw [ih (p := s.allocated)]
      simp [hs]

theorem sizeFrom_place {allocated : Bool} (hss : ∀ s ∈ ss, s.Proper)
    (hk : (u, k) ∈ places allocated o ss) : sizeFrom o ss u = k := by
  obtain ⟨b, hb, -, rfl, rfl⟩ := (mem_places_iff (p := true)).mp hk
  exact sizeFrom_eq hss hb

theorem nodup_places (hss : ∀ s ∈ ss, s.Proper) :
    ((places allocated o ss).map Prod.fst).Nodup := by
  induction ss generalizing o with
  | nil => simp
  | cons s ss ih =>
    rw [List.forall_mem_cons] at hss
    rw [places]
    split
    · rw [List.map_cons, List.nodup_cons]
      refine ⟨fun hmem => ?_, ih hss.2⟩
      rw [List.mem_map] at hmem
      obtain ⟨⟨v, k⟩, hmem, rfl⟩ := hmem
      obtain ⟨b, hb, -, rfl, -⟩ := (mem_places_iff (p := true)).mp hmem
      have := (le_of_mem_layout hb).1
      have := hss.1.1
      omega
    · exact ih hss.2

end Span

namespace Heap

variable {h : Heap} {P : Plan} {before mid mid' after : List Span} {lists' : Nat → List Nat}
  {m' : Memory} {o : Nat}

@[simp] theorem memory_withMemory (h : Heap) (m : Memory) : (h.withMemory m).memory = m := rfl

@[simp] theorem index_withMemory (h : Heap) (m : Memory) : (h.withMemory m).index = h.index := rfl

@[simp] theorem start_withMemory (h : Heap) (m : Memory) : (h.withMemory m).start = h.start := rfl

@[simp] theorem withMemory_withMemory (h : Heap) (m m' : Memory) :
    (h.withMemory m).withMemory m' = h.withMemory m' := rfl

@[simp] theorem settings_withMemory (h : Heap) (m : Memory) :
    (h.withMemory m).settings = h.settings := rfl

namespace Realizes

variable {c u : Nat}

theorem start_mod (hr : h.Realizes P) : h.start % 8 = 0 := by
  have := hr.base_mod
  have := hr.start_eq
  omega

theorem mod_of_mem_tags (hr : h.Realizes P) {b : Block} (hb : b ∈ tags h.start true P.spans) :
    b.offset % 8 = 0 :=
  Span.mod_of_mem_tags hr.start_mod hr.proper hb

/-- The lists hold the free blocks of the row, each in its class, and nothing else. -/
theorem mem_lists_iff (hr : h.Realizes P) (hc : c < h.index.size) :
    u ∈ P.lists c ↔ ∃ k, (u, k) ∈ Span.places false h.start P.spans ∧ h.index.classify k = c := by
  constructor
  · intro hu
    obtain ⟨b, hb, rfl, hfree, hclass⟩ := hr.charted.listed c hc u hu
    rw [tags, List.mem_append, List.mem_singleton] at hb
    rcases hb with hb | rfl
    · exact ⟨b.tag.size, Span.mem_places_iff.mpr ⟨b, hb, hfree, rfl, rfl⟩, hclass⟩
    · simp [Span.epilogue] at hfree
  · rintro ⟨k, hk, rfl⟩
    obtain ⟨b, hb, hfree, rfl, rfl⟩ := (Span.mem_places_iff (p := true)).mp hk
    exact hr.covers.mem hb hfree

theorem nodup_lists (hr : h.Realizes P) (hc : c < h.index.size) : (P.lists c).Nodup :=
  (List.nodup_cons.mp (hr.charted.threaded.nodup c hc)).2

theorem lt_of_mem_lists (hr : h.Realizes P) {c u : Nat} (hc : c < h.index.size)
    (hu : u ∈ P.lists c) : u < h.start + total P.spans := by
  obtain ⟨k, hk, -⟩ := (hr.mem_lists_iff hc).mp hu
  obtain ⟨b, hb, -, rfl, rfl⟩ := (Span.mem_places_iff (p := true)).mp hk
  have hin := Span.le_of_mem_layout hb
  have hword := (Span.proper_of_mem_layout hr.proper hb).word_le
  unfold Block.stop at hin
  omega

/-- A stretch of the row can be replaced by spans of the same total, or at the end of the row by
    any, if the new memory is charted accordingly and blocks outside the stretch stay on their
    lists. -/
theorem replace (hr : h.Realizes P) (hP : P.spans = before ++ (mid ++ after))
    (ho : h.start + total before = o) (htotal : total mid' = total mid ∨ after = [])
    (hproper : ∀ s ∈ mid', s.Proper)
    (hcoalesced : Span.Coalesced (lastAllocated true before) mid')
    (hnext : lastAllocated (lastAllocated true before) mid' = true ∨ nextAllocated after = true)
    (hsize : m'.size + total mid = h.memory.size + total mid')
    (hcharted : Charted h.index h.start m' (tags h.start true (before ++ (mid' ++ after))) lists')
    (hcovers : h.index.Covers lists' o mid')
    (hkeep : ∀ c < h.index.size, ∀ u ∈ P.lists c, u < o ∨ o + total mid ≤ u → u ∈ lists' c) :
    (h.withMemory m').Realizes ⟨before ++ (mid' ++ after), lists'⟩ where
  valid := hr.valid
  thresholds_eq := hr.thresholds_eq
  base_mod := hr.base_mod
  start_eq := hr.start_eq
  size_eq := by
    have := hr.size_eq
    simp only [hP, Span.total_append] at this
    simp only [Span.total_append, start_withMemory, memory_withMemory]
    omega
  proper s hs := by
    have hold := hr.proper
    rw [hP] at hold
    simp only [List.mem_append] at hs hold
    rcases hs with hs | hs | hs
    · exact hold s (.inl hs)
    · exact hproper s hs
    · exact hold s (.inr (.inr hs))
  coalesced := by
    have hold := hr.coalesced
    rw [hP] at hold
    have hafter := (Span.coalesced_append.mp hold).2.append_right
    exact Span.coalesced_append.mpr ⟨hold.append_left,
      Span.coalesced_append.mpr ⟨hcoalesced, Span.coalesced_iff.mpr ⟨hnext, hafter⟩⟩⟩
  charted := hcharted
  covers := by
    have hold := hr.covers
    have hspans := hr.proper
    rw [hP] at hold hspans
    rw [FreeIndex.covers_append, FreeIndex.covers_append, ho] at hold
    rw [FreeIndex.covers_append, FreeIndex.covers_append]
    simp only [start_withMemory, index_withMemory, ho]
    refine ⟨hold.1.congr (p := true) fun b hb c hc hu => hkeep c hc _ hu (.inl ?_), hcovers, ?_⟩
    · have hin := Span.le_of_mem_layout hb
      have hword := (Span.proper_of_mem_layout
        (fun s hs => hspans s (List.mem_append_left _ hs)) hb).word_le
      unfold Block.stop at hin
      omega
    · rcases htotal with htotal | rfl
      · rw [htotal]
        exact hold.2.2.congr (p := true) fun b hb c hc hu =>
          hkeep c hc _ hu (.inr (Span.le_of_mem_layout hb).1)
      · trivial

end Realizes

end Heap

end BoundaryTag
