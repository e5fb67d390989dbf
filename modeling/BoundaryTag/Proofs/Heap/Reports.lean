import BoundaryTag.Proofs.Heap.Check
import BoundaryTag.Proofs.Heap.Outcome

set_option autoImplicit false

/-! # What a sound heap reports

On a heap that realizes a plan every report has an answer, and the plan tells which: the census is
that of the spans (`census_eq`), and the entries of the lists are the listed blocks with their sizes
in the row (`freeEntries_eq`). No list is longer than there is room for least blocks
(`length_lists_le`). -/

open BoundaryTag.Span (total layout tags places)

namespace BoundaryTag

/-- A list of computations all of which have results has the list of the results. -/
theorem mapM_eq_ok {α β : Type} {f : α → Except Fault β} {g : α → β} {cs : List α}
    (hfg : ∀ c ∈ cs, f c = .ok (g c)) : cs.mapM f = .ok (cs.map g) := by
  induction cs with
  | nil => rfl
  | cons c cs ih =>
    rw [List.forall_mem_cons] at hfg
    rw [List.mapM_cons, hfg.1, ok_bind, ih hfg.2, ok_bind, List.map_cons]
    rfl

/-! ## The census -/

/-- Bytes of the spans of a row that are in the given state. -/
def Span.bytes (allocated : Bool) : List Span → Nat
  | [] => 0
  | s :: ss => (if s.allocated = allocated then s.size else 0) + bytes allocated ss

/-- The size of the largest free span of a row; zero if there is none. -/
def Span.largestFree : List Span → Nat
  | [] => 0
  | s :: ss => if s.allocated then largestFree ss else max s.size (largestFree ss)

/-- The counts over a row of spans. -/
def Census.ofSpans (arenaBytes : Nat) (ss : List Span) : Census where
  arenaBytes := arenaBytes
  allocatedBlocks := ss.countP (·.allocated)
  allocatedBytes := Span.bytes true ss
  freeBlocks := Span.freeCount ss
  freeBytes := Span.bytes false ss
  largestFree := Span.largestFree ss

/-- The counts of a row after others. -/
def Census.plus (s t : Census) : Census where
  arenaBytes := s.arenaBytes
  allocatedBlocks := s.allocatedBlocks + t.allocatedBlocks
  allocatedBytes := s.allocatedBytes + t.allocatedBytes
  freeBlocks := s.freeBlocks + t.freeBlocks
  freeBytes := s.freeBytes + t.freeBytes
  largestFree := max s.largestFree t.largestFree

variable {n o : Nat} {p : Bool} {s : Span} {ss : List Span} {c : Census}

theorem Span.bytes_add_bytes (ss : List Span) :
    Span.bytes true ss + Span.bytes false ss = total ss := by
  induction ss with
  | nil => rfl
  | cons s ss ih =>
    rw [total_cons, ← ih, bytes, bytes]
    cases s.allocated <;> simp only [reduceCtorEq, if_true, if_false] <;> omega

theorem Census.plus_ofSpans_nil : c.plus (.ofSpans n []) = c := by
  simp [plus, ofSpans, Span.bytes, Span.freeCount, Span.largestFree]

theorem Census.count_allocated (hs : s.allocated = true)
    (hlim : c.allocatedBytes + s.size < Word.limit) :
    c.count ⟨o, ⟨s.size, s.allocated, p⟩⟩ = .ok (c.plus (.ofSpans n [s])) := by
  have hadd : Word.add c.allocatedBytes s.size = .ok (c.allocatedBytes + s.size) :=
    Word.add_eq_ok_iff.mpr ⟨rfl, hlim⟩
  simp [count, hs, hadd, plus, ofSpans, Span.bytes, Span.freeCount, Span.largestFree, pure,
    Except.pure]

theorem Census.count_free (hs : s.allocated = false)
    (hlim : c.freeBytes + s.size < Word.limit) :
    c.count ⟨o, ⟨s.size, s.allocated, p⟩⟩ = .ok (c.plus (.ofSpans n [s])) := by
  have hadd : Word.add c.freeBytes s.size = .ok (c.freeBytes + s.size) :=
    Word.add_eq_ok_iff.mpr ⟨rfl, hlim⟩
  simp [count, hs, hadd, plus, ofSpans, Span.bytes, Span.freeCount, Span.largestFree, pure,
    Except.pure]

theorem Census.plus_ofSpans_cons :
    (c.plus (.ofSpans n [s])).plus (.ofSpans n ss) = c.plus (.ofSpans n (s :: ss)) := by
  cases hs : s.allocated <;>
    simp [hs, plus, ofSpans, Span.bytes, Span.freeCount, Span.largestFree, Nat.add_assoc,
      Nat.add_comm 1, Nat.max_assoc]

/-- Counting the blocks of a row has a result if their bytes can be added up. -/
theorem Census.foldlM_count_eq (hlim : c.allocatedBytes + c.freeBytes + total ss < Word.limit) :
    (layout o p ss).foldlM count c = .ok (c.plus (.ofSpans n ss)) := by
  induction ss generalizing o p c with
  | nil =>
    rw [plus_ofSpans_nil]
    rfl
  | cons s ss ih =>
    rw [Span.total_cons] at hlim
    have hstep : c.count ⟨o, ⟨s.size, s.allocated, p⟩⟩ = .ok (c.plus (.ofSpans n [s])) := by
      cases hs : s.allocated with
      | true => exact hs ▸ count_allocated hs (by omega)
      | false => exact hs ▸ count_free hs (by omega)
    have hbytes : (c.plus (.ofSpans n [s])).allocatedBytes + (c.plus (.ofSpans n [s])).freeBytes =
        c.allocatedBytes + c.freeBytes + s.size := by
      have := Span.bytes_add_bytes [s]
      rw [Span.total_cons, Span.total_nil] at this
      simp only [plus, ofSpans]
      omega
    rw [Span.layout_cons, List.foldlM_cons, hstep, ok_bind, ih (by omega), plus_ofSpans_cons]

/-! ## The lists -/

/-- Following the list of a class comes to its end after at most `n` nodes, whether all of them are
    listed or a large enough one is searched for. -/
structure FreeIndex.EndsWithin (x : FreeIndex) (m : Memory) (k n : Nat) : Prop where
  members : ∃ us, x.members m k = .ok us ∧ us.length ≤ n ∧ x.firstMembers m k (n + 1) = .ok us
  search : ∀ minSize, ∃ r, x.firstFitIn m minSize k = .ok r ∧ ∃ head first, x.head k = .ok head ∧
    m.nextLink head = .ok first ∧ firstOfSize m head minSize (n + 1) first = .ok r

/-- If the lists are followed to their ends and their nodes have sizes, these are the entries. -/
theorem FreeIndex.entries_eq {x : FreeIndex} {m : Memory} {lists : Nat → List Nat}
    {sizeOf : Nat → Nat → Nat} (hmembers : ∀ k < x.size, x.members m k = .ok (lists k))
    (hsize : ∀ k < x.size, ∀ u ∈ lists k, m.sizeAt u = .ok (sizeOf k u)) :
    x.entries m = .ok ((List.range x.size).flatMap fun k =>
      (lists k).map fun u => ⟨u, sizeOf k u, k⟩) := by
  have hclass : ∀ k ∈ List.range x.size, x.entriesOf m k =
      .ok ((lists k).map fun u => ⟨u, sizeOf k u, k⟩) := by
    intro k hk
    rw [List.mem_range] at hk
    rw [entriesOf, hmembers k hk, ok_bind]
    refine mapM_eq_ok fun u hu => ?_
    rw [hsize k hk u hu]
    rfl
  rw [entries, mapM_eq_ok hclass, ok_bind]
  rfl

/-! ## Reports -/

/-- The census counts the blocks, if their bytes can be added up. -/
theorem Heap.census_of_blocks {h : Heap} (hblocks : h.blocks = .ok (layout o p ss))
    (hlim : total ss < Word.limit) : h.census = .ok (.ofSpans h.memory.size ss) := by
  simp only [census, hblocks, ok_bind, Census.ofBlocks]
  rw [Census.foldlM_count_eq (n := h.memory.size) (by dsimp only; omega)]
  simp [Census.plus, Census.ofSpans]

namespace Heap.Realizes

variable {h : Heap} {P : Plan} {k : Nat}

theorem census_eq (hr : h.Realizes P) : h.census = .ok (.ofSpans h.memory.size P.spans) := by
  have hsize := hr.size_eq
  have hlim := hr.charted.addressable
  exact census_of_blocks hr.blocks_eq (by omega)

theorem freeEntries_eq (hr : h.Realizes P) : h.freeEntries =
    .ok ((List.range h.index.size).flatMap fun k => (P.lists k).map fun u =>
      ⟨u, Span.sizeFrom h.start P.spans u, k⟩) := by
  exact FreeIndex.entries_eq (fun k hk => hr.charted.threaded.members_eq hk)
    fun k hk u hu => hr.sizeAt_listed hk hu

/-- No list has more nodes than least blocks fit between the heads and the epilogue. -/
theorem endsWithin (hr : h.Realizes P) (hk : k < h.index.size) :
    h.index.EndsWithin h.memory k ((h.memory.size - 8 - h.start) / 32) := by
  have hroom : (P.lists k).length ≤ (h.memory.size - 8 - h.start) / 32 := by
    have := hr.length_lists_le hk
    have := hr.size_eq
    omega
  generalize (h.memory.size - 8 - h.start) / 32 = n at hroom ⊢
  have hcircular := hr.charted.threaded.circular hk
  have hhead := hcircular.head_eq
  have hnot := hcircular.head_not_mem
  have hchain := hcircular.isChain_nextLink
  have hsize : ∀ u ∈ P.lists k, h.memory.sizeAt u = .ok (Span.sizeFrom h.start P.spans u) :=
    fun u hu => hr.sizeAt_listed hk hu
  obtain ⟨first, hfirst, hnext⟩ := hcircular.exists_first
  refine ⟨⟨_, hcircular.members_eq, hroom, ?_⟩, fun minSize =>
    ⟨_, hcircular.firstFitIn_eq hsize, _, _, hhead, hnext, ?_⟩⟩
  · rw [FreeIndex.firstMembers, hhead, ok_bind, hnext, ok_bind,
      FreeIndex.follow_eq hchain hfirst hnot, List.take_of_length_le (by omega)]
  · exact FreeIndex.firstOfSize_eq hchain hfirst hnot hsize (by omega)

end Heap.Realizes

end BoundaryTag
