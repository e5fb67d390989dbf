import BoundaryTag.Proofs.Heap.Reports
import BoundaryTag.Proofs.Heap.Verdict

set_option autoImplicit false

/-! # The inventory of an accepted heap

The census and the listing of the free blocks read the memory without checking it, and a list that
does not come back to its head would be followed forever. On a heap that the audit accepts both have
an answer nevertheless, whatever its bytes are, and the two agree (`check_inventories`): no node
comes up twice, be it on one list or on two, the classes are those of the sizes, the counts of free
blocks are equal, and the bytes of all blocks are those between the heads and the epilogue. -/

open BoundaryTag.Span (total layout)

namespace BoundaryTag

/-- The census and the listing of the free blocks of a heap have answers that agree. -/
structure Heap.Inventory (h : Heap) (c : Census) (es : List FreeEntry) (lists : Nat → List Nat) :
    Prop where
  census_eq : h.census = .ok c
  entries_eq : h.freeEntries = .ok es
  /-- Each list is followed to its end, and the entries are the nodes of all lists. -/
  members_eq : ∀ k < h.index.size, h.index.members h.memory k = .ok (lists k)
  offsets_eq : es.map FreeEntry.offset = h.index.listed lists
  /-- No two entries are one node, whether they are of one class or of two. -/
  nodup : (es.map FreeEntry.offset).Nodup
  /-- An entry tells the size in the header and the class of that size. -/
  entry : ∀ e ∈ es, h.memory.sizeAt e.offset = .ok e.size ∧ h.index.classify e.size = e.sizeClass ∧
    e.sizeClass < h.index.size
  length_eq : es.length = c.freeBlocks
  bytes_eq : h.start + (c.allocatedBytes + c.freeBytes) + 8 = h.memory.size
  arena_eq : c.arenaBytes = h.memory.size

namespace Audit

variable {a : Audit} {k u : Nat} {nodes : List Nat} {lists : Nat → List Nat} {ss : List Span}

/-- A node of an accepted list has a size, and the list is that of its class. -/
theorem Lists.exists_sizeAt (h : a.Lists k nodes) (hu : u ∈ nodes) :
    ∃ n, a.memory.sizeAt u = .ok n ∧ a.index.classify n = k := by
  obtain ⟨_, hsound⟩ := h.exists_sound hu
  obtain ⟨t, ht, -, hclass⟩ := hsound.tag_eq
  exact ⟨t.size, Memory.sizeAt_of_tagAt ht, hclass⟩

/-- The epilogue is the last word of the memory. -/
theorem Walked.size_eq (h : a.Walked a.start false ss) :
    a.start + total ss + 8 = a.memory.size := by
  have hstop := h.stop_eq
  have hepilogue : a.epilogue = a.memory.size - 8 := rfl
  obtain ⟨w, hw, -⟩ := Memory.tagAt_eq_ok_iff.mp
    (h.shows _ (List.mem_append_right _ (List.mem_singleton_self _))).tagAt_eq
  have hle := (Memory.readWord_eq_ok_iff.mp hw).1
  dsimp only [Span.epilogue] at hle
  omega

end Audit

namespace Heap

variable {h : Heap}

/-- On an accepted heap the reports have answers that agree. -/
theorem check_inventories (hlim : h.memory.size < Word.limit) (hcheck : h.check = .ok (.ok ())) :
    ∃ c es lists, h.Inventory c es lists := by
  obtain ⟨lists, ss, hlists, hwalked, hcount⟩ :=
    (Audit.inspect_eq_ok_iff hlim).mp (Audit.run_eq_sound_iff.mp hcheck)
  have hblocks : h.blocks = .ok (layout h.start true ss) := hwalked.blocksFrom_eq hlim
  have hsize : h.start + total ss + 8 = h.memory.size := hwalked.size_eq
  choose! sizeOf hsizeOf using fun k hk u hu => (hlists k hk).exists_sizeAt (u := u) hu
  have hoffsets : ((List.range h.index.size).flatMap fun k => (lists k).map fun u =>
      (⟨u, sizeOf k u, k⟩ : FreeEntry)).map FreeEntry.offset = h.index.listed lists := by
    simp [FreeIndex.listed, List.map_flatMap, Function.comp_def]
  have hmembers : ∀ k < h.index.size, h.index.members h.memory k = .ok (lists k) :=
    fun k hk => (hlists k hk).members_eq
  exact ⟨_, _, lists, {
    census_eq := census_of_blocks hblocks (by omega)
    entries_eq := FreeIndex.entries_eq hmembers fun k hk u hu => (hsizeOf k hk u hu).1
    members_eq := hmembers
    offsets_eq := hoffsets
    nodup := by
      rw [hoffsets]
      exact Audit.nodup_listed (a := h.audit) hlists
    entry := by
      intro e he
      simp only [List.mem_flatMap, List.mem_range, List.mem_map] at he
      obtain ⟨k, hk, u, hu, rfl⟩ := he
      exact ⟨(hsizeOf k hk u hu).1, (hsizeOf k hk u hu).2, hk⟩
    length_eq := by
      rw [← List.length_map FreeEntry.offset, hoffsets, FreeIndex.listed, List.length_flatMap,
        hcount]
      rfl
    bytes_eq := by
      rw [Census.ofSpans, Span.bytes_add_bytes, hsize]
    arena_eq := rfl }⟩

/-- The only node lies inside an allocated block and the only free block is on no list, since five
    words were overwritten. The reports agree all the same. -/
theorem check_inventories_of_stray : ∃ s m c lists,
    (Session.start? (Region.empty 4096) { checkAfter := false }).bind
      (fun t => t.run? [.allocate 16, .allocate 200, .free (some ⟨104, by decide⟩)]) = some s ∧
    [(8, 160), (16, 160), (160, 32), (168, 0), (176, 0)].foldlM
      (fun m (word : Nat × Nat) => m.writeWord word.1 word.2) s.heap.memory = .ok m ∧
    (s.heap.withMemory m).blocks =
      .ok [⟨96, ⟨32, false, true⟩⟩, ⟨128, ⟨216, true, false⟩⟩] ∧
    (s.heap.withMemory m).Inventory c [⟨160, 32, 0⟩] lists := by
  have hrun : ((Session.start? (Region.empty 4096) { checkAfter := false }).bind
      (fun t => t.run? [.allocate 16, .allocate 200, .free (some ⟨104, by decide⟩)])).map (fun s =>
        match [(8, 160), (16, 160), (160, 32), (168, 0), (176, 0)].foldlM
          (fun m (word : Nat × Nat) => m.writeWord word.1 word.2) s.heap.memory with
        | .ok m => decide ((s.heap.withMemory m).memory.size < Word.limit ∧
            (s.heap.withMemory m).check = .ok (.ok ()) ∧
            (s.heap.withMemory m).blocks =
              .ok [⟨96, ⟨32, false, true⟩⟩, ⟨128, ⟨216, true, false⟩⟩] ∧
            (s.heap.withMemory m).freeEntries = .ok [⟨160, 32, 0⟩])
        | .error _ => false) = some true := by
    decide +kernel
  obtain ⟨s, hs, heq⟩ := Option.map_eq_some_iff.mp hrun
  split at heq
  · rename_i m hm
    obtain ⟨hlim, hcheck, hblocks, hentries⟩ := of_decide_eq_true heq
    obtain ⟨c, es, lists, hinventory⟩ := check_inventories hlim hcheck
    cases hinventory.entries_eq.symm.trans hentries
    exact ⟨s, m, c, lists, hs, hm, hblocks, hinventory⟩
  · cases heq

end Heap

end BoundaryTag
