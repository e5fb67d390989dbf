import BoundaryTag.Proofs.Audit.Index
import BoundaryTag.Proofs.Row
import BoundaryTag.Proofs.Session.Basic

set_option autoImplicit false

/-! # What a good verdict means

Whatever the bytes of a heap are, if the audit accepts them, then the lists hold as many nodes as
the walk by address meets free blocks, no node twice, and a node where a block starts is that block
(`check_indexes`). Beyond their number the audit does not compare lists and blocks, so a node may
lie inside a block, while a free block is on no list (`check_accepts_stray`). -/

open BoundaryTag.Span (layout tags)

namespace BoundaryTag

/-- The lists of a heap with the blocks `bs` hold free headers, each once and in its class, as many
    as there are free blocks. -/
structure Heap.Indexes (h : Heap) (bs : List Block) (lists : Nat → List Nat) : Prop where
  walked : h.blocks = .ok bs
  /-- The walk does not end early: its blocks tile the heap up to the last word. -/
  row : ∃ last, Block.Row h.start true (bs ++ [⟨h.memory.size - 8, last⟩])
  followed : ∀ c < h.index.size, h.index.members h.memory c = .ok (lists c)
  node : ∀ c < h.index.size, ∀ u ∈ lists c, u % 8 = 0 ∧ h.start ≤ u ∧ u + 8 < h.memory.size ∧
    ∃ t, h.memory.tagAt u = .ok t ∧ t.allocated = false ∧ h.index.classify t.size = c
  nodup : (h.index.listed lists).Nodup
  length_eq : (h.index.listed lists).length = (Block.frees bs).length
  /-- A node where a block starts is that block, and the block is free. -/
  block : ∀ c < h.index.size, ∀ b ∈ bs, b.offset ∈ lists c →
    b.tag.allocated = false ∧ h.index.classify b.tag.size = c
  /-- For each node that is no free block, a free block is on no list. -/
  strays : ((h.index.listed lists).filter (· ∉ Block.frees bs)).length =
    ((Block.frees bs).filter (· ∉ h.index.listed lists)).length
  /-- The lists hold the free blocks exactly if a block starts at every node. -/
  perm_iff : (h.index.listed lists).Perm (Block.frees bs) ↔
    ∀ u ∈ h.index.listed lists, ∃ b ∈ bs, b.offset = u

namespace Span

variable {o : Nat} {prev : Bool} {ss : List Span}

theorem length_frees : (Block.frees (layout o prev ss)).length = freeCount ss := by
  induction ss generalizing o prev with
  | nil => rfl
  | cons s ss ih =>
    have ih : (Block.frees (layout (o + s.size) s.allocated ss)).length = freeCount ss := ih
    rw [Block.frees, List.length_map] at ih ⊢
    rw [layout_cons, freeCount_cons, ← ih, List.filter_cons]
    cases s.allocated <;> simp

theorem nodup_frees (hss : ∀ s ∈ ss, s.Proper) : (Block.frees (layout o prev ss)).Nodup := by
  have hoffsets : ((layout o prev ss).map Block.offset).Nodup := by
    rw [List.Nodup, List.pairwise_map]
    refine (sorted_layout o prev ss).imp_of_mem fun {b d} hb _ hle heq => ?_
    have hword := (proper_of_mem_layout hss hb).word_le
    unfold Block.stop at hle
    omega
  exact hoffsets.sublist (List.filter_sublist.map _)

end Span

namespace Heap

variable {h : Heap}

/-- An accepted heap has the free blocks and the listed nodes counted alike. -/
theorem check_indexes (hlim : h.memory.size < Word.limit) (hcheck : h.check = .ok (.ok ())) :
    ∃ bs lists, h.Indexes bs lists := by
  obtain ⟨lists, ss, hlists, ⟨hproper, hcoalesced, htotal, hshows⟩, hcount⟩ :=
    (Audit.inspect_eq_ok_iff hlim).mp (Audit.run_eq_sound_iff.mp hcheck)
  dsimp only at hlists htotal hshows hcount
  have hepilogue : h.memory.size - Block.epilogueBytes = h.start + Span.total ss := htotal.symm
  have hblocks : h.blocks = .ok (layout h.start true ss) :=
    Memory.blocksFrom_eq hproper (fun b hb => (hshows b hb).tagAt_eq) hepilogue.symm (by omega)
  have hrow : Block.Row h.start true (Span.tags h.start true ss) := Span.row_tags
  rw [Span.tags, Span.epilogue, ← hepilogue] at hrow
  have hnodup : (h.index.listed lists).Nodup :=
    Audit.nodup_listed (a := ⟨h.memory, h.index, h.start⟩) hlists
  have hlen : (h.index.listed lists).length = (Block.frees (layout h.start true ss)).length := by
    rw [FreeIndex.listed, List.length_flatMap, hcount, Span.length_frees]
  have hblock : ∀ c < h.index.size, ∀ b ∈ layout h.start true ss, b.offset ∈ lists c →
      b.tag.allocated = false ∧ h.index.classify b.tag.size = c := by
    intro c hc b hb hu
    obtain ⟨_, hsound⟩ := (hlists c hc).exists_sound hu
    obtain ⟨t, ht, hfree, hclass⟩ := hsound.tag_eq
    cases (hshows b (List.mem_append_left _ hb)).tagAt_eq.symm.trans ht
    exact ⟨hfree, hclass⟩
  refine ⟨_, lists, hblocks, ⟨_, hrow⟩, fun c hc => (hlists c hc).members_eq, fun c hc u hu => ?_, hnodup,
    hlen, hblock, length_filter_not_mem hnodup (Span.nodup_frees hproper) hlen, ?_⟩
  · obtain ⟨_, hsound⟩ := (hlists c hc).exists_sound hu
    have hlt : u < h.memory.size - 8 := hsound.lt_epilogue
    exact ⟨hsound.mod_eq, hsound.start_le, by omega, hsound.tag_eq⟩
  · constructor
    · intro hperm u hu
      obtain ⟨b, hb, -, rfl⟩ := Block.mem_frees.mp (hperm.mem_iff.mp hu)
      exact ⟨b, hb, rfl⟩
    · intro hall
      have hsub : h.index.listed lists ⊆ Block.frees (layout h.start true ss) := by
        intro u hu
        obtain ⟨b, hb, rfl⟩ := hall u hu
        obtain ⟨c, hc, hmem⟩ := FreeIndex.mem_listed.mp hu
        exact Block.mem_frees.mpr ⟨b, hb, (hblock c hc b hb hmem).1, rfl⟩
      exact (List.subperm_of_subset hnodup hsub).perm_of_length_le hlen.ge

/-- A run that leaves free blocks on two lists. -/
theorem check_indexes_of_run : ∃ s, (Session.start? (Region.empty 4096) {}).bind (fun t => t.run?
      [.allocate 16, .allocate 40, .allocate 400, .allocate 16, .free (some ⟨104, by decide⟩),
        .free (some ⟨192, by decide⟩)]) = some s ∧
    s.heap.memory.size < Word.limit ∧ s.heap.check = .ok (.ok ()) ∧
    ∃ bs lists, s.heap.Indexes bs lists := by
  have hrun : ((Session.start? (Region.empty 4096) {}).bind (fun t => t.run?
      [.allocate 16, .allocate 40, .allocate 400, .allocate 16, .free (some ⟨104, by decide⟩),
        .free (some ⟨192, by decide⟩)])).map
      (fun s => decide (s.heap.memory.size < Word.limit ∧ s.heap.check = .ok (.ok ()))) =
        some true := by
    decide +kernel
  obtain ⟨s, hs, heq⟩ := Option.map_eq_some_iff.mp hrun
  obtain ⟨hlim, hcheck⟩ := of_decide_eq_true heq
  exact ⟨s, hs, hlim, hcheck, check_indexes hlim hcheck⟩

/-- The audit accepts a heap whose only node lies inside an allocated block, while its only free
    block is on no list: the two links of the first head and three words of a payload are
    overwritten. -/
theorem check_accepts_stray : ∃ s m', (Session.start? (Region.empty 4096) { checkAfter := false }).bind
      (fun t => t.run? [.allocate 16, .allocate 200, .free (some ⟨104, by decide⟩)]) = some s ∧
    [(8, 160), (16, 160), (160, 32), (168, 0), (176, 0)].foldlM
      (fun m (word : Nat × Nat) => m.writeWord word.1 word.2) s.heap.memory = .ok m' ∧
    (s.heap.withMemory m').check = .ok (.ok ()) ∧
    (s.heap.withMemory m').blocks =
      .ok [⟨96, ⟨32, false, true⟩⟩, ⟨128, ⟨216, true, false⟩⟩] ∧
    (List.range s.heap.index.size).mapM (s.heap.index.members m') = .ok [[160], [], [], []] := by
  have hrun : ((Session.start? (Region.empty 4096) { checkAfter := false }).bind
      (fun t => t.run? [.allocate 16, .allocate 200, .free (some ⟨104, by decide⟩)])).map (fun s =>
        match [(8, 160), (16, 160), (160, 32), (168, 0), (176, 0)].foldlM
          (fun m (word : Nat × Nat) => m.writeWord word.1 word.2) s.heap.memory with
        | .ok m' => decide ((s.heap.withMemory m').check = .ok (.ok ()) ∧
            (s.heap.withMemory m').blocks =
              .ok [⟨96, ⟨32, false, true⟩⟩, ⟨128, ⟨216, true, false⟩⟩] ∧
            (List.range s.heap.index.size).mapM (s.heap.index.members m') =
              .ok [[160], [], [], []])
        | .error _ => false) = some true := by
    decide +kernel
  obtain ⟨s, hs, heq⟩ := Option.map_eq_some_iff.mp hrun
  split at heq
  · rename_i m' hm
    exact ⟨s, m', hs, hm, of_decide_eq_true heq⟩
  · cases heq

end Heap

end BoundaryTag
