import BoundaryTag.Proofs.FreeIndex.Twice
import BoundaryTag.Proofs.Heap.Free

set_option autoImplicit false

/-! # Where a stray header leads

Freeing goes by the header that it finds, whatever that is: it formats a block of that size, tells
the header behind it (`retagged`), and asks both for free neighbours (`Neighbours`). A neighbour is
taken off its list only if a list leads through it, so that a block is merged with what it finds
(`Merges`) or was found to have no free neighbour at all (`merges_of_merge`). What freeing and merging
do step by step is said once here (`exists_of_free`, `exists_of_merge`). -/

namespace BoundaryTag.Heap

variable {m m' m₀ : Memory} {o next start : Nat} {t : Tag} {prevFree nextFree : Bool}

/-- The bytes in which a freed block at `o` with the header `t` looks for its neighbours: it is
    formatted as a free block, and the header behind it is told. -/
def retagged (m : Memory) (o : Nat) (t : Tag) : Except Fault Memory := do
  let m ← m.formatFree o t.size t.prevAllocated
  m.markPrevAllocated (← m.successor o) false

/-- Whether the tags say that the blocks before and after `o` are free. -/
structure Neighbours (m : Memory) (o next : Nat) (prevFree nextFree : Bool) : Prop where
  prev_eq : m.prevAllocatedAt o = .ok !prevFree
  next_eq : m.successor o = .ok next
  free_eq : m.freeAt next = .ok nextFree

/-- The block at `o` finds free neighbours, and a list leads through each when it is taken off. -/
inductive Merges (m : Memory) (o : Nat) : Prop where
  | before {prev next : Nat} (neighbours : Neighbours m o next true false)
      (prev_eq : m.predecessor o = .ok prev) (through : m.LeadsThrough prev)
  | behind {next : Nat} (neighbours : Neighbours m o next false true)
      (through : m.LeadsThrough next)
  | both {prev next : Nat} {m' : Memory} (neighbours : Neighbours m o next true true)
      (prev_eq : m.predecessor o = .ok prev) (through : m.LeadsThrough prev)
      (unlink_eq : FreeIndex.unlink m prev = .ok m') (through' : m'.LeadsThrough next)

/-- What stands at `o`, taken for the header `t`, misleads freeing: to neighbours that can be taken
    off their lists; or to none, but to a footer in the place of a block's header. Without a size the
    block is its own neighbour, which misleads only where links may share bytes. -/
inductive Misled (h : Heap) (o : Nat) (t : Tag) : Prop where
  | merged {m : Memory} (retagged_eq : retagged h.memory o t = .ok m) (merges : Merges m o)
      (shared : t.size = 0 → 2 ^ 40 < h.memory.size ∨ o = 2 ^ 32)
  | struck {bs : List Block} {b : Block} (size_ne : t.size ≠ 0) (prev_eq : t.prevAllocated = true)
      (next_eq : ∀ u, h.memory.tagAt (o + t.size) = .ok u → u.allocated = true)
      (blocks_eq : h.blocks = .ok bs) (mem : b ∈ bs) (offset_eq : b.offset + 8 = o + t.size)

/-! ## Neighbours -/

/-- A block without a size is told that it comes behind a free one, namely itself. -/
theorem tagAt_of_blank (hm : retagged m₀ o t = .ok m) (h0 : t.size = 0) :
    m.tagAt o = .ok ⟨0, false, false⟩ := by
  simp only [retagged, bind_eq_ok_iff] at hm
  obtain ⟨m₁, hm₁, next, hnext, hm⟩ := hm
  rw [h0] at hm₁
  have htag := Memory.tagAt_formatFree_self hm₁ rfl
  simp only [Memory.successor, Memory.sizeAt_of_tagAt htag, ok_bind] at hnext
  obtain ⟨rfl, -⟩ := Word.add_eq_ok_iff.mp hnext
  exact Memory.tagAt_markPrevAllocated_self hm htag

/-- With a size, the block keeps its tag, and the header behind it is told. -/
theorem tagAt_of_sized (hm : retagged m₀ o t = .ok m) (h0 : t.size ≠ 0) (hmod : t.size % 8 = 0) :
    m.tagAt o = .ok (Tag.free t.size t.prevAllocated) ∧ ∃ u, m₀.tagAt (o + t.size) = .ok u ∧
      m.tagAt (o + t.size) = .ok { u with prevAllocated := false } := by
  simp only [retagged, bind_eq_ok_iff] at hm
  obtain ⟨m₁, hm₁, next, hnext, hm⟩ := hm
  have htag := Memory.tagAt_formatFree_self hm₁ hmod
  simp only [Memory.successor, Memory.sizeAt_of_tagAt htag, ok_bind] at hnext
  obtain ⟨rfl, -⟩ := Word.add_eq_ok_iff.mp hnext
  change m₁.markPrevAllocated (o + t.size) false = .ok m at hm
  have hkept : m.tagAt o = m₁.tagAt o := Memory.tagAt_markPrevAllocated_before hm (by omega)
  obtain ⟨u, hu, -⟩ := bind_eq_ok_iff.mp hm
  have htold := Memory.tagAt_markPrevAllocated_self hm hu
  rw [Memory.tagAt_formatFree_behind hm₁ (by omega) (Nat.le_refl _)] at hu
  exact ⟨hkept.trans htag, u, hu, htold⟩

/-- The neighbours are those that the tag of the block and the one behind it tell of. -/
theorem Neighbours.of_tag (hn : Neighbours m o next prevFree nextFree) (ht : m.tagAt o = .ok t) :
    next = o + t.size ∧ prevFree = !t.prevAllocated ∧
      ∃ u, m.tagAt (o + t.size) = .ok u ∧ nextFree = !u.allocated := by
  have hprev := hn.prev_eq
  have hnext := hn.next_eq
  rw [Memory.prevAllocatedAt_of_tagAt ht, Except.ok.injEq] at hprev
  simp only [Memory.successor, Memory.sizeAt_of_tagAt ht, ok_bind] at hnext
  obtain ⟨rfl, -⟩ := Word.add_eq_ok_iff.mp hnext
  obtain ⟨u, hu, hfree⟩ := bind_eq_ok_iff.mp hn.free_eq
  refine ⟨rfl, ?_, u, hu, (pure_eq_ok_iff.mp hfree).symm⟩
  rw [hprev, Bool.not_not]

/-- Without a size, the block finds itself on both sides. -/
theorem Neighbours.of_blank (hn : Neighbours m o next prevFree nextFree)
    (hm : retagged m₀ o t = .ok m) (h0 : t.size = 0) : prevFree = true ∧ nextFree = true := by
  have htag := tagAt_of_blank hm h0
  obtain ⟨-, hprev, u, hu, hfree⟩ := hn.of_tag htag
  cases htag.symm.trans hu
  exact ⟨hprev, hfree⟩

/-- With a size, the neighbours are what the header and the one behind it told before. -/
theorem Neighbours.of_sized (hn : Neighbours m o next prevFree nextFree)
    (hm : retagged m₀ o t = .ok m) (h0 : t.size ≠ 0) (hmod : t.size % 8 = 0) :
    prevFree = !t.prevAllocated ∧
      ∃ u, m₀.tagAt (o + t.size) = .ok u ∧ nextFree = !u.allocated := by
  obtain ⟨htag, u, hu, htold⟩ := tagAt_of_sized hm h0 hmod
  obtain ⟨-, hprev, v, hv, hfree⟩ := hn.of_tag htag
  cases htold.symm.trans hv
  exact ⟨hprev, u, hu, hfree⟩

/-! ## Merging -/

/-- Merging takes the free neighbours off their lists and formats what the block has become. -/
theorem exists_of_merge (h : (merge m o).result = .ok (start, m')) :
    ∃ size next prevFree nextFree merged m₁ prevAllocated, m.sizeAt o = .ok size ∧
      Neighbours m o next prevFree nextFree ∧
      takeNeighbours m o size next prevFree nextFree = .ok (start, merged, m₁) ∧
      m₁.prevAllocatedAt start = .ok prevAllocated ∧
      retagged m₁ start (Tag.free merged prevAllocated) = .ok m' := by
  simp only [merge, Traced.result_bind_eq_ok_iff, Traced.result_lift, Traced.result_pure,
    Traced.result_recordIf, Except.ok.injEq, exists_unit_iff, true_and] at h
  obtain ⟨size, hsize, prev, hprev, next, hnext, free, hfree, ⟨start', merged, m₁⟩, htake, prev',
    hprev', m₂, hm₂, next', hnext', m₃, hm₃, heq⟩ := h
  cases heq
  exact ⟨size, next, !prev, free, merged, m₁, prev', hsize,
    ⟨by rw [Bool.not_not, hprev], hnext, hfree⟩, htake, hprev',
    bind_eq_ok_iff.mpr ⟨m₂, hm₂, bind_eq_ok_iff.mpr ⟨next', hnext', hm₃⟩⟩⟩

/-- Merging finds neighbours that it can take off their lists, or none that is free. -/
theorem merges_of_merge (h : (merge m o).result = .ok (start, m')) :
    Merges m o ∨ ∃ next, Neighbours m o next false false := by
  obtain ⟨size, next, prevFree, nextFree, merged, m₁, prev, -, hn, htake, -⟩ := exists_of_merge h
  cases prevFree <;> cases nextFree
  · exact .inr ⟨next, hn⟩
  · simp only [takeNeighbours, bind_eq_ok_iff] at htake
    obtain ⟨m₂, hm₂, -⟩ := htake
    exact .inl (.behind hn (FreeIndex.leadsThrough_of_unlink hm₂))
  · simp only [takeNeighbours, bind_eq_ok_iff] at htake
    obtain ⟨a, ha, m₂, hm₂, -⟩ := htake
    exact .inl (.before hn ha (FreeIndex.leadsThrough_of_unlink hm₂))
  · simp only [takeNeighbours, bind_eq_ok_iff] at htake
    obtain ⟨a, ha, m₂, hm₂, m₃, hm₃, -⟩ := htake
    exact .inl (.both hn ha (FreeIndex.leadsThrough_of_unlink hm₂) hm₂
      (FreeIndex.leadsThrough_of_unlink hm₃))

/-- A block that finds no free neighbour is formatted once more as it is. -/
theorem retagged_of_merge (hn : Neighbours m o next false false) (ht : m.tagAt o = .ok t)
    (h : (merge m o).result = .ok (start, m')) :
    start = o ∧ retagged m o (Tag.free t.size t.prevAllocated) = .ok m' := by
  obtain ⟨size, next', prevFree, nextFree, merged, m₁, prev, hsize, hn', htake, hprev, hm'⟩ :=
    exists_of_merge h
  obtain ⟨-, hbefore, u, hu, hbehind⟩ := hn.of_tag ht
  obtain ⟨-, rfl, v, hv, rfl⟩ := hn'.of_tag ht
  cases hu.symm.trans hv
  rw [← hbefore, ← hbehind] at htake
  cases htake
  cases (Memory.sizeAt_of_tagAt ht).symm.trans hsize
  cases (Memory.prevAllocatedAt_of_tagAt ht).symm.trans hprev
  exact ⟨rfl, hm'⟩

/-- Freeing formats the block by its header, merges it, and lists what it has become. -/
theorem exists_of_free {h h' : Heap} {p : Handle} (hp : p.offset = o + 8)
    (ht : h.memory.tagAt o = .ok t) (hfree : (h.free (some p)).result = .ok h') :
    ∃ m m₁ m' start, retagged h.memory o t = .ok m ∧ (merge m o).result = .ok (start, m₁) ∧
      h.index.push m₁ start = .ok m' ∧ h' = h.withMemory m' ∧ h'.verify.result = .ok () := by
  simp only [free, Traced.result_bind_eq_ok_iff, Traced.result_lift, Traced.result_pure,
    Traced.result_record, Except.ok.injEq, exists_unit_iff, true_and] at hfree
  obtain ⟨block, hblock, t', ht', m₁, hm₁, next, hnext, m₂, hm₂, ⟨start, m₃⟩, hm₃, m₄, hm₄, -, -,
    hverify, rfl⟩ := hfree
  cases (block_eq_ok_iff.mpr hp).symm.trans hblock
  cases ht.symm.trans ht'
  exact ⟨m₂, m₃, m₄, start, bind_eq_ok_iff.mpr ⟨m₁, hm₁, bind_eq_ok_iff.mpr ⟨next, hnext, hm₂⟩⟩,
    hm₃, hm₄, rfl, hverify⟩

end BoundaryTag.Heap
