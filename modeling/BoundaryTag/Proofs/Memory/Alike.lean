import BoundaryTag.Heap.Reshape
import BoundaryTag.Memory.Lemmas
import BoundaryTag.Steps

set_option autoImplicit false

/-! # Memories that hold the same bytes

Two memories of the same size with the same bytes may still be stored differently (`Memory.Alike`).
Nothing that is read from them shows it, and what is written to both keeps them alike. So every
computation on them ends alike on both (`Matches`): it has the same fault, or answers that belong
together. -/

namespace BoundaryTag

/-- Two computations end in the same fault, or in answers that `R` relates. -/
inductive Matches {α β : Type} (R : α → β → Prop) : Except Fault α → Except Fault β → Prop where
  | ok {a : α} {b : β} : R a b → Matches R (.ok a) (.ok b)
  | error {f : Fault} : Matches R (.error f) (.error f)

namespace Matches

variable {α β γ δ : Type} {R : α → β → Prop} {S : γ → δ → Prop} {x : Except Fault α}
  {y : Except Fault β}

theorem bind {f : α → Except Fault γ} {g : β → Except Fault δ} (hxy : Matches R x y)
    (hfg : ∀ a b, R a b → Matches S (f a) (g b)) : Matches S (x >>= f) (y >>= g) := by
  cases hxy with
  | ok hab => exact hfg _ _ hab
  | error => exact .error

/-- Both go on after the same step. -/
theorem same {f : α → Except Fault γ} {g : α → Except Fault δ}
    (hfg : ∀ a, Matches S (f a) (g a)) : Matches S (x >>= f) (x >>= g) := by
  cases x with
  | ok a => exact hfg a
  | error fault => exact .error

theorem fold {ι : Type} {f : α → ι → Except Fault α} {g : β → ι → Except Fault β}
    (hfg : ∀ a b i, R a b → Matches R (f a i) (g b i)) {a : α} {b : β} (hab : R a b)
    (is : List ι) : Matches R (is.foldlM f a) (is.foldlM g b) := by
  induction is generalizing a b with
  | nil => exact .ok hab
  | cons i is ih =>
    rw [List.foldlM_cons, List.foldlM_cons]
    exact (hfg a b i hab).bind fun _ _ h => ih h

end Matches

/-- Two memories of `n` bytes hold the same ones. -/
structure Memory.Alike (n : Nat) (m m' : Memory) : Prop where
  size_left : m.size = n
  size_right : m'.size = n
  byte_eq : ∀ i, m.byte i = m'.byte i

namespace Memory.Alike

variable {m m' : Memory} {n : Nat}

/-! ## Reading -/

theorem size_eq (h : Alike n m m') : m.size = m'.size :=
  h.size_left.trans h.size_right.symm

theorem load (h : Alike n m m') : m.load = m'.load := by
  funext i k
  exact load_congr fun j _ _ => h.byte_eq j

theorem word? (h : Alike n m m') : m.word? = m'.word? := by
  funext i
  rw [word?_eq, word?_eq, h.size_eq, h.load]

theorem readWord (h : Alike n m m') : m.readWord = m'.readWord := by
  funext i
  rw [Memory.readWord, Memory.readWord, h.word?]

theorem tagAt (h : Alike n m m') : m.tagAt = m'.tagAt := by
  funext i
  rw [Memory.tagAt, Memory.tagAt, h.readWord]

theorem sizeAt (h : Alike n m m') : m.sizeAt = m'.sizeAt := by
  funext i
  rw [Memory.sizeAt, Memory.sizeAt, h.tagAt]

theorem freeAt (h : Alike n m m') : m.freeAt = m'.freeAt := by
  funext i
  rw [Memory.freeAt, Memory.freeAt, h.tagAt]

theorem prevAllocatedAt (h : Alike n m m') : m.prevAllocatedAt = m'.prevAllocatedAt := by
  funext i
  rw [Memory.prevAllocatedAt, Memory.prevAllocatedAt, h.tagAt]

theorem successor (h : Alike n m m') : m.successor = m'.successor := by
  funext i
  rw [Memory.successor, Memory.successor, h.sizeAt]

theorem predecessor (h : Alike n m m') : m.predecessor = m'.predecessor := by
  funext i
  rw [Memory.predecessor, Memory.predecessor, h.tagAt]

theorem nextLink (h : Alike n m m') : m.nextLink = m'.nextLink := by
  funext i
  rw [Memory.nextLink, Memory.nextLink, h.readWord]

theorem priorLink (h : Alike n m m') : m.priorLink = m'.priorLink := by
  funext i
  rw [Memory.priorLink, Memory.priorLink, h.readWord]

theorem isLinked (h : Alike n m m') : FreeIndex.isLinked m = FreeIndex.isLinked m' := by
  funext block prior next
  rw [FreeIndex.isLinked, FreeIndex.isLinked, h.nextLink, h.priorLink]

theorem firstOfSize (h : Alike n m m') (head minSize : Nat) :
    FreeIndex.firstOfSize m head minSize = FreeIndex.firstOfSize m' head minSize := by
  funext k
  induction k with
  | zero => rfl
  | succ k ih =>
    funext cursor
    rw [FreeIndex.firstOfSize, FreeIndex.firstOfSize, h.nextLink, h.sizeAt, ih]

theorem firstFit (h : Alike n m m') (x : FreeIndex) : x.firstFit m = x.firstFit m' := by
  have hin : ∀ minSize, x.firstFitIn m minSize = x.firstFitIn m' minSize := by
    intro minSize
    funext c
    simp only [FreeIndex.firstFitIn, h.firstOfSize, h.nextLink, h.size_eq]
  funext minSize
  rw [FreeIndex.firstFit, FreeIndex.firstFit, hin]

/-! ## Writing -/

theorem store (h : Alike n m m') (i : Nat) (bytes : List UInt8) :
    Alike n (m.store i bytes) (m'.store i bytes) := by
  refine ⟨?_, ?_, fun j => ?_⟩
  · rw [size_store, h.size_left]
  · rw [size_store, h.size_right]
  · rw [byte_store, byte_store, h.byte_eq, h.size_eq]

theorem grow (h : Alike n m m') (k : Nat) : Alike (n + k) (m.grow k) (m'.grow k) := by
  refine ⟨?_, ?_, fun j => ?_⟩
  · rw [size_grow, h.size_left]
  · rw [size_grow, h.size_right]
  · rw [byte_grow, byte_grow, h.byte_eq]

theorem writeWord (h : Alike n m m') (i w : Nat) :
    Matches (Alike n) (m.writeWord i w) (m'.writeWord i w) := by
  rw [writeWord_eq, writeWord_eq, h.size_eq]
  split
  · exact .ok (h.store _ _)
  · exact .error

/-- An overwriting stays inside both memories or neither. -/
theorem overwrite? (h : Alike n m m') (i : Nat) (bytes : List UInt8) :
    (m.overwrite? i bytes = some (m.store i bytes) ∧
      m'.overwrite? i bytes = some (m'.store i bytes)) ∨
    (m.overwrite? i bytes = none ∧ m'.overwrite? i bytes = none) := by
  rw [Memory.overwrite?, Memory.overwrite?, h.size_eq]
  by_cases hle : i + bytes.length ≤ m'.size
  · simp only [if_pos hle]
    exact .inl ⟨trivial, trivial⟩
  · simp only [if_neg hle]
    exact .inr ⟨trivial, trivial⟩

theorem copy (h : Alike n m m') (source target k : Nat) :
    Matches (Alike n) (m.copy source target k) (m'.copy source target k) := by
  rw [Memory.copy, Memory.copy, slice?, slice?, h.size_eq, h.load]
  cases (if source + k ≤ m'.size then some (m'.load source k) else none) with
  | none => exact .error
  | some bytes =>
    rcases h.overwrite? target bytes with ⟨hm, hm'⟩ | ⟨hm, hm'⟩
    · simp only [hm, hm']
      exact .ok (h.store _ _)
    · simp only [hm, hm']
      exact .error

theorem setHeader (h : Alike n m m') (block : Nat) (tag : Tag) :
    Matches (Alike n) (m.setHeader block tag) (m'.setHeader block tag) :=
  h.writeWord _ _

theorem setFooter (h : Alike n m m') (block : Nat) (tag : Tag) :
    Matches (Alike n) (m.setFooter block tag) (m'.setFooter block tag) :=
  .same fun _ => .same fun _ => h.writeWord _ _

theorem formatFree (h : Alike n m m') (block size : Nat) (p : Bool) :
    Matches (Alike n) (m.formatFree block size p) (m'.formatFree block size p) :=
  (h.setHeader _ _).bind fun _ _ h => h.setFooter _ _

theorem markPrevAllocated (h : Alike n m m') (block : Nat) (p : Bool) :
    Matches (Alike n) (m.markPrevAllocated block p) (m'.markPrevAllocated block p) := by
  rw [Memory.markPrevAllocated, Memory.markPrevAllocated, h.tagAt]
  refine .same fun tag => (h.setHeader _ _).bind fun _ _ h => ?_
  split
  · exact h.setFooter _ _
  · exact .ok h

theorem setNextLink (h : Alike n m m') (node next : Nat) :
    Matches (Alike n) (m.setNextLink node next) (m'.setNextLink node next) :=
  .same fun _ => h.writeWord _ _

theorem setPriorLink (h : Alike n m m') (node prior : Nat) :
    Matches (Alike n) (m.setPriorLink node prior) (m'.setPriorLink node prior) :=
  .same fun _ => .same fun _ => h.writeWord _ _

/-! ## Changing lists -/

theorem resetHead (h : Alike n m m') (x : FreeIndex) (c : Nat) :
    Matches (Alike n) (x.resetHead m c) (x.resetHead m' c) :=
  .same fun _ => (h.setHeader _ _).bind fun _ _ h =>
    (h.setNextLink _ _).bind fun _ _ h => h.setPriorLink _ _

theorem reset (h : Alike n m m') (x : FreeIndex) :
    Matches (Alike n) (x.reset m) (x.reset m') :=
  .fold (fun _ _ c h => h.resetHead x c) h _

theorem push (h : Alike n m m') (x : FreeIndex) (block : Nat) :
    Matches (Alike n) (x.push m block) (x.push m' block) := by
  rw [FreeIndex.push, FreeIndex.push, h.freeAt, h.sizeAt, h.nextLink]
  refine .same fun free => ?_
  split
  · exact .same fun _ => .same fun _ => .same fun _ => (h.setPriorLink _ _).bind fun _ _ h =>
      (h.setNextLink _ _).bind fun _ _ h => (h.setPriorLink _ _).bind fun _ _ h =>
        h.setNextLink _ _
  · exact .error

theorem unlink (h : Alike n m m') (block : Nat) :
    Matches (Alike n) (FreeIndex.unlink m block) (FreeIndex.unlink m' block) := by
  rw [FreeIndex.unlink, FreeIndex.unlink, h.nextLink, h.priorLink, h.isLinked]
  refine .same fun next => .same fun prior => .same fun linked => ?_
  split
  · exact (h.setNextLink _ _).bind fun _ _ h => h.setPriorLink _ _
  · exact .error

/-! ## Changing blocks -/

theorem setEpilogue (h : Alike n m m') (offset : Nat) :
    Matches (Alike n) (Heap.setEpilogue m offset) (Heap.setEpilogue m' offset) :=
  h.setHeader _ _

theorem setLast (h : Alike n m m') (block size : Nat) (p : Bool) :
    Matches (Alike n) (Heap.setLast m block size p) (Heap.setLast m' block size p) :=
  (h.setHeader _ _).bind fun _ _ h => .same fun _ => h.setEpilogue _

theorem takeNeighbours (h : Alike n m m') (block size next : Nat) (prevFree nextFree : Bool) :
    Matches (fun r r' => r.1 = r'.1 ∧ r.2.1 = r'.2.1 ∧ Alike n r.2.2 r'.2.2)
      (Heap.takeNeighbours m block size next prevFree nextFree)
      (Heap.takeNeighbours m' block size next prevFree nextFree) := by
  cases prevFree <;> cases nextFree <;>
    simp only [Heap.takeNeighbours, h.predecessor]
  · exact .ok ⟨rfl, rfl, h⟩
  · refine (h.unlink _).bind fun _ _ h => ?_
    rw [h.sizeAt]
    exact .same fun _ => .same fun _ => .ok ⟨rfl, rfl, h⟩
  · refine .same fun prev => (h.unlink _).bind fun _ _ h => ?_
    rw [h.sizeAt]
    exact .same fun _ => .same fun _ => .ok ⟨rfl, rfl, h⟩
  · refine .same fun prev => (h.unlink _).bind fun _ _ h => (h.unlink _).bind fun _ _ h => ?_
    rw [h.sizeAt]
    exact .same fun _ => .same fun _ => .same fun _ => .same fun _ => .ok ⟨rfl, rfl, h⟩

theorem merge (h : Alike n m m') (block : Nat) :
    Matches (fun r r' => r.1 = r'.1 ∧ Alike n r.2 r'.2)
      (Heap.merge m block).result (Heap.merge m' block).result := by
  simp only [Heap.merge, Traced.result_bind, Traced.result_lift, Traced.result_recordIf, h.sizeAt,
    h.prevAllocatedAt, h.successor, h.freeAt]
  refine .same fun size => .same fun prev => .same fun next => .same fun nextFree =>
    (h.takeNeighbours _ _ _ _ _).bind ?_
  rintro ⟨start, merged, m₁⟩ ⟨_, _, m₁'⟩ ⟨rfl, rfl, h₁⟩
  simp only [ok_bind, h₁.prevAllocatedAt]
  refine .same fun prevAllocated => (h₁.formatFree _ _ _).bind fun m₂ m₂' h₂ => ?_
  rw [h₂.successor]
  exact .same fun next => (h₂.markPrevAllocated _ _).bind fun _ _ h => .ok ⟨rfl, h⟩

theorem carve (h : Alike n m m') (x : FreeIndex) (settings : Settings) (block needed : Nat) :
    Matches (Alike n) (Heap.carve x settings m block needed).result
      (Heap.carve x settings m' block needed).result := by
  simp only [Heap.carve, Traced.result_bind, Traced.result_lift, h.tagAt]
  refine .same fun tag => .same fun rest => .same fun threshold => ?_
  by_cases hrest : threshold < rest
  · simp only [if_pos hrest, Traced.result_bind, Traced.result_lift, Traced.result_record]
    refine (h.setHeader _ _).bind fun _ _ h => .same fun tail =>
      (h.formatFree _ _ _).bind fun _ _ h => ?_
    rw [ok_bind, ok_bind]
    refine (h.merge _).bind ?_
    rintro ⟨start, m₁⟩ ⟨_, m₁'⟩ ⟨rfl, h₁⟩
    exact h₁.push _ _
  · simp only [if_neg hrest, Traced.result_bind, Traced.result_lift]
    refine (h.setHeader _ _).bind fun _ _ h => ?_
    rw [h.successor]
    exact .same fun _ => h.markPrevAllocated _ _

end Memory.Alike

end BoundaryTag
