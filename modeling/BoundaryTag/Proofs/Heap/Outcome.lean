import BoundaryTag.Proofs.Heap.Plan

set_option autoImplicit false

/-! # What an operation may do

An operation on a heap that realizes a plan ends in an answer or in one of few faults: `Ends E Q x`.
The faults are those of a heap that lacks something it cannot do without (`Lacks`). What the answers
have in common is said here for allocated blocks: one is added (`Gives`), removed (`Takes`) or made
larger (`Enlarges`), and all bytes that may change lie in slack space, which is no part of any other
allocated block (`Slack.beside`). -/

open BoundaryTag.Span (total layout tags places)

namespace BoundaryTag

open Memory (Keeps)

/-- A computation ends in a fault for which `E` holds, or in an answer for which `Q` holds. -/
def Ends {α : Type} (E : Fault → Prop) (Q : α → Prop) : Except Fault α → Prop
  | .ok a => Q a
  | .error f => E f

namespace Ends

variable {α β : Type} {E E' : Fault → Prop} {Q : α → Prop} {R : β → Prop} {x : Except Fault α}
  {f : α → Except Fault β}

theorem bind (hx : Ends E Q x) (hf : ∀ a, Q a → Ends E R (f a)) : Ends E R (x >>= f) := by
  cases x with
  | ok a => exact hf a hx
  | error fault => exact hx

theorem mono (hx : Ends E Q x) (hE : ∀ fault, E fault → E' fault) : Ends E' Q x := by
  cases x with
  | ok a => exact hx
  | error fault => exact hE fault hx

theorem imp {R : α → Prop} (hx : Ends E Q x) (hQ : ∀ a, Q a → R a) : Ends E R x := by
  cases x with
  | ok a => exact hQ a hx
  | error fault => exact hx

theorem of_ok {a : α} (hx : Ends E Q x) (ha : x = .ok a) : Q a := by
  rw [ha] at hx
  exact hx

end Ends

namespace Heap

variable {h : Heap} {P P' : Plan} {q k w : Nat}

/-- What a heap may lack: a split threshold that is a word, or storage for a size within the limit
    of its region. -/
inductive Lacks (h : Heap) : Fault → Prop where
  | threshold {f : Fault} : h.settings.splitThreshold = .error f → Lacks h f
  | storage {n : Nat} : n < Word.limit → n ≤ h.region.limit → h.region.backing.holds n = false →
      Lacks h .storageTooLarge

/-- Words that no allocated block owns: links of the lists, free blocks up to the tag after them,
    and whatever lies from the epilogue on. -/
def Slack (h : Heap) (P : Plan) (w : Nat) : Prop :=
  h.index.LinkWord P.lists w ∨
    (∃ u k, (u, k) ∈ places false h.start P.spans ∧ u ≤ w ∧ w ≤ u + k) ∨
    h.start + total P.spans ≤ w

/-- Places of a row do not overlap. -/
theorem Realizes.places_apart (hr : h.Realizes P) {a b : Bool} {u v j k : Nat}
    (hu : (u, j) ∈ places a h.start P.spans) (hv : (v, k) ∈ places b h.start P.spans) :
    (u = v ∧ j = k ∧ a = b) ∨ u + j ≤ v ∨ v + k ≤ u := by
  obtain ⟨d, hd, rfl, rfl, rfl⟩ := (Span.mem_places_iff (p := true)).mp hu
  obtain ⟨e, he, rfl, rfl, rfl⟩ := (Span.mem_places_iff (p := true)).mp hv
  rcases hr.charted.eq_or_apart (List.mem_append_left _ hd) (List.mem_append_left _ he) with
    rfl | hle | hle
  · exact .inl ⟨rfl, rfl, rfl⟩
  · exact .inr (.inl hle)
  · exact .inr (.inr hle)

/-- A place lies between the lists and the epilogue and has room for two tags and two links. -/
theorem Realizes.place_bounds (hr : h.Realizes P) {a : Bool}
    (hq : (q, k) ∈ places a h.start P.spans) :
    h.start ≤ q ∧ q + k ≤ h.start + total P.spans ∧ 32 ≤ k ∧ k % 8 = 0 := by
  obtain ⟨d, hd, -, rfl, rfl⟩ := (Span.mem_places_iff (p := true)).mp hq
  obtain ⟨before, after, hss, -⟩ := Span.exists_of_mem_layout hd
  have hs := hr.proper ⟨d.tag.size, d.tag.allocated⟩ (by rw [hss]; simp)
  have hin := Span.le_of_mem_layout hd
  exact ⟨hin.1, hin.2, hs.1, hs.2⟩

theorem Realizes.sizeAt_place (hr : h.Realizes P) {a : Bool}
    (hq : (q, k) ∈ places a h.start P.spans) : h.memory.sizeAt q = .ok k := by
  obtain ⟨b, hb, -, rfl, rfl⟩ := (Span.mem_places_iff (p := true)).mp hq
  exact hr.charted.sizeAt (List.mem_append_left _ hb)

/-- A listed block has the size of its span. -/
theorem Realizes.sizeAt_listed (hr : h.Realizes P) {c u : Nat} (hc : c < h.index.size)
    (hu : u ∈ P.lists c) : h.memory.sizeAt u = .ok (Span.sizeFrom h.start P.spans u) := by
  obtain ⟨k, hk, -⟩ := (hr.mem_lists_iff hc).mp hu
  rw [hr.sizeAt_place hk, Span.sizeFrom_place hr.proper hk]

theorem Realizes.mod_of_place (hr : h.Realizes P) {a : Bool}
    (hq : (q, k) ∈ places a h.start P.spans) : q % 8 = 0 := by
  obtain ⟨b, hb, -, rfl, -⟩ := (Span.mem_places_iff (p := true)).mp hq
  exact Span.mod_of_mem_layout hr.start_mod hr.proper hb

/-- Links of the lists lie below the heap or inside free blocks. -/
theorem Realizes.linkWord_cases (hr : h.Realizes P) (hw : h.index.LinkWord P.lists w) :
    (h.index.base + 8 ≤ w ∧ w + 8 ≤ h.start) ∨
      ∃ u k, (u, k) ∈ places false h.start P.spans ∧ u + 8 ≤ w ∧ w + 16 ≤ u + k := by
  obtain ⟨c, hc, u, hu, hw⟩ := hw
  rw [FreeIndex.cycle, List.mem_cons] at hu
  rcases hu with rfl | hu
  · have := hr.charted.head_le hc
    unfold FreeIndex.headAt at *
    exact .inl (by omega)
  · obtain ⟨j, hj, -⟩ := (hr.mem_lists_iff hc).mp hu
    have := (hr.place_bounds hj).2.2.1
    exact .inr ⟨u, j, hj, by omega⟩

/-- Slack lies beside every allocated block; only its header may be at the end of it. -/
theorem Slack.beside (hr : h.Realizes P) (hq : (q, k) ∈ places true h.start P.spans)
    (hw : h.Slack P w) : q + k ≤ w ∨ w ≤ q := by
  have hbounds := hr.place_bounds hq
  rcases hw with hw | ⟨u, j, hu, hle⟩ | hw
  · rcases hr.linkWord_cases hw with hw | ⟨u, j, hu, hle⟩
    · omega
    · have := hr.places_apart hu hq
      simp only [Bool.false_eq_true, and_false, false_or] at this
      omega
  · have := hr.places_apart hu hq
    simp only [Bool.false_eq_true, and_false, false_or] at this
    omega
  · omega

/-- Growth was refused: the sum of the bytes there are and those asked for is no word or passes the
    limit. -/
def OutOfRoom (h : Heap) (e : Refusal) : Prop :=
  ∃ n, e = .outOfMemory n h.memory.size h.region.limit ∧
    ¬ (h.memory.size + n < Word.limit ∧ h.memory.size + n ≤ h.region.limit)

/-- A block of at least `needed` bytes was allocated at `o`. -/
structure Gives (h : Heap) (P : Plan) (o needed : Nat) (m' : Memory) (P' : Plan) : Prop where
  realizes : (h.withMemory m').Realizes P'
  places : ∃ before after k, needed ≤ k ∧ Span.places true h.start P.spans = before ++ after ∧
    Span.places true h.start P'.spans = before ++ (o, k) :: after
  keeps : Keeps (h.Slack P) h.memory m'

theorem Gives.mem_places {o needed : Nat} {m' : Memory} (hg : h.Gives P o needed m' P') :
    ∃ k, needed ≤ k ∧ (o, k) ∈ Span.places true h.start P'.spans := by
  obtain ⟨before, after, k, hk, -, hplaces⟩ := hg.places
  exact ⟨k, hk, by simp [hplaces]⟩

/-- The other blocks are those there were. -/
theorem Gives.mem_places_iff {o needed u j : Nat} {m' : Memory} (hg : h.Gives P o needed m' P')
    (hu : u ≠ o) : (u, j) ∈ Span.places true h.start P'.spans ↔
      (u, j) ∈ Span.places true h.start P.spans := by
  obtain ⟨before, after, k, -, hold, hnew⟩ := hg.places
  rw [hold, hnew]
  simp [hu]

theorem Gives.not_mem_places {o needed j : Nat} {m' : Memory} (hg : h.Gives P o needed m' P') :
    (o, j) ∉ Span.places true h.start P.spans := by
  obtain ⟨before, after, k, -, hold, hnew⟩ := hg.places
  have hnodup : ((Span.places true h.start P'.spans).map Prod.fst).Nodup :=
    Span.nodup_places hg.realizes.proper
  rw [hnew, List.map_append, List.map_cons, List.nodup_middle, List.nodup_cons] at hnodup
  intro hmem
  rw [hold] at hmem
  refine hnodup.1 ?_
  rw [← List.map_append]
  exact List.mem_map.mpr ⟨(o, j), hmem, rfl⟩

/-- The blocks there were are still allocated. -/
theorem Gives.places_subset {o needed : Nat} {m' : Memory} (hg : h.Gives P o needed m' P') :
    Span.places true h.start P.spans ⊆ Span.places true h.start P'.spans := by
  obtain ⟨before, after, k, -, hold, hnew⟩ := hg.places
  rw [hold, hnew]
  intro q hq
  simp only [List.mem_append, List.mem_cons] at hq ⊢
  tauto

/-- The block of `k` bytes at `o` was freed. -/
structure Takes (h : Heap) (P : Plan) (o k : Nat) (m' : Memory) (P' : Plan) : Prop where
  realizes : (h.withMemory m').Realizes P'
  places : ∃ before after, Span.places true h.start P.spans = before ++ (o, k) :: after ∧
    Span.places true h.start P'.spans = before ++ after
  keeps : Keeps (fun w => h.Slack P w ∨ (o ≤ w ∧ w ≤ o + k)) h.memory m'

/-- Of the blocks there were, the one taken is gone. -/
theorem Takes.mem_places_iff {o k u j : Nat} {m' : Memory} (hr : h.Realizes P)
    (ht : h.Takes P o k m' P') : (u, j) ∈ Span.places true h.start P'.spans ↔
      u ≠ o ∧ (u, j) ∈ Span.places true h.start P.spans := by
  obtain ⟨before, after, hold, hnew⟩ := ht.places
  have hnodup : ((Span.places true h.start P.spans).map Prod.fst).Nodup :=
    Span.nodup_places hr.proper
  rw [hold, List.map_append, List.map_cons, List.nodup_middle, List.nodup_cons,
    ← List.map_append] at hnodup
  rw [hold, hnew]
  constructor
  · intro hmem
    refine ⟨?_, by simp only [List.mem_append, List.mem_cons] at hmem ⊢; tauto⟩
    rintro rfl
    exact hnodup.1 (List.mem_map.mpr ⟨(u, j), hmem, rfl⟩)
  · rintro ⟨hu, hmem⟩
    simpa [hu] using hmem

/-- The block of `k` bytes at `o` was made one of at least `needed`. -/
structure Enlarges (h : Heap) (P : Plan) (o k needed : Nat) (m' : Memory) (P' : Plan) : Prop where
  realizes : (h.withMemory m').Realizes P'
  places : ∃ before after k', needed ≤ k' ∧
    Span.places true h.start P.spans = before ++ (o, k) :: after ∧
    Span.places true h.start P'.spans = before ++ (o, k') :: after
  keeps : Keeps (fun w => h.Slack P w ∨ w = o) h.memory m'

/-- Only the block made larger has another size. -/
theorem Enlarges.mem_places_iff {o k needed u j : Nat} {m' : Memory}
    (he : h.Enlarges P o k needed m' P') (hu : u ≠ o) :
    (u, j) ∈ Span.places true h.start P'.spans ↔ (u, j) ∈ Span.places true h.start P.spans := by
  obtain ⟨before, after, k', -, hold, hnew⟩ := he.places
  rw [hold, hnew]
  simp [hu]

theorem Enlarges.mem_places {o k needed : Nat} {m' : Memory} (he : h.Enlarges P o k needed m' P') :
    ∃ k', needed ≤ k' ∧ (o, k') ∈ Span.places true h.start P'.spans := by
  obtain ⟨before, after, k', hk', -, hplaces⟩ := he.places
  exact ⟨k', hk', by simp [hplaces]⟩

/-- The payload of the block of `k` bytes at `o` went to a new block at `o'`: the block was given,
    `n` bytes were copied, and the old block was taken. -/
structure Moves (h : Heap) (P : Plan) (o k o' needed n : Nat) (m' : Memory) (P' : Plan)
    (m₁ : Memory) (P₁ : Plan) (m₂ : Memory) : Prop where
  gives : h.Gives P o' needed m₁ P₁
  copy_eq : m₁.copy (o + 8) (o' + 8) n = .ok m₂
  realizes : (h.withMemory m₂).Realizes P₁
  takes : (h.withMemory m₂).Takes P₁ o k m' P'

/-! ## Answers -/

/-- A request is refused for lack of room, or because no block is large enough for it. -/
inductive Refuses (h : Heap) (size : Nat) : Refusal → Prop where
  | outOfRoom {e : Refusal} : h.OutOfRoom e → Refuses h size e
  | tooLarge : Request.blockSize size = .ok none → Refuses h size (.requestTooLarge size)

/-- A request faults if the heap lacks something, or if its block size has no result. -/
def Falters (h : Heap) (size : Nat) (f : Fault) : Prop :=
  h.Lacks f ∨ Request.blockSize size = .error f

/-- What the heap answers to a request, and the heap after it. -/
inductive Allocates (h : Heap) (P : Plan) (size : Nat) : Outcome (Option Handle) → Prop where
  | refused {e : Refusal} : h.Refuses size e → Allocates h P size (.error e, h)
  | nothing : size = 0 → Allocates h P size (.ok none, h)
  | given {p : Handle} {o needed : Nat} {m' : Memory} {P' : Plan} : size ≠ 0 →
      Request.blockSize size = .ok (some needed) → p.offset = o + 8 →
      h.Gives P o needed m' P' → Allocates h P size (.ok (some p), h.withMemory m')

/-- What the heap answers when the block of `k` bytes at `o` is resized, and the heap after it. -/
inductive Resizes (h : Heap) (P : Plan) (p : Handle) (o k size : Nat) :
    Outcome (Option Handle) → Prop where
  | refused {e : Refusal} : h.Refuses size e → Resizes h P p o k size (.error e, h)
  | fits {needed : Nat} : Request.blockSize size = .ok (some needed) → needed ≤ k →
      Resizes h P p o k size (.ok (some p), h)
  | enlarged {needed : Nat} {m' : Memory} {P' : Plan} :
      Request.blockSize size = .ok (some needed) → k < needed →
      h.Enlarges P o k needed m' P' → Resizes h P p o k size (.ok (some p), h.withMemory m')
  | moved {needed o' : Nat} {p' : Handle} {m' m₁ m₂ : Memory} {P' P₁ : Plan} :
      Request.blockSize size = .ok (some needed) → p'.offset = o' + 8 →
      h.Moves P o k o' needed (min size (k - 8)) m' P' m₁ P₁ m₂ →
      Resizes h P p o k size (.ok (some p'), h.withMemory m')

end Heap

end BoundaryTag
