import BoundaryTag.Proofs.Heap.Allocate
import BoundaryTag.Proofs.Heap.Payload

set_option autoImplicit false

/-! # What operations do to payloads

What a block owns is its payload: the `k - 8` bytes after the header of a block of `k` bytes. An
operation on one block leaves the payloads of all others as they were, and one that moves a payload
carries its bytes along (`Moves.load_moved`). -/

namespace BoundaryTag

namespace Heap

open Memory (Keeps)

variable {h : Heap} {P P' P₁ : Plan} {p : Handle} {o o' k u j n needed : Nat} {m' m₁ m₂ : Memory}

theorem Realizes.payload_eq (hr : h.Realizes P) (hp : p.offset = o + 8)
    (hk : (o, k) ∈ Span.places true h.start P.spans) :
    h.payload p = .ok (h.memory.load (o + 8) (k - 8)) := by
  simp only [payload, hr.payloadSize_eq hp hk, ok_bind, hp]
  rfl

/-- Places of allocated blocks that start apart lie apart. -/
theorem Realizes.apart (hr : h.Realizes P) (hk : (o, k) ∈ Span.places true h.start P.spans)
    (hj : (u, j) ∈ Span.places true h.start P.spans) (hne : u ≠ o) : o + k ≤ u ∨ u + j ≤ o := by
  rcases hr.places_apart hk hj with ⟨rfl, -⟩ | hle | hle
  · exact absurd rfl hne
  · exact .inl hle
  · exact .inr hle

/-- Words in slack space and others that lie beside a block are not part of its payload. -/
theorem Realizes.load_eq {Q : Nat → Prop} (hr : h.Realizes P)
    (hj : (u, j) ∈ Span.places true h.start P.spans)
    (hkeep : Keeps (fun w => h.Slack P w ∨ Q w) h.memory m')
    (hQ : ∀ w, Q w → u + j ≤ w ∨ w ≤ u) :
    m'.load (u + 8) (j - 8) = h.memory.load (u + 8) (j - 8) := by
  have hbounds := hr.place_bounds hj
  refine hkeep.load_eq fun w hw => ?_
  have hbeside : u + j ≤ w ∨ w ≤ u := hw.elim (Slack.beside hr hj) (hQ w)
  omega

theorem Gives.load_eq (hr : h.Realizes P) (hg : h.Gives P o needed m' P')
    (hj : (u, j) ∈ Span.places true h.start P.spans) :
    m'.load (u + 8) (j - 8) = h.memory.load (u + 8) (j - 8) :=
  hr.load_eq (Q := fun _ => False) hj (hg.keeps.mono fun _ => .inl) fun _ => False.elim

theorem Takes.load_eq (hr : h.Realizes P) (ht : h.Takes P o k m' P')
    (hk : (o, k) ∈ Span.places true h.start P.spans)
    (hj : (u, j) ∈ Span.places true h.start P.spans) (hne : u ≠ o) :
    m'.load (u + 8) (j - 8) = h.memory.load (u + 8) (j - 8) := by
  refine hr.load_eq hj ht.keeps fun w hw => ?_
  have hapart := hr.apart hk hj hne
  omega

theorem Enlarges.load_eq (hr : h.Realizes P) (he : h.Enlarges P o k needed m' P')
    (hk : (o, k) ∈ Span.places true h.start P.spans)
    (hj : (u, j) ∈ Span.places true h.start P.spans) :
    m'.load (u + 8) (j - 8) = h.memory.load (u + 8) (j - 8) := by
  refine hr.load_eq hj he.keeps ?_
  rintro w rfl
  by_cases hne : u = w
  · exact .inr hne.ge
  · have hapart := hr.apart hk hj hne
    have := (hr.place_bounds hk).2.2.1
    omega

section Moves

variable (hr : h.Realizes P) (hm : h.Moves P o k o' needed n m' P' m₁ P₁ m₂)
  (hk : (o, k) ∈ Span.places true h.start P.spans)

include hm hk in
/-- The target of a move is not where the block was. -/
theorem Moves.ne : o' ≠ o := by
  rintro rfl
  exact hm.gives.not_mem_places hk

include hm hk in
/-- The copy puts the source's bytes in the target's place and changes no byte elsewhere. -/
theorem Moves.copied (hn : n ≤ k - 8) (hroom : n + 16 ≤ needed) :
    m₂.load (o' + 8) n = m₁.load (o + 8) n ∧
      ∀ b, b < o' + 8 ∨ o' + 8 + n ≤ b → m₂.byte b = m₁.byte b := by
  obtain ⟨j, hj, htarget⟩ := hm.gives.mem_places
  have hr₁ := hm.gives.realizes
  have hsource := hr₁.place_bounds (hm.gives.places_subset hk)
  have hbounds := hr₁.place_bounds htarget
  have hsize := hr₁.size_eq
  simp only [start_withMemory, memory_withMemory] at hsource hbounds hsize
  obtain ⟨m₃, hcopy, -, hload, hbyte⟩ := Memory.exists_copy (m := m₁) (i := o + 8) (j := o' + 8)
    (n := n) (by omega) (by omega)
  cases hcopy.symm.trans hm.copy_eq
  exact ⟨hload, hbyte⟩

include hr hm hk in
/-- A payload that is moved keeps its bytes, as far as they were asked for. -/
theorem Moves.load_moved (hn : n ≤ k - 8) (hroom : n + 16 ≤ needed) :
    m'.load (o' + 8) n = h.memory.load (o + 8) n := by
  obtain ⟨j, hj, htarget⟩ := hm.gives.mem_places
  have hsource := hm.gives.places_subset hk
  have htail : m'.load (o' + 8) (j - 8) = m₂.load (o' + 8) (j - 8) :=
    hm.takes.load_eq hm.realizes hsource htarget (hm.ne hk)
  have hfit : n ≤ j - 8 := by omega
  calc m'.load (o' + 8) n = m₂.load (o' + 8) n := by
        rw [← m'.take_load hfit, htail, m₂.take_load hfit]
    _ = m₁.load (o + 8) n := (hm.copied hk hn hroom).1
    _ = h.memory.load (o + 8) n := by
        rw [← m₁.take_load hn, hm.gives.load_eq hr hk, h.memory.take_load hn]

include hr hm hk in
/-- Moving a payload leaves the others as they were. -/
theorem Moves.load_eq (hn : n ≤ k - 8) (hroom : n + 16 ≤ needed)
    (hj : (u, j) ∈ Span.places true h.start P.spans) (hne : u ≠ o) :
    m'.load (u + 8) (j - 8) = h.memory.load (u + 8) (j - 8) := by
  obtain ⟨k', hk', htarget⟩ := hm.gives.mem_places
  have hu := hm.gives.places_subset hj
  have hfresh : u ≠ o' := by
    rintro rfl
    exact hm.gives.not_mem_places hj
  have hapart := hm.gives.realizes.apart htarget hu hfresh
  have hroom' := hm.gives.realizes.place_bounds hu
  have hcopied : m₂.load (u + 8) (j - 8) = m₁.load (u + 8) (j - 8) := by
    refine Memory.load_congr fun i hi hi' => (hm.copied hk hn hroom).2 i ?_
    omega
  calc m'.load (u + 8) (j - 8) = m₂.load (u + 8) (j - 8) :=
        hm.takes.load_eq hm.realizes (hm.gives.places_subset hk) hu hne
    _ = m₁.load (u + 8) (j - 8) := hcopied
    _ = h.memory.load (u + 8) (j - 8) := hm.gives.load_eq hr hj

end Moves

/-- Where the payload of a resized block is, and what it has kept of its bytes. -/
theorem Resizes.exists_payload {p q : Handle} {size : Nat} {h' : Heap} (hr : h.Realizes P)
    (hp : p.offset = o + 8) (hk : (o, k) ∈ Span.places true h.start P.spans)
    (hres : h.Resizes P p o k size (.ok (some q), h')) :
    ∃ u j, h'.payload q = .ok (h'.memory.load (u + 8) (j - 8)) ∧ q.offset = u + 8 ∧
      size + 16 ≤ j ∧
      h'.memory.load (u + 8) (min size (k - 8)) = h.memory.load (o + 8) (min size (k - 8)) ∧
      (u = o → k ≤ j ∧ h'.memory.load (o + 8) (k - 8) = h.memory.load (o + 8) (k - 8)) := by
  cases hres with
  | fits hb hle =>
    exact ⟨o, k, hr.payload_eq hp hk, hp, (proper_of_blockSize hb).2.trans hle, rfl,
      fun _ => ⟨Nat.le_refl k, rfl⟩⟩
  | enlarged hb hlt he =>
    obtain ⟨j, hj, hplace⟩ := he.mem_places
    have hkept := he.load_eq hr hk hk
    refine ⟨o, j, he.realizes.payload_eq hp hplace, hp, (proper_of_blockSize hb).2.trans hj, ?_,
      fun _ => ⟨by omega, hkept⟩⟩
    rw [← Memory.take_load _ (Nat.min_le_right size (k - 8)), memory_withMemory, hkept,
      Memory.take_load _ (Nat.min_le_right size (k - 8))]
  | @moved _ o' _ m' m₁ m₂ P' P₁ hb hq hm =>
    have hsize := (proper_of_blockSize hb).2
    obtain ⟨j, hj, htarget⟩ := hm.gives.mem_places
    have hplace : (o', j) ∈ Span.places true h.start P'.spans :=
      (hm.takes.mem_places_iff hm.realizes).mpr ⟨hm.ne hk, htarget⟩
    exact ⟨o', j, hm.takes.realizes.payload_eq hq hplace, hq, hsize.trans hj,
      hm.load_moved hr hk (Nat.min_le_right _ _) (by omega), fun heq => absurd heq (hm.ne hk)⟩

end Heap

end BoundaryTag
