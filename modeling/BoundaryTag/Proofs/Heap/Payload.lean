import BoundaryTag.Proofs.Heap.Outcome

set_option autoImplicit false

/-! # Payloads

The payload of an allocated block is all of it but the header. Its bytes may be written at will: the
plan that the heap realizes stays the same (`Realizes.of_payload`), whether the client writes
(`Realizes.writePayload`) or the heap copies (`Memory.exists_copy`). -/

open BoundaryTag.Span (total layout tags places)

namespace BoundaryTag

open Memory (Touches Within Keeps)

namespace Memory

variable {m : Memory} {i j n : Nat}

/-- Bytes can be copied inside the memory. -/
theorem exists_copy (hi : i + n ≤ m.size) (hj : j + n ≤ m.size) :
    ∃ m', m.copy i j n = .ok m' ∧ m'.size = m.size ∧ m'.load j n = m.load i n ∧
      ∀ b, b < j ∨ j + n ≤ b → m'.byte b = m.byte b := by
  have hlen : (m.load i n).length = n := length_load m i n
  refine ⟨m.store j (m.load i n), ?_, size_store _ _ _, ?_, fun b hb => ?_⟩
  · simp only [copy, slice?, if_pos hi, overwrite?, hlen, if_pos hj]
  · have hload := load_store_self m j (m.load i n) (by omega)
    rwa [hlen] at hload
  · rw [byte_store]
    split
    · rw [List.getElem?_eq_none (by omega)]
      rfl
    · rfl

end Memory

namespace Heap

variable {h : Heap} {P : Plan} {p : Handle} {o k skip : Nat} {m' : Memory}

/-- Bytes of a payload do not matter to the plan. -/
theorem Realizes.of_payload (hr : h.Realizes P) (hk : (o, k) ∈ places true h.start P.spans)
    (hsize : m'.size = h.memory.size)
    (hbyte : ∀ i, i < o + 8 ∨ o + k ≤ i → m'.byte i = h.memory.byte i) :
    (h.withMemory m').Realizes P := by
  have hbounds := hr.place_bounds hk
  obtain ⟨b, hb, hall, rfl, rfl⟩ := (Span.mem_places_iff (p := true)).mp hk
  -- the payload is covered by the words inside it
  have ht : Touches (List.range' (b.offset + 8) (b.tag.size - 15)) h.memory m' := by
    refine ⟨hsize, fun i hi => hbyte i ?_⟩
    by_contra hin
    rw [not_or, Nat.not_lt, Nat.not_le] at hin
    have := hi (min i (b.offset + b.tag.size - 8)) (by rw [List.mem_range'_1]; omega)
    omega
  refine ⟨hr.valid, hr.thresholds_eq, hr.base_mod, hr.start_eq, hr.size_eq.trans hsize.symm,
    hr.proper, hr.coalesced, hr.charted.of_touches ht (fun w hw => ?_) (fun w hw d hd => ?_),
    hr.covers⟩
  · rw [List.mem_range'_1] at hw
    omega
  · rw [List.mem_range'_1] at hw
    rcases hr.charted.eq_or_apart (List.mem_append_left _ hb) hd with rfl | hle | hle
    · exact .inr (.inr ⟨hall, hw.1⟩)
    · unfold Block.stop at hle
      exact .inl (by omega)
    · exact .inr (.inl (by omega))

/-- A handle can use its block less the header. -/
theorem Realizes.usableSize_eq (hr : h.Realizes P) (hp : p.offset = o + 8)
    (hk : (o, k) ∈ places true h.start P.spans) : h.usableSize p = .ok (k - 8) := by
  have hblock : p.block = .ok o := Word.sub_eq_ok_iff.mpr (by rw [hp, Nat.add_comm])
  have hsub : Word.sub k Block.headerBytes = .ok (k - 8) := by
    have := (hr.place_bounds hk).2.2.1
    exact Word.sub_eq_ok_iff.mpr (by unfold Block.headerBytes; omega)
  simp only [usableSize, hblock, hr.sizeAt_place hk, ok_bind, hsub]

theorem Realizes.payloadSize_eq (hr : h.Realizes P) (hp : p.offset = o + 8)
    (hk : (o, k) ∈ places true h.start P.spans) : h.payloadSize p = .ok (k - 8) := by
  have hbounds := hr.place_bounds hk
  have hsize := hr.size_eq
  have hle : p.offset + (k - 8) ≤ h.memory.size := by omega
  simp only [payloadSize, hr.usableSize_eq hp hk, ok_bind, if_pos hle]
  rfl

/-- A client's write inside the payload has a result, which realizes the same plan; no byte outside
    the place written changes. -/
theorem Realizes.writePayload (hr : h.Realizes P) (hp : p.offset = o + 8)
    (hk : (o, k) ∈ places true h.start P.spans) {bytes : List UInt8}
    (hle : skip + bytes.length ≤ k - 8) :
    ∃ m', h.writePayload? p skip bytes = .ok (some (h.withMemory m')) ∧
      (h.withMemory m').Realizes P ∧
      m'.load (p.offset + skip) bytes.length = bytes ∧
      ∀ i, i < p.offset + skip ∨ p.offset + skip + bytes.length ≤ i →
        m'.byte i = h.memory.byte i := by
  have hbounds := hr.place_bounds hk
  have hsize := hr.size_eq
  have hbyte : ∀ i, i < p.offset + skip ∨ p.offset + skip + bytes.length ≤ i →
      (h.memory.store (p.offset + skip) bytes).byte i = h.memory.byte i := by
    intro i hi
    rw [Memory.byte_store]
    split
    · rw [List.getElem?_eq_none (by omega)]
      rfl
    · rfl
  refine ⟨h.memory.store (p.offset + skip) bytes, ?_,
    hr.of_payload hk (Memory.size_store _ _ _) (fun i hi => hbyte i (by omega)),
    Memory.load_store_self _ _ _ (by omega), hbyte⟩
  simp only [writePayload?, hr.payloadSize_eq hp hk, ok_bind, if_pos hle]
  rfl

/-- A payload can be copied to another one, as far as it fits there. -/
theorem Realizes.copyPayload (hr : h.Realizes P) {q : Handle} {o' k' n : Nat}
    (hp : p.offset = o + 8) (hk : (o, k) ∈ places true h.start P.spans)
    (hq : q.offset = o' + 8) (hk' : (o', k') ∈ places true h.start P.spans)
    (hn : n ≤ k - 8) (hn' : n ≤ k' - 8) :
    ∃ m', h.memory.copy p.offset q.offset n = .ok m' ∧ (h.withMemory m').Realizes P := by
  have hbounds := hr.place_bounds hk
  have hbounds' := hr.place_bounds hk'
  have hend := hr.size_eq
  obtain ⟨m', hm', hsize, -, hbyte⟩ := Memory.exists_copy (m := h.memory) (n := n)
    (i := p.offset) (j := q.offset) (by omega) (by omega)
  exact ⟨m', hm', hr.of_payload hk' hsize fun i hi => hbyte i (by omega)⟩

end Heap

end BoundaryTag
