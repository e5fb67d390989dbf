import BoundaryTag.Proofs.Heap.Contents
import BoundaryTag.Proofs.Session.Consistent

set_option autoImplicit false

/-! # Payloads of live handles

A live handle has all the bytes that it asked for, apart from everything that the heap keeps for
itself and from the payloads of other handles, and what happens to other handles does not change
them. A handle that is resized keeps its bytes, wherever they go. -/

open BoundaryTag.Span (places)

namespace BoundaryTag

/-- The `k` bytes of a handle are inside the heap, apart from the list heads, from the headers of
    the blocks `bs` and the last tag, and from free blocks. -/
structure Heap.Protects (h : Heap) (bs : List Block) (p : Handle) (k : Nat) : Prop where
  usable : h.usableSize p = .ok k
  aligned : p.offset % 8 = 0
  inside : h.start + 8 ≤ p.offset ∧ p.offset + k + 8 ≤ h.memory.size
  heads : ∀ c < h.index.size, h.index.headAt c + 24 ≤ p.offset
  headers : ∀ b ∈ bs, b.offset + 8 ≤ p.offset ∨ p.offset + k ≤ b.offset
  free : ∀ b ∈ bs, b.tag.allocated = false →
    b.offset + b.tag.size ≤ p.offset ∨ p.offset + k ≤ b.offset

namespace Heap.Realizes

variable {h : Heap} {P : Plan} {p : Handle} {o k : Nat}

theorem protects (hr : h.Realizes P) (hp : p.offset = o + 8)
    (hk : (o, k) ∈ places true h.start P.spans) :
    h.Protects (Span.layout h.start true P.spans) p (k - 8) := by
  have hbounds := hr.place_bounds hk
  have hsize := hr.size_eq
  have hapart : ∀ b ∈ Span.layout h.start true P.spans,
      (b.offset = o ∧ b.tag.allocated = true) ∨ b.offset + b.tag.size ≤ o ∨ o + k ≤ b.offset := by
    intro b hb
    have hplace : (b.offset, b.tag.size) ∈ places b.tag.allocated h.start P.spans :=
      Span.mem_places_iff.mpr ⟨b, hb, rfl, rfl, rfl⟩
    rcases hr.places_apart hplace hk with ⟨ho, -, hall⟩ | hle
    · exact .inl ⟨ho, hall⟩
    · exact .inr hle
  refine ⟨hr.usableSize_eq hp hk, ?_, ⟨by omega, by omega⟩, fun c hc => ?_, fun b hb => ?_,
    fun b hb hfree => ?_⟩
  · have := hr.mod_of_place hk
    omega
  · have := hr.charted.head_le hc
    omega
  · have := hr.charted.proper b (List.mem_append_left _ hb) |>.word_le
    rcases hapart b hb with ⟨ho, -⟩ | hle | hle <;> omega
  · rcases hapart b hb with ⟨-, hall⟩ | hle | hle
    · rw [hall] at hfree
      cases hfree
    · exact .inl (by omega)
    · exact .inr (by omega)

end Heap.Realizes

namespace Session

variable {region : Region} {settings : Settings} {s s' : Session} {P P' : Plan} {p q : Handle}
  {r : Option Handle} {o k size : Nat} {h' : Heap}

/-- A command that names another handle leaves a block and its payload as they were. -/
theorem Effect.untouched (hs : s.Sound P) (he : s.Effect P r s' P') (hp : p.offset = o + 8)
    (hk : (o, k) ∈ places true s.heap.start P.spans) (hne : r ≠ some p) :
    (o, k) ∈ places true s'.heap.start P'.spans ∧
      s'.heap.memory.load (o + 8) (k - 8) = s.heap.memory.load (o + 8) (k - 8) := by
  have hother : ∀ {q u}, q.offset = u + 8 → (some q : Option Handle) ≠ some p → o ≠ u := by
    rintro q u hq hqp rfl
    exact hqp (congrArg some (handle_ext (by omega)))
  cases he with
  | idle => exact ⟨hk, rfl⟩
  | grants _ _ hg => exact ⟨hg.places_subset hk, hg.load_eq hs.realizes hk⟩
  | retires hq hj ht =>
    have ho := hother hq hne
    exact ⟨(ht.mem_places_iff hs.realizes).mpr ⟨ho, hk⟩, ht.load_eq hs.realizes hj hk ho⟩
  | fits _ _ _ => exact ⟨hk, rfl⟩
  | enlarges hq hj _ he =>
    exact ⟨(he.mem_places_iff (hother hq hne)).mpr hk, he.load_eq hs.realizes hj hk⟩
  | moves hq hj _ hsize hm =>
    have ho := hother hq hne
    exact ⟨(hm.takes.mem_places_iff hm.realizes).mpr ⟨ho, hm.gives.places_subset hk⟩,
      hm.load_eq hs.realizes hj (Nat.min_le_right _ _) (by omega) hk ho⟩
  | writes hq hj _ _ hbyte =>
    have hapart := hs.realizes.apart hj hk (hother hq hne)
    have hroom := hs.realizes.place_bounds hk
    refine ⟨hk, Memory.load_congr fun i hi hi' => hbyte i ?_⟩
    omega

/-- A resized handle starts with the bytes that the old one had, as many as were asked for, and with
    all of them if it has stayed where it was. -/
theorem Sound.resize_payload (hs : s.Sound P) (hp : s.IsLive p) (h0 : size ≠ 0)
    (hres : (s.heap.resize (some p) size).result = .ok (.ok (some q), h')) :
    ∃ old new, s.heap.payload p = .ok old ∧ h'.payload q = .ok new ∧ size ≤ new.length ∧
      new.take (min size old.length) = old.take (min size old.length) ∧ (q = p → old <+: new) := by
  obtain ⟨o, k, ho, hk⟩ := hs.place_of_live hp
  obtain ⟨u, j, hnew, hu, hroom, hkept, hstay⟩ :=
    ((Heap.resize_ends hs.realizes ho hk h0).of_ok hres).exists_payload hs.realizes ho hk
  refine ⟨_, _, hs.realizes.payload_eq ho hk, hnew, ?_, ?_, ?_⟩
  · rw [Memory.length_load]
    omega
  · rw [Memory.length_load, Memory.take_load _ (by omega), Memory.take_load _ (by omega), hkept]
  · rintro rfl
    obtain rfl : u = o := by omega
    obtain ⟨hle, hall⟩ := hstay rfl
    rw [← hall, ← h'.memory.take_load (show k - 8 ≤ j - 8 by omega)]
    exact List.take_prefix _ _

/-- Handles that are live are distinct and have their bytes to themselves, in reachable sessions:
    nothing of the heap or of another handle lies among them, commands that name other handles do not
    change them, and resizing keeps them as far as they fit. -/
theorem Reachable.payloads (hs : Reachable region settings s) :
    (s.live.map Prod.fst).Nodup ∧
    (∃ bs last lists, s.heap.Consistent bs last lists ∧
      ∀ p n, (p, n) ∈ s.live → ∃ k, n ≤ k ∧ s.heap.Protects bs p k) ∧
    (∀ p q j k, s.IsLive p → s.IsLive q → p ≠ q → s.heap.usableSize p = .ok j →
      s.heap.usableSize q = .ok k → p.offset + j ≤ q.offset ∨ q.offset + k ≤ p.offset) ∧
    (∀ c s', s.Permits c → s.exec c = .ok s' → ∀ p, s.IsLive p → c.handle ≠ some p →
      ∃ bytes, s.heap.payload p = .ok bytes ∧ s'.heap.payload p = .ok bytes) ∧
    ∀ p size q h', s.IsLive p → size ≠ 0 →
      (s.heap.resize (some p) size).result = .ok (.ok (some q), h') →
      ∃ old new, s.heap.payload p = .ok old ∧ h'.payload q = .ok new ∧ size ≤ new.length ∧
        new.take (min size old.length) = old.take (min size old.length) ∧
        (q = p → old <+: new) := by
  obtain ⟨P, hP⟩ := hs.exists_sound
  have hr := hP.realizes
  refine ⟨hP.nodup, ⟨_, _, _, hr.consistent, fun p n hp => ?_⟩, fun p q j k hp hq hne hj hk => ?_,
    fun c s' hpermits hexec p hp hne => ?_, fun p size q h' hp h0 hres => ?_⟩
  · obtain ⟨o, k, ho, hk, hn⟩ := hP.placed p n hp
    exact ⟨k - 8, by omega, hr.protects ho hk⟩
  · obtain ⟨o, j', ho, hj'⟩ := hP.place_of_live hp
    obtain ⟨u, k', hu, hk'⟩ := hP.place_of_live hq
    cases hj.symm.trans (hr.usableSize_eq ho hj')
    cases hk.symm.trans (hr.usableSize_eq hu hk')
    have hou : u ≠ o := by
      rintro rfl
      exact hne (handle_ext (by omega))
    have hapart := hr.apart hj' hk' hou
    have := hr.place_bounds hj'
    have := hr.place_bounds hk'
    omega
  · obtain ⟨o, k, ho, hk⟩ := hP.place_of_live hp
    obtain ⟨P', he⟩ := exec_effect hP hpermits hexec
    obtain ⟨hplace, hkept⟩ := he.untouched hP ho hk hne
    refine ⟨_, hr.payload_eq ho hk, ?_⟩
    rw [(he.sound hP).realizes.payload_eq ho hplace, hkept]
  · exact hP.resize_payload hp h0 hres

/-- A block that has another one behind it moves when it is made larger; the other one's payload
    stays. -/
theorem Reachable.payloads_of_run : ∃ s s', (start? (Region.empty 4096) {}).bind (fun t => t.run?
      [.allocate 16, .allocate 40, .write ⟨136, by decide⟩ 8 [1, 2, 3]]) = some s ∧
    s.exec (.resize (some ⟨104, by decide⟩) 300) = .ok s' ∧
    ∃ bytes, s.heap.payload ⟨136, by decide⟩ = .ok bytes ∧
      s'.heap.payload ⟨136, by decide⟩ = .ok bytes := by
  have hrun : ((start? (Region.empty 4096) {}).bind (fun t => t.run?
      [.allocate 16, .allocate 40, .write ⟨136, by decide⟩ 8 [1, 2, 3]])).map
      (fun s => (decide (s.IsLive ⟨136, by decide⟩),
        (s.run? [.resize (some ⟨104, by decide⟩) 300]).isSome)) = some (true, true) := by
    decide +kernel
  obtain ⟨s, hs, heq⟩ := Option.map_eq_some_iff.mp hrun
  rw [Prod.mk.injEq, decide_eq_true_iff] at heq
  obtain ⟨t, ht⟩ := Option.isSome_iff_exists.mp heq.2
  obtain ⟨hpermits, s', hexec, -⟩ := run?_cons.mp ht
  exact ⟨s, s', hs, hexec,
    (Reachable.payloads (reachable_iff.mpr ⟨_, hs⟩)).2.2.2.1 _ s' hpermits hexec
    _ heq.1 (by decide)⟩

end Session

end BoundaryTag
