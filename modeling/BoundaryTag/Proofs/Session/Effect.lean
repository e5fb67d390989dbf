import BoundaryTag.Proofs.Session.Invariant

set_option autoImplicit false

/-! # What a command does to a session

Every permitted command that a sound session answers does one of six things (`Effect`), and all of
them keep the session sound (`Effect.sound`). So every reachable session is sound
(`Reachable.exists_sound`). -/

open BoundaryTag.Span (total places)

namespace BoundaryTag

/-- The handle that a command names. -/
def Command.handle : Command → Option Handle
  | .allocate _ => none
  | .free p | .resize p _ => p
  | .write p _ _ => some p

namespace Session

variable {s s' : Session} {P P' : Plan} {c : Command} {size : Nat} {region : Region}
  {settings : Settings}

/-- What a command that names the given handle, if any, makes of a session and its plan. -/
inductive Effect (s : Session) (P : Plan) : Option Handle → Session → Plan → Prop where
  | idle {q : Option Handle} : Effect s P q s P
  | grants {q : Option Handle} {p : Handle} {o needed size : Nat} {m' : Memory} {P' : Plan} :
      p.offset = o + 8 → size + 16 ≤ needed → s.heap.Gives P o needed m' P' →
      Effect s P q ((s.grant p size).withHeap (s.heap.withMemory m')) P'
  | retires {p : Handle} {o k : Nat} {m' : Memory} {P' : Plan} :
      p.offset = o + 8 → (o, k) ∈ places true s.heap.start P.spans → s.heap.Takes P o k m' P' →
      Effect s P (some p) ((s.retire (some p)).withHeap (s.heap.withMemory m')) P'
  | fits {p : Handle} {o k size : Nat} :
      p.offset = o + 8 → (o, k) ∈ places true s.heap.start P.spans → size + 16 ≤ k →
      Effect s P (some p) ((s.retire (some p)).grant p size) P
  | enlarges {p : Handle} {o k needed size : Nat} {m' : Memory} {P' : Plan} :
      p.offset = o + 8 → (o, k) ∈ places true s.heap.start P.spans → size + 16 ≤ needed →
      s.heap.Enlarges P o k needed m' P' →
      Effect s P (some p) (((s.retire (some p)).grant p size).withHeap (s.heap.withMemory m')) P'
  | moves {p p' : Handle} {o k o' needed size : Nat} {m' m₁ m₂ : Memory} {P' P₁ : Plan} :
      p.offset = o + 8 → (o, k) ∈ places true s.heap.start P.spans → p'.offset = o' + 8 →
      size + 16 ≤ needed →
      s.heap.Moves P o k o' needed (min size (k - 8)) m' P' m₁ P₁ m₂ →
      Effect s P (some p) (((s.retire (some p)).grant p' size).withHeap (s.heap.withMemory m')) P'
  | writes {p : Handle} {o k : Nat} {m' : Memory} :
      p.offset = o + 8 → (o, k) ∈ places true s.heap.start P.spans →
      (s.heap.withMemory m').Realizes P → s.heap.memory.size = m'.size →
      (∀ i, i < o + 8 ∨ o + k ≤ i → m'.byte i = s.heap.memory.byte i) →
      Effect s P (some p) (s.withHeap (s.heap.withMemory m')) P

/-- Giving one handle back and handing another out can be done in either order. -/
theorem grant_retire {p p' : Handle} (hne : p' ≠ p) :
    (s.grant p' size).retire (some p) = (s.retire (some p)).grant p' size := by
  simp [grant, retire, hne, Ne.symm hne]

theorem Effect.sound {q : Option Handle} (hs : s.Sound P) (he : s.Effect P q s' P') :
    s'.Sound P' := by
  cases he with
  | idle => exact hs
  | grants hp hsize hg => exact hs.grant hp hsize hg
  | retires hp hk ht => exact hs.retire hp hk ht
  | fits hp hk hsize =>
    exact hs.regrant hp hs.realizes (Nat.le_refl _) (fun _ _ _ => Iff.rfl) hk hsize
  | enlarges hp hk hsize he =>
    obtain ⟨k', hk', hplace⟩ := he.mem_places
    exact hs.regrant hp he.realizes he.keeps.size_le (fun _ _ => he.mem_places_iff) hplace
      (hsize.trans hk')
  | @moves p p' o k o' _ _ _ m₁ m₂ _ P₁ hp hk hp' hsize hm =>
    have hne : p' ≠ p := by
      rintro rfl
      obtain rfl : o = o' := by omega
      exact hm.gives.not_mem_places hk
    -- the copy goes into a payload, so it does not matter to the plan
    have hcopied := (hs.grant hp' hsize hm.gives).withHeap hm.realizes
    have hplace := hm.gives.places_subset hk
    have hmoved := hcopied.retire hp hplace hm.takes
    rw [← grant_retire hne]
    exact hmoved
  | writes hp hk hr _ _ => exact hs.withHeap hr

section Exec

/-- What becomes of the session when a request of `size` bytes is answered. -/
theorem effect_of_allocates {r : Heap.Outcome (Option Handle)} (ha : s.heap.Allocates P size r) :
    ∃ P', s.Effect P none (s.settle none size r) P' := by
  cases ha with
  | refused _ => exact ⟨P, .idle⟩
  | nothing _ => exact ⟨P, .idle⟩
  | given _ hb hp hg => exact ⟨_, .grants hp (Heap.proper_of_blockSize hb).2 hg⟩

theorem effect_of_resizes {r : Heap.Outcome (Option Handle)} {p : Handle} {o k : Nat}
    (hp : p.offset = o + 8) (hk : (o, k) ∈ places true s.heap.start P.spans)
    (hr : s.heap.Resizes P p o k size r) :
    ∃ P', s.Effect P (some p) (s.settle (some p) size r) P' := by
  cases hr with
  | refused _ => exact ⟨P, .idle⟩
  | fits hb hle => exact ⟨P, .fits hp hk ((Heap.proper_of_blockSize hb).2.trans hle)⟩
  | enlarged hb _ he => exact ⟨_, .enlarges hp hk (Heap.proper_of_blockSize hb).2 he⟩
  | moved hb hp' hm =>
    exact ⟨_, .moves hp hk hp' (Heap.proper_of_blockSize hb).2 hm⟩

theorem effect_of_free {q : Option Handle} {h' : Heap} (hs : s.Sound P)
    (hlive : ∀ p, q = some p → s.IsLive p) (hfree : (s.heap.free q).result = .ok h') :
    ∃ P', s.Effect P q ((s.retire q).withHeap h') P' := by
  cases q with
  | none =>
    cases hfree
    exact ⟨P, .idle⟩
  | some p =>
    obtain ⟨o, k, hp, hk⟩ := hs.place_of_live (hlive p rfl)
    obtain ⟨m', P', hres, ht⟩ := Heap.exists_free hs.realizes hp hk
    cases hres.symm.trans hfree
    exact ⟨P', .retires hp hk ht⟩

/-- A write changes bytes of its payload, in which no plan is written; if it does not fit, none. -/
theorem exec_write (hr : s.heap.Realizes P) {p : Handle} {o k skip : Nat} {bytes : List UInt8}
    (hp : p.offset = o + 8) (hk : (o, k) ∈ places true s.heap.start P.spans)
    (hexec : s.exec (.write p skip bytes) = .ok s') :
    ∃ m', s' = s.withHeap (s.heap.withMemory m') ∧ (s.heap.withMemory m').Realizes P ∧
      s.heap.memory.size = m'.size ∧
      ∀ i, i < o + 8 ∨ o + k ≤ i → m'.byte i = s.heap.memory.byte i := by
  simp only [exec, bind_eq_ok_iff] at hexec
  obtain ⟨r, hres, hexec⟩ := hexec
  by_cases hle : skip + bytes.length ≤ k - 8
  · obtain ⟨m', hwrite, hreal, -, hbyte⟩ := hr.writePayload hp hk hle
    cases hwrite.symm.trans hres
    cases hexec
    refine ⟨m', rfl, hreal, ?_, fun i hi => hbyte i ?_⟩
    · have h₁ := hr.size_eq
      have h₂ := hreal.size_eq
      simp only [Heap.start_withMemory, Heap.memory_withMemory] at h₂
      omega
    · have := (hr.place_bounds hk).2.2.1
      omega
  · simp only [Heap.writePayload?, hr.payloadSize_eq hp hk, ok_bind, if_neg hle] at hres
    cases hres
    cases hexec
    exact ⟨s.heap.memory, rfl, hr, rfl, fun _ _ => rfl⟩

theorem exec_effect (hs : s.Sound P) (hpermits : s.Permits c) (hexec : s.exec c = .ok s') :
    ∃ P', s.Effect P c.handle s' P' := by
  cases c with
  | allocate size =>
    simp only [exec, bind_eq_ok_iff, pure_eq_ok_iff] at hexec
    obtain ⟨r, hr, rfl⟩ := hexec
    exact effect_of_allocates ((Heap.allocate_ends hs.realizes size).of_ok hr)
  | free q =>
    simp only [exec, bind_eq_ok_iff, pure_eq_ok_iff] at hexec
    obtain ⟨h', hfree, rfl⟩ := hexec
    exact effect_of_free hs hpermits hfree
  | resize q size =>
    simp only [exec, bind_eq_ok_iff, pure_eq_ok_iff] at hexec
    obtain ⟨r, hr, rfl⟩ := hexec
    by_cases h0 : size = 0
    · rw [Heap.resize.eq_def, if_pos h0, Traced.result_bind_eq_ok_iff] at hr
      obtain ⟨h', hfree, hr⟩ := hr
      cases hr
      exact effect_of_free hs hpermits hfree
    · cases q with
      | none =>
        rw [Heap.resize, if_neg h0] at hr
        exact effect_of_allocates ((Heap.allocate_ends hs.realizes size).of_ok hr)
      | some p =>
        obtain ⟨o, k, hp, hk⟩ := hs.place_of_live (hpermits p rfl)
        exact effect_of_resizes hp hk ((Heap.resize_ends hs.realizes hp hk h0).of_ok hr)
  | write p skip bytes =>
    obtain ⟨o, k, hp, hk⟩ := hs.place_of_live hpermits
    obtain ⟨m', rfl, hreal, hsize, hbyte⟩ := exec_write hs.realizes hp hk hexec
    exact ⟨P, .writes hp hk hreal hsize hbyte⟩

end Exec

/-- A command changes nothing of a heap but its bytes. -/
theorem Effect.heap_eq {q : Option Handle} (he : s.Effect P q s' P') :
    s'.heap = s.heap.withMemory s'.heap.memory := by
  cases he <;> rfl

/-- Every reachable session is sound. -/
theorem Reachable.exists_sound (hs : Reachable region settings s) : ∃ P, s.Sound P := by
  induction hs with
  | init hinit =>
    refine ⟨Heap.emptyPlan, (Heap.realizes_of_init hinit).1, ?_, ?_, List.nodup_nil, ?_⟩
    · exact fun p n hp => absurd hp List.not_mem_nil
    · exact fun o k hk => absurd hk List.not_mem_nil
    · exact fun p hp => absurd hp List.not_mem_nil
  | step _ hpermits hexec ih =>
    obtain ⟨P, hs⟩ := ih
    obtain ⟨P', he⟩ := exec_effect hs hpermits hexec
    exact ⟨P', he.sound hs⟩

/-- The settings of a heap stay those that it was laid out with. -/
theorem Reachable.settings_eq (hs : Reachable region settings s) : s.heap.settings = settings := by
  induction hs with
  | init hinit => exact (Heap.realizes_of_init hinit).2.1
  | step hs hpermits hexec ih =>
    obtain ⟨P, hP⟩ := hs.exists_sound
    obtain ⟨P', he⟩ := exec_effect hP hpermits hexec
    rw [he.heap_eq, Heap.settings_withMemory, ih]

/-- The region of a heap stays what it was but for its bytes. -/
theorem Reachable.region_eq (hs : Reachable region settings s) :
    s.heap.region = { region with memory := s.heap.memory } := by
  induction hs with
  | init hinit => exact Heap.region_of_init hinit
  | step hs hpermits hexec ih =>
    obtain ⟨P, hP⟩ := hs.exists_sound
    obtain ⟨P', he⟩ := exec_effect hP hpermits hexec
    rw [he.heap_eq, Heap.withMemory, ih]
    rfl

end Session

end BoundaryTag
