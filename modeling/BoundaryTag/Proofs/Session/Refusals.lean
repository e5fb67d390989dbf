import BoundaryTag.Proofs.Session.Effect

set_option autoImplicit false

/-! # Refusals

A request that is refused leaves the heap as it was, and every handle as live as it was, however far
the operation had come when the region could not grow (`Reachable.refused`). The reason that it
gives is the true one (`Heap.Warrants`). -/

namespace BoundaryTag

/-- The heap, in a region of the given limit, has reason to refuse a request of `size` bytes so. -/
inductive Heap.Warrants (h : Heap) (limit size : Nat) : Refusal → Prop where
  | outOfMemory {requested : Nat} : limit < h.memory.size + requested →
      Warrants h limit size (.outOfMemory requested h.memory.size limit)
  | requestTooLarge : Request.blockSize size = .ok none →
      Warrants h limit size (.requestTooLarge size)

variable {h : Heap} {size : Nat} {e : Refusal}

theorem Heap.Refuses.warrants (he : h.Refuses size e) (hlimit : h.region.limit < Word.limit) :
    h.Warrants h.region.limit size e := by
  cases he with
  | outOfRoom he =>
    obtain ⟨n, rfl, hfull⟩ := he
    exact .outOfMemory (by omega)
  | tooLarge hb => exact .requestTooLarge hb

namespace Session

variable {s : Session} {P : Plan} {p : Option Handle} {h' : Heap} {region : Region}
  {settings : Settings}

theorem Sound.allocate_refused (hs : s.Sound P)
    (hres : (s.heap.allocate size).result = .ok (.error e, h')) :
    h' = s.heap ∧ s.heap.Refuses size e := by
  cases (Heap.allocate_ends hs.realizes size).of_ok hres with
  | refused he => exact ⟨rfl, he⟩

theorem Sound.resize_refused (hs : s.Sound P) (hlive : ∀ q, p = some q → s.IsLive q)
    (hres : (s.heap.resize p size).result = .ok (.error e, h')) :
    h' = s.heap ∧ s.heap.Refuses size e := by
  by_cases h0 : size = 0
  · -- giving back is never refused
    rw [Heap.resize.eq_def, if_pos h0, Traced.result_bind_eq_ok_iff] at hres
    obtain ⟨h₁, -, hres⟩ := hres
    cases hres
  · cases p with
    | none =>
      rw [Heap.resize, if_neg h0] at hres
      exact hs.allocate_refused hres
    | some q =>
      obtain ⟨o, k, ho, hk⟩ := hs.place_of_live (hlive q rfl)
      cases (Heap.resize_ends hs.realizes ho hk h0).of_ok hres with
      | refused he => exact ⟨rfl, he⟩

/-- A request that is refused in a reachable session leaves the heap, and with it the session, as it
    was: its memory, its blocks, its lists, and the live handles with their payloads. -/
theorem Reachable.refused (hs : Reachable region settings s) (hlimit : region.limit < Word.limit) :
    (∀ size e h', (s.heap.allocate size).result = .ok (.error e, h') →
      h' = s.heap ∧ s.exec (.allocate size) = .ok s ∧ s.heap.Warrants region.limit size e) ∧
    ∀ p size e h', s.Permits (.resize p size) →
      (s.heap.resize p size).result = .ok (.error e, h') →
      h' = s.heap ∧ s.exec (.resize p size) = .ok s ∧ s.heap.Warrants region.limit size e := by
  obtain ⟨P, hP⟩ := hs.exists_sound
  have hregion : s.heap.region.limit = region.limit := by rw [hs.region_eq]
  have hwarrants : ∀ {size e}, s.heap.Refuses size e → s.heap.Warrants region.limit size e := by
    intro size e he
    rw [← hregion] at hlimit ⊢
    exact he.warrants hlimit
  constructor
  · intro size e h' hres
    obtain ⟨rfl, he⟩ := hP.allocate_refused hres
    refine ⟨rfl, ?_, hwarrants he⟩
    rw [exec, hres]
    rfl
  · intro p size e h' hpermits hres
    obtain ⟨rfl, he⟩ := hP.resize_refused hpermits hres
    refine ⟨rfl, ?_, hwarrants he⟩
    rw [exec, hres]
    rfl

/-- Requests that a region of 200 bytes refuses after the commands before them, with the reasons: a
    new block, a larger last block, a block that would take in the free block behind it and grow,
    and a block that would have to move. -/
def tightRuns : List (List Command × Option Handle × Nat × Refusal) :=
  [([.allocate 16], none, 100, .outOfMemory 120 136 200),
    ([.allocate 16], some ⟨104, by decide⟩, 100, .outOfMemory 88 136 200),
    ([.allocate 16, .allocate 16, .free (some ⟨136, by decide⟩)], some ⟨104, by decide⟩, 150,
      .outOfMemory 104 168 200),
    ([.allocate 16, .allocate 16], some ⟨104, by decide⟩, 100, .outOfMemory 120 168 200)]

/-- In all of these the session stays as it is. -/
theorem Reachable.refused_of_runs : tightRuns.Forall fun r =>
    ∃ s, (start? (Region.empty 200) {}).bind (fun t => t.run? r.1) = some s ∧
      (s.heap.resize r.2.1 r.2.2.1).result = .ok (.error r.2.2.2, s.heap) ∧
      s.exec (.resize r.2.1 r.2.2.1) = .ok s := by
  rw [List.forall_iff_forall_mem]
  intro r hr
  have hruns : ∀ r ∈ tightRuns,
      ((start? (Region.empty 200) {}).bind (fun t => t.run? r.1)).map (fun s =>
        decide (s.Permits (.resize r.2.1 r.2.2.1) ∧
          Prod.fst <$> (s.heap.resize r.2.1 r.2.2.1).result = .ok (.error r.2.2.2))) =
            some true := by
    decide +kernel
  obtain ⟨s, hs, heq⟩ := Option.map_eq_some_iff.mp (hruns _ hr)
  obtain ⟨hpermits, heq⟩ := of_decide_eq_true heq
  obtain ⟨⟨answer, h'⟩, hres, rfl⟩ := map_eq_ok_iff.mp heq
  obtain ⟨rfl, hexec, -⟩ := (Reachable.refused (reachable_iff.mpr ⟨_, hs⟩) (by decide)).2
    _ _ _ _ hpermits hres
  exact ⟨s, hs, hres, hexec⟩

end Session

end BoundaryTag
