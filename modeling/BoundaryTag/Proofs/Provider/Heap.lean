import BoundaryTag.Heap.Operations
import BoundaryTag.Proofs.Audit.Alike
import BoundaryTag.Proofs.Provider.Refines

set_option autoImplicit false

/-! # Heaps over what refines a region

A heap over a provider that refines a region does what the heap in the region does: each operation
has the same answer or the same fault on both, and leaves heaps that go together again
(`Heap.Over`). One lemma for each operation says so; a provider is used by growing it, by reading
its bytes and by overwriting them only, so its refinement lemmas are enough. -/

namespace BoundaryTag

open Memory (Alike)
open Provider (Pairs Refines)

namespace Heap

variable {σ : Type} [Provider σ] {R : σ → Region → Prop} {h : Heap σ} {k : Heap} {m m' : Memory}
  {p : Handle}

/-- A heap over a provider and a heap in a region that go together, with the same lists, tuning and
    start. -/
structure Over (R : σ → Region → Prop) (h : Heap σ) (k : Heap) : Prop where
  region : R h.region k.region
  index_eq : h.index = k.index
  settings_eq : h.settings = k.settings
  start_eq : h.start = k.start

namespace Over

variable (hR : Refines R) (ho : Over R h k)

include hR ho

theorem memory : Alike k.region.size h.memory k.memory :=
  hR.memory_alike ho.region

theorem withMemory (hm : Alike k.region.size m m') :
    Over R (h.withMemory m) (k.withMemory m') :=
  ⟨hR.setMemory ho.region hm, ho.index_eq, ho.settings_eq, ho.start_eq⟩

omit [Provider σ] hR in
/-- The heaps with another provider and another region that go together do so again. -/
theorem withRegion {s : σ} {r : Region} (hs : R s r) :
    Over R { h with region := s } { k with region := r } :=
  ⟨hs, ho.index_eq, ho.settings_eq, ho.start_eq⟩

theorem epilogue_eq : h.epilogue = k.epilogue := by
  rw [epilogue, epilogue, hR.size_eq ho.region, Region.provider_size]

theorem verify_eq : h.verify.result = k.verify.result := by
  have hcheck : h.check = k.check := by
    rw [check, check, ho.index_eq, ho.start_eq]
    exact (ho.memory hR).audit _ _
  rw [verify, hcheck, ho.settings_eq]
  rfl

/-! ## Payloads -/

theorem usableSize_eq : h.usableSize = k.usableSize := by
  funext p
  rw [usableSize, usableSize, (ho.memory hR).sizeAt]

theorem payloadSize_eq : h.payloadSize = k.payloadSize := by
  funext p
  rw [payloadSize, payloadSize, ho.usableSize_eq hR, (ho.memory hR).size_eq]

theorem writePayload? (p : Handle) (skip : Nat) (bytes : List UInt8) :
    Matches (fun x y => (x = none ∧ y = none) ∨
        ∃ h' k', x = some h' ∧ y = some k' ∧ Over R h' k')
      (h.writePayload? p skip bytes) (k.writePayload? p skip bytes) := by
  rw [Heap.writePayload?, Heap.writePayload?, ho.payloadSize_eq hR]
  refine .same fun size => ?_
  split
  · have hstored := (ho.memory hR).store (p.offset + skip) bytes
    exact .ok (.inr ⟨_, _, rfl, rfl, ho.withMemory hR hstored⟩)
  · exact .ok (.inl ⟨rfl, rfl⟩)

/-! ## Allocating -/

/-- The audit and the answer at the end of an operation. -/
theorem finish {α : Type} (e : Event) (a : α) :
    Matches (Pairs (Over R))
      ((Traced.record e).result >>= fun _ => h.verify.result >>= fun _ => .ok (a, h))
      ((Traced.record e).result >>= fun _ => k.verify.result >>= fun _ => .ok (a, k)) := by
  rw [ho.verify_eq hR]
  exact .same fun _ => .same fun _ => .ok ⟨rfl, ho⟩

theorem append (needed : Nat) :
    Matches (Pairs (Over R)) (h.append needed).result (k.append needed).result := by
  simp only [Heap.append, Traced.result_bind, Traced.result_lift, ho.epilogue_eq hR,
    (ho.memory hR).prevAllocatedAt]
  refine .same fun block => .same fun prevAllocated => (hR.extend ho.region needed).bind ?_
  rintro ⟨base, s⟩ ⟨_, r⟩ ⟨rfl, hs⟩
  have hgrown := ho.withRegion hs
  cases base with
  | error refusal => exact .ok ⟨rfl, hgrown⟩
  | ok base =>
    simp only [Traced.result_bind, Traced.result_lift]
    exact ((hgrown.memory hR).setLast _ _ _).bind fun _ _ hm =>
      .ok ⟨rfl, hgrown.withMemory hR hm⟩

theorem acquire (needed : Nat) :
    Matches (Pairs (Over R)) (h.acquire needed).result (k.acquire needed).result := by
  simp only [Heap.acquire, Traced.result_bind, Traced.result_lift, ho.index_eq, ho.settings_eq,
    (ho.memory hR).firstFit]
  refine .same fun found => ?_
  cases found with
  | none => exact ho.append hR needed
  | some block =>
    simp only [Traced.result_bind, Traced.result_lift]
    exact ((ho.memory hR).unlink _).bind fun _ _ hm => (hm.carve _ _ _ _).bind fun _ _ hm =>
      .ok ⟨rfl, ho.withMemory hR hm⟩

theorem allocate (size : Nat) :
    Matches (Pairs (Over R)) (h.allocate size).result (k.allocate size).result := by
  rw [Heap.allocate, Heap.allocate]
  split
  · exact .ok ⟨rfl, ho⟩
  · simp only [Traced.result_bind, Traced.result_lift]
    refine .same fun request => ?_
    cases request with
    | none => exact .ok ⟨rfl, ho⟩
    | some needed =>
      simp only [Traced.result_bind]
      refine (ho.acquire hR needed).bind ?_
      rintro ⟨answer, h'⟩ ⟨_, k'⟩ ⟨rfl, ho'⟩
      cases answer with
      | error refusal => exact .ok ⟨rfl, ho'⟩
      | ok block =>
        simp only [Traced.result_bind, Traced.result_lift, (ho'.memory hR).sizeAt]
        exact .same fun p => .same fun given => ho'.finish hR _ _

/-! ## Freeing -/

theorem free (p : Option Handle) :
    Matches (Over R) (h.free p).result (k.free p).result := by
  cases p with
  | none => exact .ok ho
  | some p =>
    simp only [Heap.free, Traced.result_bind, Traced.result_lift, (ho.memory hR).tagAt, ho.index_eq]
    refine .same fun block => .same fun tag => ((ho.memory hR).formatFree _ _ _).bind
      fun _ _ hm => ?_
    simp only [hm.successor]
    refine .same fun next => (hm.markPrevAllocated _ _).bind fun _ _ hm => (hm.merge _).bind ?_
    rintro ⟨start, m⟩ ⟨_, m'⟩ ⟨rfl, hm⟩
    refine (hm.push _ _).bind fun _ _ hm => ?_
    have ho' := ho.withMemory hR hm
    simp only [hm.sizeAt, ho'.verify_eq hR]
    exact .same fun freed => .same fun _ => .same fun _ => .ok ho'

/-! ## Resizing -/

theorem growth_eq (current next needed : Nat) :
    h.growth current next needed = k.growth current next needed := by
  simp only [Heap.growth, ho.epilogue_eq hR, (ho.memory hR).tagAt, (ho.memory hR).successor]

theorem move (p : Handle) (size : Nat) :
    Matches (Pairs (Over R)) (h.move p size).result (k.move p size).result := by
  rw [Heap.move, Heap.move, Traced.result_bind, Traced.result_bind]
  refine (ho.allocate hR size).bind ?_
  rintro ⟨answer, h'⟩ ⟨_, k'⟩ ⟨rfl, ho'⟩
  cases answer with
  | error refusal => exact .ok ⟨rfl, ho'⟩
  | ok target =>
    cases target with
    | none => exact .ok ⟨rfl, ho'⟩
    | some target =>
      simp only [Traced.result_bind, Traced.result_lift, ho'.usableSize_eq hR]
      refine .same fun usable => ((ho'.memory hR).copy _ _ _).bind fun _ _ hm => ?_
      exact ((ho'.withMemory hR hm).free hR (some p)).bind fun _ _ ho' => .ok ⟨rfl, ho'⟩

theorem enlarge (p : Handle) (size block needed : Nat) (tag : Tag) (way : Growth) :
    Matches (Pairs (Over R)) (h.enlarge p size block needed tag way).result
      (k.enlarge p size block needed tag way).result := by
  cases way with
  | absorbNext nextSize =>
    simp only [Heap.enlarge, Traced.result_bind, Traced.result_lift, (ho.memory hR).successor,
      ho.index_eq, ho.settings_eq]
    refine .same fun next => ((ho.memory hR).unlink _).bind fun _ _ hm => .same fun merged =>
      (hm.setHeader _ _).bind fun _ _ hm => (hm.carve _ _ _ _).bind fun _ _ hm => ?_
    exact (ho.withMemory hR hm).finish hR _ _
  | absorbLast nextSize =>
    simp only [Heap.enlarge, Traced.result_bind, Traced.result_lift, (ho.memory hR).successor]
    refine .same fun next => .same fun missing => .same fun rest =>
      (hR.extend ho.region rest).bind ?_
    rintro ⟨base, s⟩ ⟨_, r⟩ ⟨rfl, hs⟩
    have hgrown := ho.withRegion hs
    cases base with
    | error refusal => exact .ok ⟨rfl, hgrown⟩
    | ok base =>
      simp only [Traced.result_bind, Traced.result_lift]
      refine ((hgrown.memory hR).unlink _).bind fun _ _ hm => (hm.setLast _ _ _).bind
        fun _ _ hm => ?_
      exact (hgrown.withMemory hR hm).finish hR _ _
  | growLast =>
    simp only [Heap.enlarge, Traced.result_bind, Traced.result_lift]
    refine .same fun missing => (hR.extend ho.region missing).bind ?_
    rintro ⟨base, s⟩ ⟨_, r⟩ ⟨rfl, hs⟩
    have hgrown := ho.withRegion hs
    cases base with
    | error refusal => exact .ok ⟨rfl, hgrown⟩
    | ok base =>
      simp only [Traced.result_bind, Traced.result_lift]
      refine ((hgrown.memory hR).setLast _ _ _).bind fun _ _ hm => ?_
      exact (hgrown.withMemory hR hm).finish hR _ _
  | move => exact ho.move hR p size

theorem resize (p : Option Handle) (size : Nat) :
    Matches (Pairs (Over R)) (h.resize p size).result (k.resize p size).result := by
  rw [Heap.resize.eq_def, Heap.resize.eq_def]
  split
  · simp only [Traced.result_bind]
    exact (ho.free hR p).bind fun _ _ ho' => .ok ⟨rfl, ho'⟩
  · cases p with
    | none => exact ho.allocate hR size
    | some p =>
      simp only [Traced.result_bind, Traced.result_lift]
      refine .same fun request => ?_
      cases request with
      | none => exact .ok ⟨rfl, ho⟩
      | some needed =>
        simp only [Traced.result_bind, Traced.result_lift, (ho.memory hR).tagAt]
        refine .same fun block => .same fun tag => ?_
        split
        · exact .ok ⟨rfl, ho⟩
        · simp only [Traced.result_bind, Traced.result_lift, (ho.memory hR).successor,
            ho.growth_eq hR]
          exact .same fun next => .same fun way => ho.enlarge hR p size block needed tag way

end Over

/-! ## Starting -/

theorem init_matches (hR : Refines R) {s : σ} {r : Region} (hs : R s r) (settings : Settings) :
    Matches (fun x y => (∃ e, x = .error e ∧ y = .error e) ∨
        ∃ h k, x = .ok h ∧ y = .ok k ∧ Over R h k)
      (init s settings).result (init r settings).result := by
  rw [init, init]
  cases settings.validate with
  | error objection => exact .ok (.inl ⟨_, rfl, rfl⟩)
  | ok _ =>
    simp only [Traced.result_bind, Traced.result_lift, hR.size_eq hs, Region.provider_size]
    refine .same fun base => .same fun table => .same fun bytes => .same fun start =>
      .same fun stop => .same fun missing => (hR.extend hs missing).bind ?_
    rintro ⟨base', t⟩ ⟨_, r'⟩ ⟨rfl, ht⟩
    cases base' with
    | error refusal => exact .ok (.inl ⟨_, rfl, rfl⟩)
    | ok base' =>
      simp only [Traced.result_bind, Traced.result_lift]
      refine ((hR.memory_alike ht).reset _).bind fun _ _ hm => (hm.setEpilogue _).bind
        fun _ _ hm => ?_
      exact .ok (.inr ⟨_, _, rfl, rfl, hR.setMemory ht hm, rfl, rfl, rfl⟩)

end Heap

end BoundaryTag
