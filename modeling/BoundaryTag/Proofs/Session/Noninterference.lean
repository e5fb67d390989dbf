import BoundaryTag.Proofs.Heap.Agree
import BoundaryTag.Proofs.Session.Effect

set_option autoImplicit false

/-! # What clients write does not matter

Two sessions are twins if their clients know the same and their heaps, but for the bytes in
payloads, are the same: both realize one plan (`Twins`). A write on either side keeps them twins
(`Twins.write_left`, `Twins.write_right`), and so does a call made on both (`Twins.call`). So two
runs that make the same calls have the same answers and the same reports, whatever is written into
payloads in between (`noninterference`). -/

open BoundaryTag.Span (places)

namespace BoundaryTag

namespace Command

/-- All commands but writes are calls of the heap. -/
def isCall : Command → Bool
  | .allocate _ | .free _ | .resize _ _ => true
  | .write _ _ _ => false

/-- The size that a command requests. -/
def size : Command → Nat
  | .allocate size | .resize _ size => size
  | .free _ | .write _ _ _ => 0

end Command

/-- The calls among the commands, in order. -/
def calls (cs : List Command) : List Command :=
  cs.filter Command.isCall

namespace Heap

variable {h : Heap} {m : Memory} {P : Plan} {p : Handle} {o k size : Nat}

/-- Makes a call: what the heap answers, and the heap after it. -/
def call (h : Heap) : Command → Except Fault (Outcome (Option Handle))
  | .allocate size => (h.allocate size).result
  | .free p => do
    return (.ok none, ← (h.free p).result)
  | .resize p size => (h.resize p size).result
  | .write _ _ _ => return (.ok none, h)

/-- What the heap answers to a call. -/
def answer (h : Heap) (c : Command) : Except Fault (Except Refusal (Option Handle)) :=
  Prod.fst <$> h.call c

theorem Agree.map_fst_eq {α : Type} {x y : Except Fault (Outcome α)} (hxy : h.Agree x y) :
    Prod.fst <$> x = Prod.fst <$> y := by
  cases hxy with
  | fault => rfl
  | answer _ _ => rfl

/-- To give back a handle, or none, has no other answer than to have given it back. -/
theorem giveBack_agree (hr : h.Realizes P) (hr' : (h.withMemory m).Realizes P) {q : Option Handle}
    (hplace : ∀ p, q = some p → ∃ o k, p.offset = o + 8 ∧ (o, k) ∈ places true h.start P.spans) :
    h.Agree (do return (.ok none, ← (h.free q).result) : Except Fault (Outcome (Option Handle)))
      (do return (.ok none, ← ((h.withMemory m).free q).result)) := by
  cases q with
  | none => exact .answer hr hr'
  | some p =>
    obtain ⟨o, k, hp, hk⟩ := hplace p rfl
    obtain ⟨m₁, m₂, P', hfree, hfree', hreal, hreal'⟩ := free_agree hr hr' hp hk
    rw [hfree, hfree']
    exact .answer hreal hreal'

/-- Calls agree on heaps that realize the same plan. -/
theorem call_agree (hr : h.Realizes P) (hr' : (h.withMemory m).Realizes P) {c : Command}
    (hplace : ∀ p, c.handle = some p →
      ∃ o k, p.offset = o + 8 ∧ (o, k) ∈ places true h.start P.spans) :
    h.Agree (h.call c) ((h.withMemory m).call c) := by
  cases c with
  | allocate size => exact allocate_agree hr hr' size
  | free q => exact giveBack_agree hr hr' hplace
  | resize q size =>
    by_cases h0 : size = 0
    · simp only [call, resize.eq_def, if_pos h0, Traced.result_bind, Traced.result_pure]
      exact giveBack_agree hr hr' hplace
    · cases q with
      | none =>
        simp only [call, resize, if_neg h0]
        exact allocate_agree hr hr' size
      | some p =>
        obtain ⟨o, k, hp, hk⟩ := hplace p rfl
        exact resize_agree hr hr' hp hk h0
  | write p skip bytes => exact .answer hr hr'

end Heap

namespace Session

variable {s s' t t' : Session} {P P' : Plan} {c : Command} {cs ds : List Command} {p : Handle}
  {region : Region} {settings : Settings}

/-- The clients know the same, and both heaps realize the plan and differ in nothing but bytes. -/
structure Twins (s t : Session) (P : Plan) : Prop where
  sound : s.Sound P
  realizes : t.heap.Realizes P
  heap_eq : t.heap = s.heap.withMemory t.heap.memory
  live_eq : t.live = s.live

/-- Blocks that are allocated so belong to live handles in every plan of the heap. -/
theorem Sound.of_realizes (hs : s.Sound P) (hr : s.heap.Realizes P') : s.Sound P' := by
  have hspans := hs.realizes.spans_unique hr
  refine ⟨hr, ?_, ?_, hs.nodup, ?_⟩ <;> rw [← hspans]
  · exact hs.placed
  · exact hs.owned
  · exact hs.spent

/-- A call is carried out by making it and settling what it answers. -/
theorem exec_eq_settle (hc : c.isCall = true) :
    s.exec c = s.settle c.handle c.size <$> s.heap.call c := by
  cases c with
  | allocate size => rfl
  | free q =>
    rw [exec, Heap.call]
    cases (s.heap.free q).result <;> rfl
  | resize q size => rfl
  | write p skip bytes => cases hc

theorem heap_settle {q : Option Handle} {n : Nat} {a : Except Refusal (Option Handle)} {h : Heap} :
    (s.settle q n (a, h)).heap = h := by
  rcases a with e | _ | p <;> rfl

theorem live_retire (hlive : t.live = s.live) (q : Option Handle) :
    (t.retire q).live = (s.retire q).live := by
  cases q with
  | none => exact hlive
  | some p => exact congrArg (List.filter _) hlive

theorem live_settle (hlive : t.live = s.live) {q : Option Handle} {n : Nat}
    {a : Except Refusal (Option Handle)} {h h' : Heap} :
    (t.settle q n (a, h')).live = (s.settle q n (a, h)).live := by
  rcases a with e | _ | p
  · exact hlive
  · exact live_retire hlive q
  · exact congrArg (List.cons _) (live_retire hlive q)

theorem place_of_permits (hs : s.Sound P) (hpermits : s.Permits c) :
    ∀ p, c.handle = some p →
      ∃ o k, p.offset = o + 8 ∧ (o, k) ∈ places true s.heap.start P.spans := by
  intro p hp
  refine hs.place_of_live ?_
  cases c with
  | allocate size => cases hp
  | free q => exact hpermits p hp
  | resize q size => exact hpermits p hp
  | write q skip bytes =>
    cases hp
    exact hpermits

namespace Twins

theorem refl (hs : s.Sound P) : s.Twins s P :=
  ⟨hs, hs.realizes, rfl, rfl⟩

theorem write_left (ht : s.Twins t P) (hc : ¬ c.isCall) (hpermits : s.Permits c)
    (hexec : s.exec c = .ok s') : s'.Twins t P := by
  cases c with
  | write p skip bytes =>
    obtain ⟨o, k, hp, hk⟩ := ht.sound.place_of_live hpermits
    obtain ⟨m', rfl, hreal, -⟩ := exec_write ht.sound.realizes hp hk hexec
    exact ⟨ht.sound.withHeap hreal, ht.realizes, ht.heap_eq, ht.live_eq⟩
  | _ => exact absurd rfl hc

theorem start_eq (ht : s.Twins t P) : t.heap.start = s.heap.start := by
  rw [ht.heap_eq]
  rfl

theorem write_right (ht : s.Twins t P) (hc : ¬ c.isCall) (hpermits : t.Permits c)
    (hexec : t.exec c = .ok t') : s.Twins t' P := by
  cases c with
  | write p skip bytes =>
    have hlive : s.IsLive p := by
      obtain ⟨n, hn⟩ := hpermits
      exact ⟨n, ht.live_eq ▸ hn⟩
    obtain ⟨o, k, hp, hk⟩ := ht.sound.place_of_live hlive
    rw [← ht.start_eq] at hk
    obtain ⟨m', rfl, hreal, -⟩ := exec_write ht.realizes hp hk hexec
    refine ⟨ht.sound, hreal, ?_, ht.live_eq⟩
    rw [withHeap, ht.heap_eq]
    rfl
  | _ => exact absurd rfl hc

theorem run_writes (ht : s.Twins t P) (hds : ∀ d ∈ ds, ¬ d.isCall)
    (hrun : t.run? ds = some t') : s.Twins t' P := by
  induction ds generalizing t with
  | nil =>
    cases hrun
    exact ht
  | cons d ds ih =>
    rw [List.forall_mem_cons] at hds
    obtain ⟨hpermits, u, hexec, hrun⟩ := run?_cons.mp hrun
    exact ih (ht.write_right hds.1 hpermits hexec) hds.2 hrun

/-- The heaps of twins agree on every call that the clients may make. -/
theorem agree (ht : s.Twins t P) (hpermits : s.Permits c) :
    s.heap.Agree (s.heap.call c) (t.heap.call c) := by
  have hreal := ht.realizes
  rw [ht.heap_eq] at hreal ⊢
  exact Heap.call_agree ht.sound.realizes hreal (place_of_permits ht.sound hpermits)

/-- A call made on both sides leaves twins. -/
theorem call (ht : s.Twins t P) (hc : c.isCall = true) (hpermits : s.Permits c)
    (hexec : s.exec c = .ok s') (hexec' : t.exec c = .ok t') : ∃ P', s'.Twins t' P' := by
  obtain ⟨P₁, heffect⟩ := exec_effect ht.sound hpermits hexec
  have hsound := heffect.sound ht.sound
  have hagree := ht.agree hpermits
  rw [exec_eq_settle hc] at hexec hexec'
  generalize s.heap.call c = x at hagree hexec
  generalize t.heap.call c = y at hagree hexec'
  cases hagree with
  | fault => cases hexec
  | @answer a m m' P' hreal hreal' =>
    cases hexec
    cases hexec'
    refine ⟨P', hsound.of_realizes ?_, ?_, ?_, live_settle ht.live_eq⟩ <;> simp only [heap_settle]
    · exact hreal
    · exact hreal'
    · rfl

/-- Runs that make the same calls lead from twins to twins. -/
theorem run (ht : s.Twins t P) (hcalls : calls cs = calls ds) (hrun : s.run? cs = some s')
    (hrun' : t.run? ds = some t') : ∃ P', s'.Twins t' P' := by
  induction cs generalizing s t P ds with
  | nil =>
    cases hrun
    exact ⟨P, ht.run_writes (List.filter_eq_nil_iff.mp hcalls.symm) hrun'⟩
  | cons c cs ih =>
    obtain ⟨hpermits, u, hexec, hrun⟩ := run?_cons.mp hrun
    by_cases hc : c.isCall = true
    · -- the right run comes to the same call after some writes
      rw [calls, List.filter_cons_of_pos hc, eq_comm, calls, List.filter_eq_cons_iff] at hcalls
      obtain ⟨ws, ds', rfl, hws, -, hcalls⟩ := hcalls
      rw [run?_append, Option.bind_eq_some_iff] at hrun'
      obtain ⟨v, hv, hrun'⟩ := hrun'
      obtain ⟨-, w, hexec', hrun'⟩ := run?_cons.mp hrun'
      obtain ⟨P', ht'⟩ := (ht.run_writes hws hv).call hc hpermits hexec hexec'
      exact ih ht' hcalls.symm hrun hrun'
    · rw [calls, List.filter_cons_of_neg hc] at hcalls
      exact ih (ht.write_left hc hpermits hexec) hcalls hrun hrun'

end Twins

/-- Two runs from the same start that make the same calls, and write what they like into payloads
    in between, cannot be told apart: the same handles are live, the heaps report the same, and the
    next call has the same answer, or the same fault. As both runs may be cut off anywhere, this
    holds all along. -/
theorem noninterference {s₀ : Session} (hstart : start? region settings = some s₀)
    (hcalls : calls cs = calls ds) (hs : s₀.run? cs = some s) (ht : s₀.run? ds = some t) :
    t.live = s.live ∧ t.heap.view = s.heap.view ∧
      ∀ c, c.isCall → s.Permits c → t.heap.answer c = s.heap.answer c := by
  obtain ⟨P₀, hsound⟩ := (reachable_of_start hstart).exists_sound
  obtain ⟨P, htwins⟩ := (Twins.refl hsound).run hcalls hs ht
  have hreal := htwins.realizes
  rw [htwins.heap_eq] at hreal
  refine ⟨htwins.live_eq, ?_, fun c _ hpermits => (htwins.agree hpermits).map_fst_eq.symm⟩
  rw [htwins.heap_eq]
  exact htwins.sound.realizes.view_eq hreal

/-- A client that forges a footer at the end of one payload and links in another, of a block that it
    gives back then, learns and gets the same as one that writes nothing. -/
theorem noninterference_of_runs : ∃ s₀ s t, start? (Region.empty 4096) {} = some s₀ ∧
    s₀.run? [.allocate 16, .allocate 40, .free (some ⟨136, by decide⟩)] = some s ∧
    s₀.run? [.allocate 16, .write ⟨104, by decide⟩ 16 [32, 0, 0, 0, 0, 0, 0, 0], .allocate 40,
      .write ⟨136, by decide⟩ 0 [96, 0, 0, 0, 0, 0, 0, 0],
      .free (some ⟨136, by decide⟩)] = some t ∧
    t.heap.memory.byte 120 ≠ s.heap.memory.byte 120 ∧ t.live = s.live ∧
    t.heap.view = s.heap.view ∧ t.heap.answer (.resize (some ⟨104, by decide⟩) 60) =
      s.heap.answer (.resize (some ⟨104, by decide⟩) 60) := by
  have hruns : (start? (Region.empty 4096) {}).map (fun s₀ =>
      ((s₀.run? [.allocate 16, .allocate 40, .free (some ⟨136, by decide⟩)]).map fun s =>
        (decide (s.Permits (.resize (some ⟨104, by decide⟩) 60)), s.heap.memory.byte 120),
      (s₀.run? [.allocate 16, .write ⟨104, by decide⟩ 16 [32, 0, 0, 0, 0, 0, 0, 0], .allocate 40,
        .write ⟨136, by decide⟩ 0 [96, 0, 0, 0, 0, 0, 0, 0],
        .free (some ⟨136, by decide⟩)]).map fun t => t.heap.memory.byte 120)) =
      some (some (true, 0), some 32) := by
    decide +kernel
  obtain ⟨s₀, hstart, heq⟩ := Option.map_eq_some_iff.mp hruns
  rw [Prod.mk.injEq] at heq
  obtain ⟨s, hs, hs'⟩ := Option.map_eq_some_iff.mp heq.1
  obtain ⟨t, ht, ht'⟩ := Option.map_eq_some_iff.mp heq.2
  rw [Prod.mk.injEq, decide_eq_true_iff] at hs'
  have htwins := noninterference hstart (by rfl) hs ht
  refine ⟨s₀, s, t, hstart, hs, ht, ?_, htwins.1, htwins.2.1, htwins.2.2 _ rfl hs'.1⟩
  rw [ht', hs'.2]
  decide

end Session

end BoundaryTag
