import BoundaryTag.Proofs.Heap.Init
import BoundaryTag.Proofs.Heap.Resize
import BoundaryTag.Proofs.Session.Basic

set_option autoImplicit false

/-! # The invariant of sessions

In a sound session the heap realizes a plan whose allocated spans are the blocks of the live
handles, each with room for the bytes requested (`Session.Sound`). Every permitted command that has
an answer keeps this (`Sound.exec`), so it holds in every reachable session (`exists_sound`). -/

open BoundaryTag.Span (total places)

namespace BoundaryTag.Session

open Memory (Keeps)

variable {s s' : Session} {P P' : Plan} {p q : Handle} {o k size needed : Nat} {m' : Memory}
  {region : Region} {settings : Settings} {c : Command}

/-- The heap realizes the plan, and its allocated spans are the blocks of the live handles. Blocks
    of handles given back lie where they did, inside the heap, and are not allocated so. -/
structure Sound (s : Session) (P : Plan) : Prop where
  realizes : s.heap.Realizes P
  placed : ∀ p n, (p, n) ∈ s.live →
    ∃ o k, p.offset = o + 8 ∧ (o, k) ∈ places true s.heap.start P.spans ∧ n + 16 ≤ k
  owned : ∀ o k, (o, k) ∈ places true s.heap.start P.spans → ∃ p, s.IsLive p ∧ p.offset = o + 8
  nodup : (s.live.map Prod.fst).Nodup
  spent : ∀ p ∈ s.spent, ∃ o, p.offset = o + 8 ∧ s.heap.start ≤ o ∧ o % 8 = 0 ∧
    o + 32 ≤ s.heap.start + total P.spans ∧ ∀ k, (o, k) ∉ places true s.heap.start P.spans

theorem handle_ext (h : p.offset = q.offset) : p = q := by
  cases p
  cases q
  cases h
  rfl

namespace Sound

theorem place_of_live (hs : s.Sound P) (hp : s.IsLive p) : ∃ o k, p.offset = o + 8 ∧
    (o, k) ∈ places true s.heap.start P.spans := by
  obtain ⟨n, hp⟩ := hp
  obtain ⟨o, k, ho, hk, -⟩ := hs.placed p n hp
  exact ⟨o, k, ho, hk⟩

/-- A change that concerns one handle and the block in its place keeps the session sound, if the two
    still fit each other. -/
theorem update (hs : s.Sound P) (hp : p.offset = o + 8) (hheap : s'.heap = s.heap.withMemory m')
    (hreal : (s.heap.withMemory m').Realizes P') (hsize : s.heap.memory.size ≤ m'.size)
    (hplaces : ∀ u j, u ≠ o → ((u, j) ∈ places true s.heap.start P'.spans ↔
      (u, j) ∈ places true s.heap.start P.spans))
    (hlive : ∀ q n, q ≠ p → ((q, n) ∈ s'.live ↔ (q, n) ∈ s.live))
    (hplaced : ∀ n, (p, n) ∈ s'.live →
      ∃ j, (o, j) ∈ places true s.heap.start P'.spans ∧ n + 16 ≤ j)
    (howned : ∀ j, (o, j) ∈ places true s.heap.start P'.spans → s'.IsLive p)
    (hnodup : (s'.live.map Prod.fst).Nodup) (hspent : ∀ q ∈ s'.spent, q ≠ p → q ∈ s.spent)
    (hgone : p ∈ s'.spent → s.heap.start ≤ o ∧ o % 8 = 0 ∧
      o + 32 ≤ s.heap.start + total P.spans ∧ ∀ j, (o, j) ∉ places true s.heap.start P'.spans) :
    s'.Sound P' := by
  have hne : ∀ {q u}, q.offset = u + 8 → (q ≠ p ↔ u ≠ o) := by
    intro q u hq
    refine not_congr ⟨fun heq => ?_, fun heq => ?_⟩
    · rw [heq] at hq
      omega
    · exact handle_ext (by omega)
  have htotal := hs.realizes.size_eq
  have htotal' := hreal.size_eq
  simp only [Heap.start_withMemory, Heap.memory_withMemory] at htotal'
  rw [← hheap] at hreal
  have hstart : s'.heap.start = s.heap.start := by rw [hheap]; rfl
  refine ⟨hreal, fun q n hq => ?_, fun u j hu => ?_, hnodup, fun q hq => ?_⟩ <;>
    simp only [hstart] at *
  · by_cases hqp : q = p
    · subst hqp
      obtain ⟨j, hj, hnj⟩ := hplaced n hq
      exact ⟨o, j, hp, hj, hnj⟩
    · obtain ⟨u, j, hu, hj, hnj⟩ := hs.placed q n ((hlive q n hqp).mp hq)
      exact ⟨u, j, hu, (hplaces u j ((hne hu).mp hqp)).mpr hj, hnj⟩
  · by_cases huo : u = o
    · subst huo
      exact ⟨p, howned j hu, hp⟩
    · obtain ⟨q, ⟨n, hq⟩, hoff⟩ := hs.owned u j ((hplaces u j huo).mp hu)
      exact ⟨q, ⟨n, (hlive q n ((hne hoff).mpr huo)).mpr hq⟩, hoff⟩
  · by_cases hqp : q = p
    · subst hqp
      obtain ⟨hle, hmod, hstop, hnot⟩ := hgone hq
      exact ⟨o, hp, hle, hmod, by omega, hnot⟩
    · obtain ⟨u, hu, hle, hmod, hstop, hnot⟩ := hs.spent q (hspent q hq hqp)
      exact ⟨u, hu, hle, hmod, by omega, fun j hj =>
        hnot j ((hplaces u j ((hne hu).mp hqp)).mp hj)⟩

/-- Bytes in which the plan is not written may change. -/
theorem withHeap (hs : s.Sound P) (hr : (s.heap.withMemory m').Realizes P) :
    (s.withHeap (s.heap.withMemory m')).Sound P :=
  ⟨hr, hs.placed, hs.owned, hs.nodup, hs.spent⟩

/-- A handle cannot be live if no block lies in its place. -/
theorem not_live (hs : s.Sound P) (hp : p.offset = o + 8)
    (hfresh : ∀ j, (o, j) ∉ places true s.heap.start P.spans) : ¬ s.IsLive p := by
  intro hlive
  obtain ⟨u, j, hu, hj⟩ := hs.place_of_live hlive
  obtain rfl : u = o := by omega
  exact hfresh j hj

theorem grant (hs : s.Sound P) (hp : p.offset = o + 8) (hsize : size + 16 ≤ needed)
    (hg : s.heap.Gives P o needed m' P') :
    ((s.grant p size).withHeap (s.heap.withMemory m')).Sound P' := by
  have hdead : ∀ n, (p, n) ∉ s.live := fun n hn =>
    hs.not_live hp (fun j => hg.not_mem_places) ⟨n, hn⟩
  obtain ⟨k, hk, hplace⟩ := hg.mem_places
  refine hs.update hp rfl hg.realizes hg.keeps.size_le (fun u j => hg.mem_places_iff) ?_ ?_ ?_ ?_
    ?_ ?_
  · intro q n hq
    simp [Session.grant, Session.withHeap, hq]
  · intro n hn
    simp only [Session.grant, Session.withHeap, List.mem_cons, Prod.mk.injEq, true_and] at hn
    rcases hn with rfl | hn
    · exact ⟨k, hplace, by omega⟩
    · exact absurd hn (hdead n)
  · exact fun j _ => ⟨size, List.mem_cons_self⟩
  · refine List.nodup_cons.mpr ⟨fun hmem => ?_, hs.nodup⟩
    obtain ⟨⟨q, n⟩, hq, rfl⟩ := List.mem_map.mp hmem
    exact hdead n hq
  · exact fun q hq _ => (List.mem_filter.mp hq).1
  · intro hmem
    simp [Session.grant, Session.withHeap] at hmem

theorem retire (hs : s.Sound P) (hp : p.offset = o + 8)
    (hk : (o, k) ∈ places true s.heap.start P.spans) (ht : s.heap.Takes P o k m' P') :
    ((s.retire (some p)).withHeap (s.heap.withMemory m')).Sound P' := by
  have hbounds := hs.realizes.place_bounds hk
  have hmem : ∀ {u j}, (u, j) ∈ places true s.heap.start P'.spans ↔
      u ≠ o ∧ (u, j) ∈ places true s.heap.start P.spans := ht.mem_places_iff hs.realizes
  refine hs.update hp rfl ht.realizes ht.keeps.size_le (fun u j hu => ?_) ?_ ?_ ?_ ?_ ?_ ?_
  · simp [hmem, hu]
  · intro q n hq
    simp [Session.retire, Session.withHeap, hq]
  · intro n hn
    simp [Session.retire, Session.withHeap] at hn
  · exact fun j hj => absurd rfl (hmem.mp hj).1
  · exact hs.nodup.sublist (List.filter_sublist.map _)
  · exact fun q hq hqp => (List.mem_cons.mp hq).resolve_left hqp
  · exact fun _ => ⟨hbounds.1, hs.realizes.mod_of_place hk, by omega,
      fun j hj => (hmem.mp hj).1 rfl⟩

/-- A handle is given back and handed out again: its block stays in its place. -/
theorem regrant (hs : s.Sound P) (hp : p.offset = o + 8)
    (hr : (s.heap.withMemory m').Realizes P') (hsize : s.heap.memory.size ≤ m'.size)
    (hplaces : ∀ u j, u ≠ o → ((u, j) ∈ places true s.heap.start P'.spans ↔
      (u, j) ∈ places true s.heap.start P.spans))
    (hk : (o, k) ∈ places true s.heap.start P'.spans) (hfits : size + 16 ≤ k) :
    (((s.retire (some p)).grant p size).withHeap (s.heap.withMemory m')).Sound P' := by
  refine hs.update hp rfl hr hsize hplaces ?_ ?_ ?_ ?_ ?_ ?_
  · intro q n hq
    simp [Session.grant, Session.retire, Session.withHeap, hq]
  · intro n hn
    simp only [Session.grant, Session.retire, Session.withHeap, List.mem_cons, Prod.mk.injEq,
      true_and, List.mem_filter, ne_eq, not_true_eq_false, decide_false, Bool.false_eq_true,
      and_false, or_false] at hn
    exact ⟨k, hk, by omega⟩
  · exact fun j _ => ⟨size, List.mem_cons_self⟩
  · refine List.nodup_cons.mpr ⟨fun hmem => ?_, hs.nodup.sublist (List.filter_sublist.map _)⟩
    obtain ⟨⟨q, n⟩, hq, rfl⟩ := List.mem_map.mp hmem
    simp [Session.retire] at hq
  · intro q hq hqp
    exact (List.mem_cons.mp (List.mem_filter.mp hq).1).resolve_left hqp
  · intro hmem
    simp [Session.grant, Session.retire, Session.withHeap] at hmem

end Sound

end BoundaryTag.Session
