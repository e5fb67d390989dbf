import Mathlib.Data.List.Chain
import Mathlib.Data.List.Nodup
import BoundaryTag.FreeIndex
import BoundaryTag.Proofs.Memory.Frame

set_option autoImplicit false

/-! # Rings

A circular list in memory: from the head through the nodes and back to the head, each node links to
the next one and that one links back. Taking a node out (`Ring.unlink`) and putting one in at the
front (`Ring.push`) need two and four links to be right; all other links have to be kept. -/

namespace BoundaryTag

open Memory (Touches)

variable {m m' : Memory} {h p n u v : Nat} {as bs nodes : List Nat}

/-- The node `v` comes right after `u`: each links to the other. -/
def Memory.Linked (m : Memory) (u v : Nat) : Prop :=
  m.readWord (u + 8) = .ok v ∧ m.readWord (v + 16) = .ok u

/-- A list leads through the node: the nodes before it and after it link to it, as it does to them. -/
def Memory.LeadsThrough (m : Memory) (u : Nat) : Prop :=
  ∃ prior next, m.Linked prior u ∧ m.Linked u next

/-- The nodes follow each other from the head on, and the head follows the last one. -/
def Memory.Ring (m : Memory) (head : Nat) (nodes : List Nat) : Prop :=
  (head :: nodes ++ [head]).IsChain m.Linked

/-! ## Chains -/

/-- If each element of a chain determines the one before it, and the first comes up only once, then
    no element comes up twice. -/
theorem nodup_of_isChain {R : Nat → Nat → Prop} {first : Nat} {xs : List Nat}
    (hchain : (first :: xs).IsChain R) (hleft : ∀ u u' v, R u v → R u' v → u = u')
    (hfirst : first ∉ xs) : xs.Nodup := by
  rw [List.isChain_iff_getElem] at hchain
  rw [List.Nodup, List.pairwise_iff_getElem]
  intro i
  -- two equal elements are preceded by equal ones, down to the first
  induction i with
  | zero =>
    intro j hi hj hij heq
    cases j with
    | zero => exact absurd hij (Nat.lt_irrefl 0)
    | succ j =>
      have hprev : R xs[j] xs[j + 1] := hchain (j + 1) (by simpa using hj)
      have hback := hleft _ _ _ (hchain 0 (by simpa using hi)) (heq ▸ hprev)
      rw [List.getElem_cons_zero] at hback
      exact hfirst (hback ▸ List.getElem_mem _)
  | succ i ih =>
    intro j hi hj hij heq
    cases j with
    | zero => exact absurd hij (Nat.not_lt_zero _)
    | succ j =>
      have hprev : R xs[j] xs[j + 1] := hchain (j + 1) (by simpa using hj)
      have hback := hleft _ _ _ (hchain (i + 1) (by simpa using hi)) (heq ▸ hprev)
      exact ih j (Nat.lt_of_succ_lt hi) (Nat.lt_of_succ_lt hj) (Nat.lt_of_succ_lt_succ hij) hback

namespace Memory

/-- A relation between the neighbours of a chain can be exchanged where it is used. -/
theorem isChain_transport {R S : Nat → Nat → Prop} {l : List Nat} (hl : l.IsChain R)
    (hRS : ∀ a ∈ l.dropLast, ∀ b ∈ l.tail, R a b → S a b) : l.IsChain S := by
  induction l with
  | nil => exact List.isChain_nil
  | cons a l ih =>
    cases l with
    | nil => exact List.isChain_singleton a
    | cons b l =>
      rw [List.isChain_cons_cons] at hl ⊢
      refine ⟨hRS a (by simp) b (by simp) hl.1, ih hl.2 fun c hc d hd => hRS c ?_ d ?_⟩
      · rw [List.dropLast_cons_cons]
        exact List.mem_cons_of_mem a hc
      · exact List.mem_cons_of_mem b hd

theorem exists_head?_concat (l : List Nat) (a : Nat) : ∃ b, (l ++ [a]).head? = some b := by
  cases l <;> simp

theorem ne_of_mem_dropLast {l : List Nat} {a : Nat} (hl : l.Nodup) (hp : l.getLast? = some p)
    (ha : a ∈ l.dropLast) : a ≠ p := by
  rw [← List.dropLast_append_getLast? p hp, List.nodup_append] at hl
  exact hl.2.2 a ha p (List.mem_singleton_self p)

theorem ne_of_mem_tail {l : List Nat} {a : Nat} (hl : l.Nodup) (hn : l.head? = some n)
    (ha : a ∈ l.tail) : a ≠ n := by
  cases l with
  | nil => simp at ha
  | cons b l =>
    rw [List.head?_cons, Option.some.injEq] at hn
    rw [← hn]
    rintro rfl
    exact (List.nodup_cons.mp hl).1 ha

theorem Linked.congr (hl : m.Linked u v) (hu : m'.readWord (u + 8) = m.readWord (u + 8))
    (hv : m'.readWord (v + 16) = m.readWord (v + 16)) : m'.Linked u v :=
  ⟨hu.trans hl.1, hv.trans hl.2⟩

/-! ## Linking nodes -/

/-- Two nodes can be linked to each other. -/
theorem exists_link (hlim : m.size < Word.limit) (hp : p + 24 ≤ m.size) (hn : n + 24 ≤ m.size)
    (hpn : p = n ∨ p + 24 ≤ n ∨ n + 24 ≤ p) :
    ∃ m₁ m₂, m.setNextLink p n = .ok m₁ ∧ m₁.setPriorLink n p = .ok m₂ ∧ m₂.Linked p n ∧
      Touches [p + 8, n + 16] m m₂ := by
  obtain ⟨m₁, h₁, hr₁, ht₁⟩ := exists_setNextLink (m := m) (i := p) (w := n) hlim (by omega)
    (by omega)
  obtain ⟨m₂, h₂, hr₂, ht₂⟩ := exists_setPriorLink (m := m₁) (i := n) (w := p)
    (by rw [ht₁.size_eq]; exact hlim) (by rw [ht₁.size_eq]; exact hn) (by omega)
  refine ⟨m₁, m₂, h₁, h₂, ⟨?_, hr₂⟩, ht₁.trans ht₂⟩
  rw [ht₂.readWord_eq (by simp only [List.forall_mem_singleton]; omega), hr₁]

/-- A node can be put between two others by four links, the last of which is that of the node
    before. -/
theorem exists_insert (hlim : m.size < Word.limit) (hp : p + 24 ≤ m.size) (hn : n + 24 ≤ m.size)
    (hu : u + 24 ≤ m.size) (hpn : p = n ∨ p + 24 ≤ n ∨ n + 24 ≤ p)
    (hup : u + 24 ≤ p ∨ p + 24 ≤ u) (hun : u + 24 ≤ n ∨ n + 24 ≤ u) :
    ∃ m₁ m₂ m₃ m₄, m.setPriorLink u p = .ok m₁ ∧ m₁.setNextLink u n = .ok m₂ ∧
      m₂.setPriorLink n u = .ok m₃ ∧ m₃.setNextLink p u = .ok m₄ ∧
      m₄.Linked p u ∧ m₄.Linked u n ∧ Touches [u + 16, u + 8, n + 16, p + 8] m m₄ := by
  obtain ⟨m₁, h₁, hr₁, ht₁⟩ := exists_setPriorLink (m := m) (i := u) (w := p) hlim hu (by omega)
  obtain ⟨m₂, h₂, hr₂, ht₂⟩ := exists_setNextLink (m := m₁) (i := u) (w := n)
    (by rw [ht₁.size_eq]; exact hlim) (by rw [ht₁.size_eq]; omega) (by omega)
  have ht₁₂ := ht₁.trans ht₂
  obtain ⟨m₃, h₃, hr₃, ht₃⟩ := exists_setPriorLink (m := m₂) (i := n) (w := u)
    (by rw [ht₁₂.size_eq]; exact hlim) (by rw [ht₁₂.size_eq]; exact hn) (by omega)
  have ht₁₃ := ht₁₂.trans ht₃
  obtain ⟨m₄, h₄, hr₄, ht₄⟩ := exists_setNextLink (m := m₃) (i := p) (w := u)
    (by rw [ht₁₃.size_eq]; exact hlim) (by rw [ht₁₃.size_eq]; omega) (by omega)
  refine ⟨m₁, m₂, m₃, m₄, h₁, h₂, h₃, h₄, ⟨hr₄, ?_⟩, ⟨?_, ?_⟩, ht₁₃.trans ht₄⟩
  -- a later write is of another word
  · rw [ht₄.readWord_eq (by simp only [List.forall_mem_singleton]; omega),
      ht₃.readWord_eq (by simp only [List.forall_mem_singleton]; omega),
      ht₂.readWord_eq (by simp only [List.forall_mem_singleton]; omega), hr₁]
  · rw [ht₄.readWord_eq (by simp only [List.forall_mem_singleton]; omega),
      ht₃.readWord_eq (by simp only [List.forall_mem_singleton]; omega), hr₂]
  · rw [ht₄.readWord_eq (by simp only [List.forall_mem_singleton]; omega), hr₃]

/-! ## Rings -/

theorem ring_nil_iff : m.Ring h [] ↔ m.Linked h h := by
  simp [Ring]

/-- Every node of a ring, its head included, has a node after it and one before it. -/
theorem Ring.exists_linked (hr : m.Ring h nodes) (hu : u ∈ h :: nodes) :
    (∃ v ∈ h :: nodes, m.Linked u v) ∧ ∃ v ∈ h :: nodes, m.Linked v u := by
  have hmem : ∀ a, a ∈ nodes ++ [h] ↔ a ∈ h :: nodes := by
    intro a
    rw [List.mem_append, List.mem_singleton, List.mem_cons, or_comm]
  constructor
  · obtain ⟨as, bs, heq⟩ := List.append_of_mem hu
    rw [Ring, heq, List.append_assoc, List.isChain_append] at hr
    cases bs with
    | nil =>
      have : m.Linked u h := by simpa using hr.2.1
      exact ⟨h, List.mem_cons_self, this⟩
    | cons v bs =>
      have : m.Linked u v := (List.isChain_cons_cons.mp hr.2.1).1
      exact ⟨v, by rw [heq]; simp, this⟩
  · obtain ⟨as, bs, heq⟩ := List.append_of_mem ((hmem u).mpr hu)
    rw [Ring, List.cons_append, heq, ← List.cons_append, List.isChain_append] at hr
    obtain ⟨v, hv⟩ : ∃ v, (h :: as).getLast? = some v := ⟨_, List.getLast?_cons⟩
    refine ⟨v, ?_, hr.2.2 v hv u rfl⟩
    have hmem' := List.mem_of_getLast? hv
    rw [List.mem_cons] at hmem'
    rcases hmem' with rfl | hmem'
    · exact List.mem_cons_self
    · exact (hmem v).mp (by rw [heq]; exact List.mem_append_left _ hmem')

/-- The node after the head, which is the head itself on an empty ring. -/
theorem Ring.exists_first (hr : m.Ring h nodes) :
    ∃ n, (nodes ++ [h]).head? = some n ∧ n ∈ h :: nodes ∧ m.Linked h n := by
  rw [Ring, List.cons_append, List.isChain_cons] at hr
  obtain ⟨n, hn⟩ := exists_head?_concat nodes h
  have hmem := List.mem_of_head? hn
  rw [List.mem_append, List.mem_singleton, or_comm, ← List.mem_cons] at hmem
  exact ⟨n, hn, hmem, hr.1 n hn⟩

/-- A ring cut open before a node. -/
theorem ring_append_cons_iff :
    m.Ring h (as ++ u :: bs) ↔
      (h :: as).IsChain m.Linked ∧ (u :: (bs ++ [h])).IsChain m.Linked ∧
        ∀ p ∈ (h :: as).getLast?, m.Linked p u := by
  have hcut : h :: (as ++ u :: bs) ++ [h] = (h :: as) ++ (u :: (bs ++ [h])) := by simp
  rw [Ring, hcut, List.isChain_append]
  simp

/-- The neighbours of a node on a ring. -/
theorem Ring.exists_neighbours (hr : m.Ring h (as ++ u :: bs)) :
    ∃ p n, (h :: as).getLast? = some p ∧ (bs ++ [h]).head? = some n ∧
      m.Linked p u ∧ m.Linked u n := by
  obtain ⟨-, hback, hpu⟩ := ring_append_cons_iff.mp hr
  obtain ⟨p, hp⟩ : ∃ p, (h :: as).getLast? = some p := ⟨_, List.getLast?_cons⟩
  obtain ⟨n, hn⟩ := exists_head?_concat bs h
  exact ⟨p, n, hp, hn, hpu p hp, (List.isChain_cons.mp hback).1 n hn⟩

theorem Ring.congr (hr : m.Ring h nodes)
    (h8 : ∀ a ∈ h :: nodes, m'.readWord (a + 8) = m.readWord (a + 8))
    (h16 : ∀ a ∈ h :: nodes, m'.readWord (a + 16) = m.readWord (a + 16)) : m'.Ring h nodes := by
  refine isChain_transport hr fun a ha b hb hab => hab.congr (h8 a ?_) (h16 b ?_)
  · rwa [List.dropLast_concat] at ha
  · simpa [or_comm] using hb

/-- A node is taken out when its neighbours link to each other. -/
theorem Ring.unlink (hr : m.Ring h (as ++ u :: bs)) (hnodup : (h :: (as ++ u :: bs)).Nodup)
    (hp : (h :: as).getLast? = some p) (hn : (bs ++ [h]).head? = some n) (hlink : m'.Linked p n)
    (h8 : ∀ a ∈ h :: (as ++ u :: bs), a ≠ p → m'.readWord (a + 8) = m.readWord (a + 8))
    (h16 : ∀ a ∈ h :: (as ++ u :: bs), a ≠ n → m'.readWord (a + 16) = m.readWord (a + 16)) :
    m'.Ring h (as ++ bs) := by
  obtain ⟨hfrontChain, hbackChain, -⟩ := ring_append_cons_iff.mp hr
  rw [← List.cons_append, List.nodup_append] at hnodup
  obtain ⟨hfront, hback, hapart⟩ := hnodup
  have hpmem := List.mem_of_getLast? hp
  have hnmem := List.mem_of_head? hn
  have hapart' : ∀ a ∈ h :: as, ∀ b ∈ bs, a ≠ b := fun a ha b hb =>
    hapart a ha b (List.mem_cons_of_mem u hb)
  have hback' : (bs ++ [h]).Nodup := by
    rw [List.nodup_append]
    refine ⟨(List.nodup_cons.mp hback).2, List.nodup_singleton h, fun b hb c hc => ?_⟩
    rw [List.mem_singleton.mp hc]
    exact (hapart' h List.mem_cons_self b hb).symm
  rw [Ring, ← List.cons_append, List.append_assoc, List.isChain_append]
  refine ⟨isChain_transport hfrontChain fun a ha b hb hab => ?_,
    isChain_transport (List.isChain_cons.mp hbackChain).2 fun a ha b hb hab => ?_,
    fun x hx y hy => ?_⟩
  · have ham := List.dropLast_subset _ ha
    refine hab.congr (h8 a ?_ (ne_of_mem_dropLast hfront hp ha)) (h16 b ?_ ?_)
    · rw [← List.cons_append]
      exact List.mem_append_left _ ham
    · exact List.mem_cons_of_mem h (List.mem_append_left _ hb)
    · rintro rfl
      rw [List.mem_append, List.mem_singleton] at hnmem
      rcases hnmem with hnmem | rfl
      · exact hapart' b (List.mem_cons_of_mem h hb) b hnmem rfl
      · exact (List.nodup_cons.mp hfront).1 hb
  · rw [List.dropLast_concat] at ha
    have hbm := List.mem_of_mem_tail hb
    refine hab.congr (h8 a ?_ (hapart' p hpmem a ha).symm) (h16 b ?_ (ne_of_mem_tail hback' hn hb))
    · simp [ha]
    · rw [List.mem_append, List.mem_singleton] at hbm
      rcases hbm with hbm | rfl
      · simp [hbm]
      · exact List.mem_cons_self
  · rw [Option.mem_def, hp, Option.some.injEq] at hx
    rw [Option.mem_def, hn, Option.some.injEq] at hy
    rwa [← hx, ← hy]

/-- A node is put in at the front by four links: with the head and with the first node so far. -/
theorem Ring.push (hr : m.Ring h nodes) (hnodup : (h :: nodes).Nodup)
    (hn : (nodes ++ [h]).head? = some n) (hhu : m'.Linked h u) (hun : m'.Linked u n)
    (h8 : ∀ a ∈ nodes, m'.readWord (a + 8) = m.readWord (a + 8))
    (h16 : ∀ a ∈ h :: nodes, a ≠ n → m'.readWord (a + 16) = m.readWord (a + 16)) :
    m'.Ring h (u :: nodes) := by
  have hback : (nodes ++ [h]).Nodup := by
    rw [List.nodup_append]
    rw [List.nodup_cons] at hnodup
    refine ⟨hnodup.2, List.nodup_singleton h, fun b hb c hc => ?_⟩
    rw [List.mem_singleton.mp hc]
    rintro rfl
    exact hnodup.1 hb
  rw [Ring, List.cons_append, List.isChain_cons] at hr
  rw [Ring, List.cons_append, List.cons_append, List.isChain_cons_cons, List.isChain_cons]
  refine ⟨hhu, fun y hy => ?_, isChain_transport hr.2 fun a ha b hb hab => ?_⟩
  · rw [Option.mem_def, hn, Option.some.injEq] at hy
    rwa [← hy]
  · rw [List.dropLast_concat] at ha
    have hbm := List.mem_of_mem_tail hb
    refine hab.congr (h8 a ha) (h16 b ?_ (ne_of_mem_tail hback hn hb))
    rw [List.mem_append, List.mem_singleton, or_comm] at hbm
    exact List.mem_cons.mpr hbm

end Memory

end BoundaryTag
