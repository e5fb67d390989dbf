import Mathlib.Data.List.Perm.Subperm
import BoundaryTag.Proofs.FreeIndex.Threaded

set_option autoImplicit false

/-! # Following the lists of an index

On lists whose links lead from the head through the nodes and back, following the links is reading
the lists: `members` answers the list of a class (`Circular.members_eq`), and `firstFit` answers the
first block that is large enough, in the order of the classes and then of the list
(`firstFit_eq`). The rings of an index are such lists (`Threaded.circular`). -/

namespace BoundaryTag.FreeIndex

variable {x : FreeIndex} {m : Memory} {lists : Nat → List Nat} {sizeOf : Nat → Nat}
  {c n minSize head cursor : Nat} {nodes : List Nat}

/-- The first block of at least `minSize` bytes on the lists from the class of `minSize` on. -/
def firstOf (x : FreeIndex) (lists : Nat → List Nat) (sizeOf : Nat → Nat) (minSize : Nat) :
    Option Nat :=
  (List.range' (x.classify minSize) (x.size - x.classify minSize)).findSome? fun c =>
    (lists c).find? (minSize ≤ sizeOf ·)

theorem follow_eq (hchain : (nodes ++ [head]).IsChain fun u v => m.nextLink u = .ok v)
    (hcursor : (nodes ++ [head]).head? = some cursor) (hhead : head ∉ nodes) :
    follow m head n cursor = .ok (nodes.take n) := by
  induction n generalizing nodes cursor with
  | zero => rfl
  | succ n ih =>
    cases nodes with
    | nil =>
      simp only [List.nil_append, List.head?_cons, Option.some.injEq] at hcursor
      simp [follow, hcursor, pure, Except.pure]
    | cons u nodes =>
      simp only [List.cons_append, List.head?_cons, Option.some.injEq] at hcursor
      subst hcursor
      rw [List.mem_cons, not_or] at hhead
      rw [List.cons_append, List.isChain_cons] at hchain
      obtain ⟨next, hnext⟩ := Memory.exists_head?_concat nodes head
      simp only [follow, if_neg (Ne.symm hhead.1), hchain.1 next hnext,
        ih hchain.2 hnext hhead.2, bind, Except.bind, pure, Except.pure, List.take_succ_cons]

theorem firstOfSize_eq (hchain : (nodes ++ [head]).IsChain fun u v => m.nextLink u = .ok v)
    (hcursor : (nodes ++ [head]).head? = some cursor) (hhead : head ∉ nodes)
    (hsize : ∀ u ∈ nodes, m.sizeAt u = .ok (sizeOf u)) (hn : nodes.length < n) :
    firstOfSize m head minSize n cursor = .ok (nodes.find? (minSize ≤ sizeOf ·)) := by
  induction n generalizing nodes cursor with
  | zero => exact absurd hn (Nat.not_lt_zero _)
  | succ n ih =>
    cases nodes with
    | nil =>
      simp only [List.nil_append, List.head?_cons, Option.some.injEq] at hcursor
      simp [firstOfSize, hcursor, pure, Except.pure]
    | cons u nodes =>
      simp only [List.cons_append, List.head?_cons, Option.some.injEq] at hcursor
      subst hcursor
      rw [List.mem_cons, not_or] at hhead
      rw [List.cons_append, List.isChain_cons] at hchain
      obtain ⟨next, hnext⟩ := Memory.exists_head?_concat nodes head
      have ih := ih hchain.2 hnext hhead.2 (fun v hv => hsize v (List.mem_cons_of_mem _ hv))
        (Nat.lt_of_succ_lt_succ hn)
      simp only [firstOfSize, if_neg (Ne.symm hhead.1), hchain.1 next hnext,
        hsize u List.mem_cons_self, bind, Except.bind, ih]
      by_cases hfit : minSize ≤ sizeOf u
      · simp [hfit, pure, Except.pure]
      · simp [hfit]

theorem findSomeM?_eq {f : Nat → Except Fault (Option Nat)} {g : Nat → Option Nat} {cs : List Nat}
    (hfg : ∀ c ∈ cs, f c = .ok (g c)) : cs.findSomeM? f = .ok (cs.findSome? g) := by
  induction cs with
  | nil => rfl
  | cons c cs ih =>
    simp only [List.findSomeM?, hfg c List.mem_cons_self, bind, Except.bind, List.findSome?]
    cases g c with
    | none => exact ih fun d hd => hfg d (List.mem_cons_of_mem c hd)
    | some b => rfl

/-- From the head of a class the links lead through the nodes and back to the head. Links back play
    no part in it. -/
structure Circular (x : FreeIndex) (m : Memory) (c : Nat) (nodes : List Nat) : Prop where
  head_eq : x.head c = .ok (x.headAt c)
  head_not_mem : x.headAt c ∉ nodes
  chain : (x.headAt c :: nodes ++ [x.headAt c]).IsChain fun u v => m.nextLink u = .ok v

namespace Circular

theorem isChain_nextLink (h : x.Circular m c nodes) :
    (nodes ++ [x.headAt c]).IsChain fun u v => m.nextLink u = .ok v := by
  have hchain := h.chain
  rw [List.cons_append, List.isChain_cons] at hchain
  exact hchain.2

theorem exists_first (h : x.Circular m c nodes) :
    ∃ first, (nodes ++ [x.headAt c]).head? = some first ∧ m.nextLink (x.headAt c) = .ok first := by
  have hchain := h.chain
  rw [List.cons_append, List.isChain_cons] at hchain
  obtain ⟨first, hfirst⟩ := Memory.exists_head?_concat nodes (x.headAt c)
  exact ⟨first, hfirst, hchain.1 first hfirst⟩

/-- No node comes up twice, for the links lead from both to the same nodes and so to the head. -/
theorem nodup (h : x.Circular m c nodes) : nodes.Nodup := by
  have hback : (x.headAt c :: nodes.reverse).IsChain fun v u => m.nextLink u = .ok v := by
    have hchain := List.isChain_reverse.mpr h.isChain_nextLink
    rwa [List.reverse_append, List.reverse_singleton, List.singleton_append] at hchain
  refine List.nodup_reverse.mp (nodup_of_isChain hback (fun v v' u hv hv' => ?_) ?_)
  · rw [hv] at hv'
    exact Except.ok.inj hv'
  · rw [List.mem_reverse]
    exact h.head_not_mem

/-- A list has no more nodes than the memory has bytes. -/
theorem length_le (h : x.Circular m c nodes) : nodes.length ≤ m.size := by
  have hsub : nodes ⊆ List.range m.size := by
    intro u hu
    obtain ⟨as, bs, rfl⟩ := List.append_of_mem hu
    have hchain := h.isChain_nextLink
    rw [List.append_assoc, List.cons_append] at hchain
    obtain ⟨v, hv⟩ := Memory.exists_head?_concat bs (x.headAt c)
    have hnext : m.nextLink u = .ok v :=
      (List.isChain_cons.mp hchain.right_of_append).1 v hv
    obtain ⟨i, hi, hread⟩ := bind_eq_ok_iff.mp hnext
    have hle := Memory.le_size_of_readWord hread
    have heq : u + 8 = i := (Word.add_eq_ok_iff.mp hi).1
    rw [List.mem_range]
    omega
  simpa using (List.subperm_of_subset h.nodup hsub).length_le

theorem members_eq (h : x.Circular m c nodes) : x.members m c = .ok nodes := by
  obtain ⟨first, hfirst, hnext⟩ := h.exists_first
  have hlen := h.length_le
  have hfollow := follow_eq (n := m.size + 1) h.isChain_nextLink hfirst h.head_not_mem
  rw [List.take_of_length_le (Nat.le_succ_of_le hlen)] at hfollow
  simp only [members, firstMembers, h.head_eq, hnext, hfollow, bind, Except.bind, hlen, if_true,
    pure, Except.pure]

theorem firstFitIn_eq (h : x.Circular m c nodes) (hsize : ∀ u ∈ nodes, m.sizeAt u = .ok (sizeOf u)) :
    x.firstFitIn m minSize c = .ok (nodes.find? (minSize ≤ sizeOf ·)) := by
  obtain ⟨first, hfirst, hnext⟩ := h.exists_first
  simp only [firstFitIn, h.head_eq, hnext, bind, Except.bind]
  exact firstOfSize_eq h.isChain_nextLink hfirst h.head_not_mem hsize
    (Nat.lt_succ_of_le h.length_le)

end Circular

/-- The search over the memory is the search over the lists. -/
theorem firstFit_eq (h : ∀ c < x.size, x.Circular m c (lists c))
    (hsize : ∀ c < x.size, ∀ u ∈ lists c, m.sizeAt u = .ok (sizeOf u)) :
    x.firstFit m minSize = .ok (x.firstOf lists sizeOf minSize) := by
  refine findSomeM?_eq fun c hc => ?_
  have hlt : c < x.size := by
    rw [List.mem_range'_1] at hc
    omega
  exact (h c hlt).firstFitIn_eq (hsize c hlt)

namespace Threaded

theorem circular (h : x.Threaded m lists) (hc : c < x.size) : x.Circular m c (lists c) where
  head_eq := h.head_eq hc
  head_not_mem := (List.nodup_cons.mp (h.nodup c hc)).1
  chain := (h.ring c hc).imp fun _ _ hl => h.nextLink_eq hl

theorem members_eq (h : x.Threaded m lists) (hc : c < x.size) : x.members m c = .ok (lists c) :=
  (h.circular hc).members_eq

theorem firstFit_eq (h : x.Threaded m lists)
    (hsize : ∀ c < x.size, ∀ u ∈ lists c, m.sizeAt u = .ok (sizeOf u)) :
    x.firstFit m minSize = .ok (x.firstOf lists sizeOf minSize) :=
  FreeIndex.firstFit_eq (fun _ hc => h.circular hc) hsize

end Threaded

theorem mem_of_firstOf_eq_some {b : Nat} (h : x.firstOf lists sizeOf minSize = some b) :
    ∃ c < x.size, b ∈ lists c ∧ minSize ≤ sizeOf b := by
  obtain ⟨c, hc, hb⟩ := List.exists_of_findSome?_eq_some h
  rw [List.mem_range'_1] at hc
  refine ⟨c, by omega, List.mem_of_find?_eq_some hb, ?_⟩
  simpa using List.find?_some hb

end BoundaryTag.FreeIndex
