import BoundaryTag.Proofs.FreeIndex.Ring

set_option autoImplicit false

/-! # A free index and the lists it holds

`x.Threaded m lists` says that the memory holds, for each class of the index, a ring of the nodes
that `lists` gives for the class, and that the nodes of all rings lie apart. Under it the two
changes of the index always have an answer, and do to `lists` what their names say:
`Threaded.unlink` takes a node off its list and touches one link of each neighbour; `Threaded.push`
puts a block at the front of a list and touches its links, the head's and the first node's. -/

namespace BoundaryTag

open Memory (Touches Linked)

namespace FreeIndex

variable {x : FreeIndex} {m m' : Memory} {lists lists' : Nat → List Nat}
  {c d u v b s p n : Nat} {ws : List Nat}

/-- Where the head of a class is. -/
def headAt (x : FreeIndex) (c : Nat) : Nat :=
  x.base + c * 24

/-- The nodes of a ring: the head and the blocks of the class. -/
def cycle (x : FreeIndex) (lists : Nat → List Nat) (c : Nat) : List Nat :=
  x.headAt c :: lists c

/-- The lists with a node taken off. -/
def without (lists : Nat → List Nat) (u : Nat) : Nat → List Nat :=
  fun c => (lists c).erase u

/-- The lists with a node at the front of a class. -/
def pushed (lists : Nat → List Nat) (c u : Nat) : Nat → List Nat :=
  fun d => if d = c then u :: lists d else lists d

/-- The memory holds the given list for each class of the index. -/
structure Threaded (x : FreeIndex) (m : Memory) (lists : Nat → List Nat) : Prop where
  addressable : m.size < Word.limit
  ring : ∀ c < x.size, m.Ring (x.headAt c) (lists c)
  nodup : ∀ c < x.size, (x.cycle lists c).Nodup
  apart : ∀ c < x.size, ∀ d < x.size, ∀ u ∈ x.cycle lists c, ∀ v ∈ x.cycle lists d,
    (u = v ∧ c = d) ∨ u + 24 ≤ v ∨ v + 24 ≤ u

theorem classify_lt_size (x : FreeIndex) (n : Nat) : x.classify n < x.size :=
  x.classes.classify_lt_size n

theorem headAt_mem_cycle (x : FreeIndex) (lists : Nat → List Nat) (c : Nat) :
    x.headAt c ∈ x.cycle lists c :=
  List.mem_cons_self

theorem mem_cycle_of_mem (x : FreeIndex) (h : u ∈ lists c) : u ∈ x.cycle lists c :=
  List.mem_cons_of_mem _ h

theorem mem_cycle_of_mem_without (h : u ∈ x.cycle (without lists v) c) : u ∈ x.cycle lists c := by
  rw [cycle, List.mem_cons] at h ⊢
  exact h.imp_right List.mem_of_mem_erase

theorem mem_cycle_pushed :
    u ∈ x.cycle (pushed lists c v) d ↔ (u = v ∧ d = c) ∨ u ∈ x.cycle lists d := by
  rw [cycle, cycle, pushed]
  split <;> rename_i hd
  · simp only [List.mem_cons, hd, and_true]
    tauto
  · simp [hd]

namespace Threaded

theorem node_le (h : x.Threaded m lists) (hc : c < x.size) (hu : u ∈ x.cycle lists c) :
    u + 24 ≤ m.size := by
  obtain ⟨-, v, -, hv⟩ := (h.ring c hc).exists_linked hu
  exact Memory.le_size_of_readWord hv.2

theorem head_eq (h : x.Threaded m lists) (hc : c < x.size) : x.head c = .ok (x.headAt c) := by
  have := h.node_le hc (headAt_mem_cycle x lists c)
  have := h.addressable
  exact head_eq_ok_iff.mpr ⟨rfl, by omega⟩

theorem nextLink_eq (h : x.Threaded m lists) (hl : m.Linked u v) : m.nextLink u = .ok v := by
  have := Memory.le_size_of_readWord hl.1
  have := h.addressable
  rw [Memory.nextLink_eq (by omega), hl.1]

theorem priorLink_eq (h : x.Threaded m lists) (hl : m.Linked u v) : m.priorLink v = .ok u := by
  have := Memory.le_size_of_readWord hl.2
  have := h.addressable
  rw [Memory.priorLink_eq (by omega), hl.2]

/-- Lists depend on the links of their nodes only. -/
theorem congr (h : x.Threaded m lists) (hlim : m'.size < Word.limit)
    (hlinks : ∀ c < x.size, ∀ u ∈ x.cycle lists c, ∀ i, i = u + 8 ∨ i = u + 16 →
      m'.readWord i = m.readWord i) : x.Threaded m' lists where
  addressable := hlim
  ring c hc := (h.ring c hc).congr (fun a ha => hlinks c hc a ha _ (.inl rfl))
    fun a ha => hlinks c hc a ha _ (.inr rfl)
  nodup := h.nodup
  apart := h.apart

/-- Only the lists of the index count. -/
theorem congr_lists (h : x.Threaded m lists) (hl : ∀ c < x.size, lists' c = lists c) :
    x.Threaded m lists' := by
  have hcycle : ∀ c < x.size, x.cycle lists' c = x.cycle lists c := fun c hc => by
    rw [cycle, cycle, hl c hc]
  refine ⟨h.addressable, fun c hc => ?_, fun c hc => ?_, fun c hc d hd => ?_⟩
  · rw [hl c hc]
    exact h.ring c hc
  · rw [hcycle c hc]
    exact h.nodup c hc
  · rw [hcycle c hc, hcycle d hd]
    exact h.apart c hc d hd

/-- A node that was taken off is on no list. -/
theorem not_mem_without (h : x.Threaded m lists) (hc : c < x.size) : u ∉ without lists u c :=
  (List.nodup_cons.mp (h.nodup c hc)).2.not_mem_erase

theorem of_touches (h : x.Threaded m lists) (ht : Touches ws m m')
    (hd : ∀ c < x.size, ∀ u ∈ x.cycle lists c, ∀ w ∈ ws, u + 24 ≤ w ∨ w + 8 ≤ u + 8) :
    x.Threaded m' lists := by
  refine h.congr (by rw [ht.size_eq]; exact h.addressable) fun c hc u hu i hi => ?_
  refine ht.readWord_eq fun w hw => ?_
  have := hd c hc u hu w hw
  omega

theorem grow (h : x.Threaded m lists) {n : Nat} (hlim : m.size + n < Word.limit) :
    x.Threaded (m.grow n) lists := by
  refine h.congr hlim fun c hc u hu i hi => ?_
  obtain ⟨⟨v, -, hv⟩, t, -, ht⟩ := (h.ring c hc).exists_linked hu
  rcases hi with rfl | rfl
  · rw [hv.1, Memory.readWord_grow hv.1]
  · rw [ht.2, Memory.readWord_grow ht.2]

/-- A listed node is on the list of one class only. -/
theorem class_unique (h : x.Threaded m lists) (hc : c < x.size) (hd : d < x.size)
    (hu : u ∈ lists c) (hu' : u ∈ lists d) : c = d := by
  have := h.apart c hc d hd u (mem_cycle_of_mem x hu) u (mem_cycle_of_mem x hu')
  omega

/-! ## Changing the links of one list -/

/-- A change of the link of one node, of the link back of another, and of words beside all nodes
    leaves every other link. -/
theorem links_eq (h : x.Threaded m lists) (hc : c < x.size) (ht : Touches ws m m')
    (hp : p ∈ x.cycle lists c) (hn : n ∈ x.cycle lists c)
    (hws : ∀ w ∈ ws, w = p + 8 ∨ w = n + 16 ∨
      ∀ d < x.size, ∀ a ∈ x.cycle lists d, w + 8 ≤ a ∨ a + 24 ≤ w) :
    (∀ d < x.size, ∀ a ∈ x.cycle lists d, ¬(a = p ∧ d = c) →
      m'.readWord (a + 8) = m.readWord (a + 8)) ∧
    ∀ d < x.size, ∀ a ∈ x.cycle lists d, ¬(a = n ∧ d = c) →
      m'.readWord (a + 16) = m.readWord (a + 16) := by
  constructor
  all_goals
    intro d hd a ha hne
    refine ht.readWord_eq fun w hw => ?_
    have hap := h.apart d hd c hc a ha p hp
    have han := h.apart d hd c hc a ha n hn
    rcases hws w hw with rfl | rfl | hbeside
    · omega
    · omega
    · have := hbeside d hd a ha
      omega

/-- A listed node can be taken off its list. The link of the node before that led to it, and the
    link back of the node after it, are all that changes. -/
theorem unlink (h : x.Threaded m lists) (hc : c < x.size) (hu : u ∈ lists c) :
    ∃ m' p n, FreeIndex.unlink m u = .ok m' ∧ x.Threaded m' (without lists u) ∧
      (p ∈ x.cycle lists c ∧ m.Linked p u) ∧ (n ∈ x.cycle lists c ∧ m.Linked u n) ∧
      Touches [p + 8, n + 16] m m' := by
  obtain ⟨as, bs, hlist⟩ := List.append_of_mem hu
  have hring := h.ring c hc
  have hnodup := h.nodup c hc
  have hcycle : x.cycle lists c = x.headAt c :: (as ++ u :: bs) := by rw [cycle, hlist]
  rw [hcycle] at hnodup
  rw [hlist] at hring
  obtain ⟨p, n, hp, hn, hpu, hun⟩ := hring.exists_neighbours
  have hpm : p ∈ x.cycle lists c := by
    have hmem := List.mem_of_getLast? hp
    rw [hcycle, ← List.cons_append]
    exact List.mem_append_left _ hmem
  have hnm : n ∈ x.cycle lists c := by
    have hmem := List.mem_of_head? hn
    rw [List.mem_append, List.mem_singleton] at hmem
    rw [hcycle]
    rcases hmem with hmem | rfl
    · simp [hmem]
    · exact List.mem_cons_self
  have hapart := h.apart c hc c hc p hpm n hnm
  obtain ⟨m₁, m₂, h₁, h₂, hlink, ht⟩ := Memory.exists_link h.addressable (h.node_le hc hpm)
    (h.node_le hc hnm) (by omega)
  obtain ⟨h8, h16⟩ := h.links_eq hc ht hpm hnm fun w hw => by
    simp only [List.mem_cons, List.not_mem_nil, or_false] at hw
    exact hw.imp_right .inl
  refine ⟨m₂, p, n, ?_, ⟨?_, fun d hd => ?_, fun d hd => ?_, ?_⟩, ⟨hpm, hpu⟩, ⟨hnm, hun⟩, ht⟩
  · simp only [FreeIndex.unlink, isLinked, h.nextLink_eq hun, h.priorLink_eq hpu,
      h.nextLink_eq hpu, h.priorLink_eq hun, h₁, h₂, bind, Except.bind, pure, Except.pure, if_true,
      beq_self_eq_true]
  · rw [ht.size_eq]
    exact h.addressable
  · by_cases hdc : d = c
    · subst hdc
      have hnot : u ∉ as := by
        rw [List.nodup_cons, List.nodup_append] at hnodup
        exact fun hmem => hnodup.2.2.2 u hmem u List.mem_cons_self rfl
      rw [without, hlist, List.erase_append_right _ hnot, List.erase_cons_head]
      refine hring.unlink hnodup hp hn hlink (fun a ha hap => ?_) fun a ha han => ?_
      · exact h8 d hd a (by rwa [hcycle]) fun h => hap h.1
      · exact h16 d hd a (by rwa [hcycle]) fun h => han h.1
    -- a ring of another class keeps all its links
    · have hnot : u ∉ lists d := fun hmem => hdc (h.class_unique hd hc hmem hu)
      rw [without, List.erase_of_not_mem hnot]
      exact (h.ring d hd).congr (fun a ha => h8 d hd a ha fun h => hdc h.2)
        fun a ha => h16 d hd a ha fun h => hdc h.2
  · exact (h.nodup d hd).sublist (List.erase_sublist.cons_cons _)
  · intro d hd e he v hv t ht
    exact h.apart d hd e he v (mem_cycle_of_mem_without hv) t (mem_cycle_of_mem_without ht)

/-! ## Putting a block on -/

/-- With a block apart from all nodes put at the front of a list, the nodes lie apart. -/
theorem apart_pushed (h : x.Threaded m lists)
    (hb : ∀ c < x.size, ∀ v ∈ x.cycle lists c, b + 24 ≤ v ∨ v + 24 ≤ b) (c : Nat) :
    (∀ d < x.size, (x.cycle (pushed lists c b) d).Nodup) ∧
    ∀ d < x.size, ∀ e < x.size, ∀ u ∈ x.cycle (pushed lists c b) d,
      ∀ v ∈ x.cycle (pushed lists c b) e, (u = v ∧ d = e) ∨ u + 24 ≤ v ∨ v + 24 ≤ u := by
  constructor
  · intro d hd
    have hnodup := h.nodup d hd
    have hnot : b ∉ x.cycle lists d := fun hmem => by
      have := hb d hd b hmem
      omega
    rw [cycle] at hnodup hnot ⊢
    rw [pushed]
    split
    · rw [List.nodup_cons, List.mem_cons, not_or]
      rw [List.nodup_cons] at hnodup ⊢
      rw [List.mem_cons, not_or] at hnot
      exact ⟨⟨fun e => hnot.1 e.symm, hnodup.1⟩, hnot.2, hnodup.2⟩
    · exact hnodup
  · intro d hd e he u hu v hv
    rw [mem_cycle_pushed] at hu hv
    rcases hu with ⟨rfl, rfl⟩ | hu <;> rcases hv with ⟨rfl, rfl⟩ | hv
    · exact .inl ⟨rfl, rfl⟩
    · exact .inr (hb e he v hv)
    · exact .inr (hb d hd u hu).symm
    · exact h.apart d hd e he u hu v hv

/-- A free block apart from all nodes can be put at the front of the list of its class. Its own two
    links change, the head's link to the first node, and that node's link back. -/
theorem push (h : x.Threaded m lists) (hfree : m.freeAt b = .ok true) (hsize : m.sizeAt b = .ok s)
    (hb : b + 24 ≤ m.size)
    (hb' : ∀ c < x.size, ∀ v ∈ x.cycle lists c, b + 24 ≤ v ∨ v + 24 ≤ b) :
    ∃ m' n, x.push m b = .ok m' ∧ x.Threaded m' (pushed lists (x.classify s) b) ∧
      m'.Linked (x.headAt (x.classify s)) b ∧ (n ∈ x.cycle lists (x.classify s) ∧ m'.Linked b n) ∧
      Touches [b + 16, b + 8, n + 16, x.headAt (x.classify s) + 8] m m' := by
  have hc := x.classify_lt_size s
  generalize hcdef : x.classify s = c at hc ⊢
  have hgm := headAt_mem_cycle x lists c
  obtain ⟨n, hn, hnm, hgn⟩ := (h.ring c hc).exists_first
  have hapart := h.apart c hc c hc _ hgm n hnm
  obtain ⟨m₁, m₂, m₃, m₄, h₁, h₂, h₃, h₄, hhead, hfirst, ht⟩ := Memory.exists_insert h.addressable
    (h.node_le hc hgm) (h.node_le hc hnm) hb (by omega) (hb' c hc _ hgm) (hb' c hc n hnm)
  obtain ⟨h8, h16⟩ := h.links_eq hc ht hgm hnm fun w hw => by
    simp only [List.mem_cons, List.not_mem_nil, or_false] at hw
    rcases hw with rfl | rfl | rfl | rfl
    · refine .inr (.inr fun d hd a ha => ?_)
      have := hb' d hd a ha
      omega
    · refine .inr (.inr fun d hd a ha => ?_)
      have := hb' d hd a ha
      omega
    · exact .inr (.inl rfl)
    · exact .inl rfl
  obtain ⟨hnodup', hapart'⟩ := h.apart_pushed hb' c
  refine ⟨m₄, n, ?_, ⟨?_, fun d hd => ?_, hnodup', hapart'⟩, hhead, ⟨hnm, hfirst⟩, ht⟩
  · simp only [FreeIndex.push, hfree, hsize, hcdef, h.head_eq hc, h.nextLink_eq hgn, h₁, h₂, h₃, h₄,
      bind, Except.bind, if_true]
  · rw [ht.size_eq]
    exact h.addressable
  · by_cases hdc : d = c
    · subst hdc
      have hnodup := h.nodup d hd
      rw [pushed, if_pos rfl]
      refine (h.ring d hd).push hnodup hn hhead hfirst (fun a ha => ?_) fun a ha han => ?_
      · refine h8 d hd a (mem_cycle_of_mem x ha) fun hag => ?_
        rw [hag.1] at ha
        exact (List.nodup_cons.mp hnodup).1 ha
      · exact h16 d hd a ha fun h => han h.1
    -- a ring of another class keeps all its links
    · rw [pushed, if_neg hdc]
      exact (h.ring d hd).congr (fun a ha => h8 d hd a ha fun h => hdc h.2)
        fun a ha => h16 d hd a ha fun h => hdc h.2

end Threaded

end FreeIndex

end BoundaryTag
