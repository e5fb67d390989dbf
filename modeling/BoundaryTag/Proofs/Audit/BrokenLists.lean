import BoundaryTag.Proofs.Audit.Rings

set_option autoImplicit false

/-! # What the audit of the lists finds

An audit ends at the first rule that it finds broken. `a.ListBroken c v` says by what the memory
holds that this is `v` on the list of a class: a trail of nodes that pass their checks leads from
the head to a link that is broken. `countListed_eq_violation_iff`: the audit of the lists finds `v`
exactly if some list is broken in this way and the lists of the classes before it pass. -/

namespace BoundaryTag.Audit

variable {a : Audit} {c head room prior node o n : Nat} {v : Violation}

/-! ## Checks that find something -/

theorem violated_eq_violation_iff {α : Type} {k : Violation.Kind} :
    (violated o k : Except Finding α) = .error (.violation v) ↔ ⟨o, k⟩ = v := by
  simp [violated]

theorem require_eq_violation_iff {ok : Bool} {k : Violation.Kind} :
    require ok o k = .error (.violation v) ↔ ok = false ∧ ⟨o, k⟩ = v := by
  cases ok <;> simp [require, violated]

theorem lift_eq_violation_iff {α : Type} {x : Except Fault α} :
    (liftM x : Except Finding α) = .error (.violation v) ↔ False := by
  cases x with
  | ok _ => exact ⟨nofun, nofun⟩
  | error _ => exact ⟨nofun, nofun⟩

/-- A word is missing if it does not lie in the memory as a whole. -/
theorem word_eq_violation_iff :
    a.word o = .error (.violation v) ↔ a.memory.size < o + 8 ∧ ⟨o, .truncated⟩ = v := by
  have h8 : Word.bytes = 8 := rfl
  unfold word Memory.word? Memory.slice?
  rw [h8]
  by_cases hle : o + 8 ≤ a.memory.size
  · simp [hle, Nat.not_lt.mpr hle]
  · simp [hle, Nat.not_le.mp hle, violated]

theorem tag_eq_violation_iff :
    a.tag o = .error (.violation v) ↔ a.memory.size < o + 8 ∧ ⟨o, .truncated⟩ = v := by
  simp only [tag, bind_eq_error_iff, word_eq_violation_iff, pure_eq_error_iff, and_false,
    exists_false, or_false]

theorem nextLink_eq_violation_iff (ho : o + 8 < Word.limit) :
    a.nextLink o = .error (.violation v) ↔ a.memory.size < o + 16 ∧ ⟨o + 8, .truncated⟩ = v := by
  have hadd : Word.add o Block.headerBytes = .ok (o + 8) := Word.add_eq_ok_iff.mpr ⟨rfl, ho⟩
  simp only [nextLink, bind_eq_error_iff, lift_eq_violation_iff, lift_eq_ok_iff, hadd,
    Except.ok.injEq, exists_eq_left', false_or, word_eq_violation_iff]

theorem priorLink_eq_violation_iff (ho : o + 16 < Word.limit) :
    a.priorLink o = .error (.violation v) ↔ a.memory.size < o + 24 ∧ ⟨o + 16, .truncated⟩ = v := by
  have hadd : Word.add o Block.headerBytes = .ok (o + 8) :=
    Word.add_eq_ok_iff.mpr ⟨rfl, by omega⟩
  have hadd' : Word.add (o + 8) Word.bytes = .ok (o + 16) := Word.add_eq_ok_iff.mpr ⟨rfl, ho⟩
  simp only [priorLink, bind_eq_error_iff, lift_eq_violation_iff, lift_eq_ok_iff, hadd, hadd',
    Except.ok.injEq, exists_eq_left', false_or, word_eq_violation_iff]

/-! ## Nodes -/

/-- What is wrong with the node that `prior` links to on the list of a class. Later rules are broken
    only where the earlier ones are kept. -/
inductive NodeBroken (a : Audit) (c prior node : Nat) : Violation → Prop
  | outOfBounds (hout : ¬ (a.start ≤ node ∧ node < a.epilogue ∧ node % 8 = 0)) :
    NodeBroken a c prior node ⟨prior, .linkOutOfBounds node⟩
  | allocated {t : Tag} (hin : a.start ≤ node ∧ node < a.epilogue ∧ node % 8 = 0)
      (htag : a.memory.tagAt node = .ok t) (hall : t.allocated = true) :
    NodeBroken a c prior node ⟨node, .allocatedOnFreeList⟩
  | truncated {t : Tag} (hin : a.start ≤ node ∧ node < a.epilogue ∧ node % 8 = 0)
      (htag : a.memory.tagAt node = .ok t) (hfree : t.allocated = false)
      (hshort : a.memory.size < node + 24) :
    NodeBroken a c prior node ⟨node + 16, .truncated⟩
  | brokenLink {t : Tag} {back : Nat} (hin : a.start ≤ node ∧ node < a.epilogue ∧ node % 8 = 0)
      (htag : a.memory.tagAt node = .ok t) (hfree : t.allocated = false)
      (hback : a.memory.priorLink node = .ok back) (hne : back ≠ prior) :
    NodeBroken a c prior node ⟨node, .brokenLink prior back⟩
  | wrongClass {t : Tag} (hin : a.start ≤ node ∧ node < a.epilogue ∧ node % 8 = 0)
      (htag : a.memory.tagAt node = .ok t) (hfree : t.allocated = false)
      (hback : a.memory.priorLink node = .ok prior) (hne : a.index.classify t.size ≠ c) :
    NodeBroken a c prior node ⟨node, .wrongSizeClass t.size (a.index.classify t.size) c⟩

theorem checkNode_eq_violation_iff (ha : a.Fits) :
    a.checkNode c prior node = .error (.violation v) ↔ a.NodeBroken c prior node v := by
  have hsize := ha.size_le
  have hepilogue : a.epilogue = a.memory.size - 8 := rfl
  by_cases hin : a.start ≤ node ∧ node < a.epilogue ∧ node % 8 = 0
  · have hword : ¬ a.memory.size < node + 8 := by omega
    have hprior : node + 16 < Word.limit := by omega
    have hin' := inHeap_eq_true_iff.mpr hin
    simp only [checkNode, bind_eq_error_iff, exists_unit_iff, require_eq_violation_iff,
      require_eq_ok_iff, hin', reduceCtorEq, false_and, true_and, false_or, Bool.not_eq_false',
      Bool.not_eq_true', beq_iff_eq, beq_eq_false_iff_ne, tag_eq_ok_iff, priorLink_eq_ok_iff,
      tag_eq_violation_iff, priorLink_eq_violation_iff hprior, hword]
    constructor
    · rintro ⟨t, htag, ⟨hall, rfl⟩ | ⟨hfree, ⟨hshort, rfl⟩ |
        ⟨back, hback, ⟨hne, rfl⟩ | ⟨rfl, hne, rfl⟩⟩⟩⟩
      · exact .allocated hin htag hall
      · exact .truncated hin htag hfree hshort
      · exact .brokenLink hin htag hfree hback hne
      · exact .wrongClass hin htag hfree hback hne
    · rintro (hout | ⟨-, htag, hall⟩ | ⟨-, htag, hfree, hshort⟩ | ⟨-, htag, hfree, hback, hne⟩ |
        ⟨-, htag, hfree, hback, hne⟩)
      · exact absurd hin hout
      · exact ⟨_, htag, .inl ⟨hall, rfl⟩⟩
      · exact ⟨_, htag, .inr ⟨hfree, .inl ⟨hshort, rfl⟩⟩⟩
      · exact ⟨_, htag, .inr ⟨hfree, .inr ⟨_, hback, .inl ⟨hne, rfl⟩⟩⟩⟩
      · exact ⟨_, htag, .inr ⟨hfree, .inr ⟨_, hback, .inr ⟨rfl, hne, rfl⟩⟩⟩⟩
  · have hout : a.inHeap node = false := by
      rwa [← Bool.not_eq_true, inHeap_eq_true_iff]
    simp only [checkNode, hout, require, Bool.false_eq_true, if_false, bind_eq_error_iff,
      violated_eq_violation_iff]
    constructor
    · rintro (rfl | ⟨u, hu, -⟩)
      · exact .outOfBounds hin
      · cases hu
    · intro h
      cases h with
      | outOfBounds => exact .inl rfl
      | allocated hin' | truncated hin' | brokenLink hin' | wrongClass hin' => exact absurd hin' hin

/-! ## One list -/

/-- The links lead from a node of a list over the nodes to the last of them. Each passes its checks,
    and none is the head. -/
def Trail (a : Audit) (c head : Nat) : Nat → List Nat → Nat → Prop
  | node, [], last => node = last
  | node, u :: us, last => a.memory.nextLink node = .ok u ∧ u ≠ head ∧ a.Sound c node u ∧
      Trail a c head u us last

/-- What is wrong where the link from `prior` leads to `node`, if there may be `room` more nodes. -/
inductive LinkBroken (a : Audit) (c head room prior node : Nat) : Violation → Prop
  | cycle (hne : node ≠ head) (hroom : room = 0) :
    LinkBroken a c head room prior node ⟨head, .freeListCycle⟩
  | node {v : Violation} (hne : node ≠ head) (hroom : 0 < room)
      (hbroken : a.NodeBroken c prior node v) : LinkBroken a c head room prior node v
  | truncated (heq : node = head) (hshort : a.memory.size < head + 24) :
    LinkBroken a c head room prior node ⟨head + 16, .truncated⟩
  | brokenLink {back : Nat} (heq : node = head) (hback : a.memory.priorLink head = .ok back)
      (hne : back ≠ prior) : LinkBroken a c head room prior node ⟨head, .brokenLink prior back⟩

/-- Along the links from `node` on, after nodes that pass their checks, a link is broken. -/
def TrailBroken (a : Audit) (c head room node : Nat) (v : Violation) : Prop :=
  ∃ nodes last next, a.Trail c head node nodes last ∧ a.memory.nextLink last = .ok next ∧
    nodes.length ≤ room ∧ a.LinkBroken c head (room - nodes.length) last next v

theorem TrailBroken.exists_first (h : a.TrailBroken c head room node v) :
    ∃ first, a.memory.nextLink node = .ok first := by
  obtain ⟨nodes, last, next, htrail, hnext, -⟩ := h
  cases nodes with
  | nil =>
    obtain rfl : node = last := htrail
    exact ⟨next, hnext⟩
  | cons u us => exact ⟨u, htrail.1⟩

theorem linkBroken_head_iff (hhead : head + 16 < Word.limit) :
    a.LinkBroken c head room prior head v ↔
      a.checkReturn head prior = .error (.violation v) := by
  simp only [checkReturn, bind_eq_error_iff, priorLink_eq_violation_iff hhead, priorLink_eq_ok_iff,
    require_eq_violation_iff, beq_eq_false_iff_ne]
  constructor
  · rintro (⟨hne, -⟩ | ⟨hne, -⟩ | ⟨-, hshort⟩ | ⟨-, hback, hne⟩)
    · exact absurd rfl hne
    · exact absurd rfl hne
    · exact .inl ⟨hshort, rfl⟩
    · exact .inr ⟨_, hback, hne, rfl⟩
  · rintro (⟨hshort, rfl⟩ | ⟨back, hback, hne, rfl⟩)
    · exact .truncated rfl hshort
    · exact .brokenLink rfl hback hne

theorem linkBroken_zero_iff (hne : node ≠ head) :
    a.LinkBroken c head 0 prior node v ↔ ⟨head, .freeListCycle⟩ = v := by
  constructor
  · rintro (⟨-, -⟩ | ⟨-, hroom, -⟩ | ⟨heq, -⟩ | ⟨heq, -⟩)
    · rfl
    · exact absurd hroom (Nat.lt_irrefl 0)
    · exact absurd heq hne
    · exact absurd heq hne
  · rintro rfl
    exact .cycle hne rfl

theorem linkBroken_succ_iff (hne : node ≠ head) :
    a.LinkBroken c head (room + 1) prior node v ↔ a.NodeBroken c prior node v := by
  constructor
  · rintro (⟨-, hroom⟩ | ⟨-, -, hbroken⟩ | ⟨heq, -⟩ | ⟨heq, -⟩)
    · exact absurd hroom (Nat.succ_ne_zero room)
    · exact hbroken
    · exact absurd heq hne
    · exact absurd heq hne
  · exact fun hbroken => .node hne (Nat.succ_pos room) hbroken

theorem trailBroken_zero_iff (hnode : a.memory.nextLink prior = .ok node) :
    a.TrailBroken c head 0 prior v ↔ a.LinkBroken c head 0 prior node v := by
  constructor
  · rintro ⟨nodes, last, next, htrail, hnext, hlen, hbroken⟩
    obtain rfl := List.length_eq_zero_iff.mp (Nat.le_zero.mp hlen)
    obtain rfl : prior = last := htrail
    cases hnode.symm.trans hnext
    exact hbroken
  · exact fun hbroken => ⟨[], prior, node, rfl, hnode, Nat.le_refl 0, hbroken⟩

/-- The broken link is the first one, or comes after a node that passes its checks. -/
theorem trailBroken_succ_iff (hnode : a.memory.nextLink prior = .ok node) :
    a.TrailBroken c head (room + 1) prior v ↔ a.LinkBroken c head (room + 1) prior node v ∨
      node ≠ head ∧ a.Sound c prior node ∧ a.TrailBroken c head room node v := by
  constructor
  · rintro ⟨nodes, last, next, htrail, hnext, hlen, hbroken⟩
    cases nodes with
    | nil =>
      obtain rfl : prior = last := htrail
      cases hnode.symm.trans hnext
      exact .inl hbroken
    | cons u us =>
      obtain ⟨hu, hne, hsound, htrail⟩ := htrail
      cases hnode.symm.trans hu
      rw [List.length_cons, Nat.add_sub_add_right] at hbroken
      exact .inr ⟨hne, hsound, us, last, next, htrail, hnext, Nat.le_of_succ_le_succ hlen, hbroken⟩
  · rintro (hbroken | ⟨hne, hsound, us, last, next, htrail, hnext, hlen, hbroken⟩)
    · exact ⟨[], prior, node, rfl, hnode, Nat.zero_le _, hbroken⟩
    · refine ⟨node :: us, last, next, ⟨hnode, hne, hsound, htrail⟩, hnext,
        Nat.succ_le_succ hlen, ?_⟩
      rwa [List.length_cons, Nat.add_sub_add_right]

/-- A node that passes its checks has a next link, since the prior link lies behind it. -/
theorem Sound.exists_next (hsound : a.Sound c prior node) (ha : a.Fits) :
    ∃ next, a.memory.nextLink node = .ok next := by
  obtain ⟨hnode, hback⟩ := sound_iff.mp hsound
  have hlt := hnode.lt_limit ha
  rw [Memory.priorLink_eq hlt] at hback
  have hle := (Memory.readWord_eq_ok_iff.mp hback).1
  simp only [Memory.nextLink_eq (show node + 8 < Word.limit by omega), Memory.readWord_eq_ok_iff]
  exact ⟨_, by omega, rfl⟩

theorem countList_eq_violation_iff (ha : a.Fits) (hhead : head + 16 < Word.limit)
    (hnode : a.memory.nextLink prior = .ok node) :
    a.countList c head room prior node = .error (.violation v) ↔
      a.TrailBroken c head room prior v := by
  induction room generalizing prior node with
  | zero =>
    rw [trailBroken_zero_iff hnode]
    unfold countList
    by_cases hne : node = head
    · subst hne
      simp only [if_true, bind_eq_error_iff, pure_eq_error_iff, and_false, exists_false, or_false,
        linkBroken_head_iff hhead]
    · rw [if_neg hne, linkBroken_zero_iff hne, violated_eq_violation_iff]
  | succ room ih =>
    rw [trailBroken_succ_iff hnode]
    unfold countList
    by_cases hne : node = head
    · subst hne
      simp only [if_true, bind_eq_error_iff, pure_eq_error_iff, and_false, exists_false, or_false,
        linkBroken_head_iff hhead, ne_eq, not_true_eq_false, false_and]
    · rw [if_neg hne, linkBroken_succ_iff hne, and_iff_right hne, bind_eq_error_iff,
        checkNode_eq_violation_iff ha, exists_unit_iff, checkNode_eq_ok_iff]
      refine or_congr_right (and_congr_right fun hsound => ?_)
      obtain ⟨next, hnext⟩ := hsound.exists_next ha
      rw [nextLink_eq_ok_iff.mpr hnext, ok_bind, bind_eq_error_iff]
      simp only [pure_eq_error_iff, and_false, exists_false, or_false]
      exact ih hnext

/-! ## All lists -/

/-- What is wrong with the list of a class: its head has no links, or a link is broken. -/
inductive ListBroken (a : Audit) (c : Nat) : Violation → Prop
  | truncated (hshort : a.memory.size < a.index.headAt c + 16) :
    ListBroken a c ⟨a.index.headAt c + 8, .truncated⟩
  | link {v : Violation}
      (hbroken : a.TrailBroken c (a.index.headAt c) (a.maxBlocks + 1) (a.index.headAt c) v) :
    ListBroken a c v

theorem countClass_eq_violation_iff (ha : a.Fits) (hc : c < a.index.size) :
    a.countClass c = .error (.violation v) ↔ a.ListBroken c v := by
  obtain ⟨hhead, hlt⟩ := ha.head_eq hc
  simp only [countClass, bind_eq_error_iff, lift_eq_violation_iff, lift_eq_ok_iff, hhead,
    Except.ok.injEq, exists_eq_left', false_or, nextLink_eq_ok_iff,
    nextLink_eq_violation_iff (show a.index.headAt c + 8 < Word.limit by omega)]
  constructor
  · rintro (⟨hshort, rfl⟩ | ⟨first, hfirst, hcount⟩)
    · exact .truncated hshort
    · exact .link ((countList_eq_violation_iff ha hlt hfirst).mp hcount)
  · rintro (hshort | hbroken)
    · exact .inl ⟨hshort, rfl⟩
    · obtain ⟨first, hfirst⟩ := hbroken.exists_first
      exact .inr ⟨first, hfirst, (countList_eq_violation_iff ha hlt hfirst).mpr hbroken⟩

/-- Counts are added up until one is not answered. -/
theorem foldlM_count_eq_error_iff {f : Nat → Except Finding Nat} {k : Nat} {e : Finding} :
    (List.range n).foldlM (fun n c => return n + (← f c)) k = .error e ↔
      ∃ c < n, (∀ d < c, f d = .ok (countOf (f d))) ∧ f c = .error e := by
  induction n with
  | zero => simp [pure, Except.pure]
  | succ n ih =>
    simp only [List.range_succ, List.foldlM_append, bind_eq_error_iff, ih, foldlM_count_eq_ok_iff,
      List.mem_range, List.foldlM_cons, List.foldlM_nil, pure_eq_error_iff, and_false,
      exists_false, or_false]
    constructor
    · rintro (⟨c, hc, hcs⟩ | ⟨s, ⟨hall, -⟩, he⟩)
      · exact ⟨c, Nat.lt_succ_of_lt hc, hcs⟩
      · exact ⟨n, Nat.lt_succ_self n, hall, he⟩
    · rintro ⟨c, hc, hall, he⟩
      rcases Nat.lt_succ_iff_lt_or_eq.mp hc with hc | rfl
      · exact .inl ⟨c, hc, hall, he⟩
      · exact .inr ⟨_, ⟨hall, rfl⟩, he⟩

/-- The lists of the classes before pass their checks. -/
theorem countListed_eq_violation_iff (ha : a.Fits) : a.countListed = .error (.violation v) ↔
    ∃ c < a.index.size, (∀ d < c, ∃ nodes, a.Lists d nodes) ∧ a.ListBroken c v := by
  rw [countListed, foldlM_count_eq_error_iff]
  refine exists_congr fun c => and_congr_right fun hc => ?_
  rw [countClass_eq_violation_iff ha hc]
  refine and_congr_left fun _ => forall₂_congr fun d _ => ?_
  rw [countClass_eq_ok_iff]
  constructor
  · rintro ⟨nodes, hnodes, -⟩
    exact ⟨nodes, hnodes⟩
  · rintro ⟨nodes, hnodes⟩
    refine ⟨nodes, hnodes, ?_⟩
    rw [countClass_eq_ok_iff.mpr ⟨nodes, hnodes, rfl⟩]
    rfl

end BoundaryTag.Audit
