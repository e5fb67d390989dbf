import Mathlib.Algebra.GroupWithZero.Nat
import Mathlib.Tactic.Choose
import BoundaryTag.Audit
import BoundaryTag.Layout.Lemmas

set_option autoImplicit false

/-! # What the audit of the lists accepts

The audit reads what the memory holds (`word_eq_ok_iff` and the lemmas after it) and follows the
links of each list. `a.Course c head prior cursor nodes` says that following them from `cursor`,
after `prior`, meets the nodes and then the head, and that each node passes its checks.
`countListed_eq_ok_iff` puts the lists of all classes together: the audit counts `n` nodes exactly
if there are such courses for all classes, none longer than allowed, with `n` nodes in all. -/

namespace BoundaryTag.Audit

variable {a : Audit} {c head prior cursor node room n o w : Nat} {t : Tag} {nodes : List Nat}

/-! ## What the audit reads -/

theorem lift_eq_ok_iff {α : Type} {x : Except Fault α} {v : α} :
    (liftM x : Except Finding α) = .ok v ↔ x = .ok v := by
  cases x with
  | ok a =>
    show (.ok a : Except Finding α) = .ok v ↔ _
    simp
  | error f => exact ⟨nofun, nofun⟩

theorem word_eq_ok_iff : a.word o = .ok w ↔ a.memory.readWord o = .ok w := by
  unfold word Memory.readWord
  cases a.memory.word? o <;> simp [violated]

theorem tag_eq_ok_iff : a.tag o = .ok t ↔ a.memory.tagAt o = .ok t := by
  simp only [tag, Memory.tagAt, bind_eq_ok_iff, pure_eq_ok_iff, word_eq_ok_iff]

theorem nextLink_eq_ok_iff : a.nextLink o = .ok w ↔ a.memory.nextLink o = .ok w := by
  simp only [nextLink, Memory.nextLink, bind_eq_ok_iff, lift_eq_ok_iff, word_eq_ok_iff]

theorem priorLink_eq_ok_iff : a.priorLink o = .ok w ↔ a.memory.priorLink o = .ok w := by
  simp only [priorLink, Memory.priorLink, bind_eq_ok_iff, lift_eq_ok_iff, word_eq_ok_iff]

theorem inHeap_eq_true_iff :
    a.inHeap o = true ↔ a.start ≤ o ∧ o < a.epilogue ∧ o % 8 = 0 := by
  simp [inHeap, Block.alignment, and_assoc]

/-! ## Nodes -/

/-- A node that passes its checks: a free block could be there, it links back to the node before,
    and its size belongs to the class. -/
structure Sound (a : Audit) (c prior node : Nat) : Prop where
  start_le : a.start ≤ node
  lt_epilogue : node < a.epilogue
  mod_eq : node % 8 = 0
  prior_eq : a.memory.priorLink node = .ok prior
  tag_eq : ∃ t, a.memory.tagAt node = .ok t ∧ t.allocated = false ∧ a.index.classify t.size = c

theorem checkNode_eq_ok_iff : a.checkNode c prior node = .ok () ↔ a.Sound c prior node := by
  simp only [checkNode, bind_eq_ok_iff, exists_unit_iff, require_eq_ok_iff, inHeap_eq_true_iff,
    tag_eq_ok_iff, priorLink_eq_ok_iff, Bool.not_eq_true', beq_iff_eq]
  constructor
  · rintro ⟨⟨hstart, hlt, hmod⟩, t, ht, hfree, back, hback, rfl, hclass⟩
    exact ⟨hstart, hlt, hmod, hback, t, ht, hfree, hclass⟩
  · rintro ⟨hstart, hlt, hmod, hback, t, ht, hfree, hclass⟩
    exact ⟨⟨hstart, hlt, hmod⟩, t, ht, hfree, prior, hback, rfl, hclass⟩

theorem checkReturn_eq_ok_iff :
    a.checkReturn head prior = .ok () ↔ a.memory.priorLink head = .ok prior := by
  simp only [checkReturn, bind_eq_ok_iff, require_eq_ok_iff, priorLink_eq_ok_iff, beq_iff_eq]
  constructor
  · rintro ⟨back, hback, rfl⟩
    exact hback
  · exact fun h => ⟨prior, h, rfl⟩

/-! ## One list -/

/-- Following the links from `cursor` on meets the nodes, each of which passes its checks, and then
    the head, which links back to the last of them. -/
def Course (a : Audit) (c head : Nat) : Nat → Nat → List Nat → Prop
  | prior, cursor, [] => cursor = head ∧ a.memory.priorLink head = .ok prior
  | prior, cursor, u :: us => cursor = u ∧ u ≠ head ∧ a.Sound c prior u ∧
      ∃ next, a.memory.nextLink u = .ok next ∧ Course a c head u next us

theorem countList_eq_ok_iff : a.countList c head room prior cursor = .ok n ↔
    ∃ nodes, a.Course c head prior cursor nodes ∧ nodes.length = n ∧ n ≤ room := by
  induction room generalizing prior cursor n with
  | zero =>
    unfold countList
    by_cases hc : cursor = head
    · simp only [if_pos hc, bind_eq_ok_iff, exists_unit_iff, pure_eq_ok_iff, checkReturn_eq_ok_iff]
      constructor
      · rintro ⟨hback, rfl⟩
        exact ⟨[], ⟨hc, hback⟩, rfl, Nat.le_refl 0⟩
      · rintro ⟨nodes, hcourse, rfl, hle⟩
        obtain rfl := List.length_eq_zero_iff.mp (Nat.le_zero.mp hle)
        exact ⟨hcourse.2, rfl⟩
    · simp only [if_neg hc, violated, reduceCtorEq, false_iff]
      rintro ⟨nodes, hcourse, rfl, hle⟩
      obtain rfl := List.length_eq_zero_iff.mp (Nat.le_zero.mp hle)
      exact hc hcourse.1
  | succ room ih =>
    unfold countList
    by_cases hc : cursor = head
    · simp only [if_pos hc, bind_eq_ok_iff, exists_unit_iff, pure_eq_ok_iff, checkReturn_eq_ok_iff]
      constructor
      · rintro ⟨hback, rfl⟩
        exact ⟨[], ⟨hc, hback⟩, rfl, Nat.zero_le _⟩
      · rintro ⟨nodes, hcourse, rfl, -⟩
        cases nodes with
        | nil => exact ⟨hcourse.2, rfl⟩
        | cons u us => exact absurd (hcourse.1.symm.trans hc) hcourse.2.1
    · simp only [if_neg hc, bind_eq_ok_iff, exists_unit_iff, pure_eq_ok_iff,
        checkNode_eq_ok_iff, nextLink_eq_ok_iff, ih]
      constructor
      · rintro ⟨hsound, next, hnext, k, ⟨nodes, hcourse, hlen, hle⟩, rfl⟩
        refine ⟨cursor :: nodes, ⟨rfl, hc, hsound, next, hnext, hcourse⟩, ?_, ?_⟩
        · rw [List.length_cons, hlen]
        · exact Nat.succ_le_succ hle
      · rintro ⟨nodes, hcourse, rfl, hle⟩
        cases nodes with
        | nil => exact absurd hcourse.1 hc
        | cons u us =>
          obtain ⟨rfl, -, hsound, next, hnext, hrest⟩ := hcourse
          exact ⟨hsound, next, hnext, us.length, ⟨us, hrest, rfl, Nat.le_of_succ_le_succ hle⟩, rfl⟩

/-! ## All lists -/

/-- The list of the class, followed from its head, is a course of these nodes. -/
def Lists (a : Audit) (c : Nat) (nodes : List Nat) : Prop :=
  ∃ head first, a.index.head c = .ok head ∧ a.memory.nextLink head = .ok first ∧
    a.Course c head head first nodes ∧ nodes.length ≤ a.maxBlocks + 1

theorem countClass_eq_ok_iff :
    a.countClass c = .ok n ↔ ∃ nodes, a.Lists c nodes ∧ nodes.length = n := by
  simp only [countClass, bind_eq_ok_iff, lift_eq_ok_iff, nextLink_eq_ok_iff, countList_eq_ok_iff]
  constructor
  · rintro ⟨head, hhead, first, hfirst, nodes, hcourse, rfl, hle⟩
    exact ⟨nodes, ⟨head, first, hhead, hfirst, hcourse, hle⟩, rfl⟩
  · rintro ⟨nodes, ⟨head, first, hhead, hfirst, hcourse, hle⟩, rfl⟩
    exact ⟨head, hhead, first, hfirst, nodes, hcourse, rfl, hle⟩

/-- The count that a check answers; zero if it finds something. -/
def countOf (x : Except Finding Nat) : Nat :=
  match x with
  | .ok n => n
  | .error _ => 0

theorem foldlM_count_eq_ok_iff {f : Nat → Except Finding Nat} {cs : List Nat} {k : Nat} :
    cs.foldlM (fun n c => return n + (← f c)) k = .ok n ↔
      (∀ c ∈ cs, f c = .ok (countOf (f c))) ∧ n = k + (cs.map fun c => countOf (f c)).sum := by
  induction cs generalizing k n with
  | nil =>
    simp only [List.foldlM_nil, pure_eq_ok_iff, List.not_mem_nil, false_imp_iff, implies_true,
      List.map_nil, List.sum_nil, Nat.add_zero, true_and]
    exact eq_comm
  | cons c cs ih =>
    simp only [List.foldlM_cons, bind_eq_ok_iff, pure_eq_ok_iff, ih, List.forall_mem_cons,
      List.map_cons, List.sum_cons]
    cases hc : f c with
    | error e => simp [countOf]
    | ok v => simp [countOf, Nat.add_assoc]

/-- The audit accepts the lists exactly if each class has a course, and counts their nodes. -/
theorem countListed_eq_ok_iff : a.countListed = .ok n ↔
    ∃ lists : Nat → List Nat, (∀ c < a.index.size, a.Lists c (lists c)) ∧
      n = ((List.range a.index.size).map fun c => (lists c).length).sum := by
  rw [countListed, foldlM_count_eq_ok_iff]
  simp only [List.mem_range, countClass_eq_ok_iff, Nat.zero_add]
  constructor
  · rintro ⟨hall, rfl⟩
    have hall' : ∀ c, ∃ nodes, c < a.index.size →
        a.Lists c nodes ∧ nodes.length = countOf (a.countClass c) := by
      intro c
      by_cases hc : c < a.index.size
      · obtain ⟨nodes, hnodes⟩ := hall c hc
        exact ⟨nodes, fun _ => hnodes⟩
      · exact ⟨[], fun h => absurd h hc⟩
    choose lists hlists using hall'
    refine ⟨lists, fun c hc => (hlists c hc).1, congrArg List.sum ?_⟩
    exact List.map_congr_left fun c hc => ((hlists c (List.mem_range.mp hc)).2).symm
  · rintro ⟨lists, hlists, rfl⟩
    have hcount : ∀ c < a.index.size, (lists c).length = countOf (a.countClass c) := fun c hc => by
      rw [countClass_eq_ok_iff.mpr ⟨lists c, hlists c hc, rfl⟩]
      rfl
    refine ⟨fun c hc => ⟨lists c, hlists c hc, hcount c hc⟩, congrArg List.sum ?_⟩
    exact List.map_congr_left fun c hc => hcount c (List.mem_range.mp hc)

end BoundaryTag.Audit
