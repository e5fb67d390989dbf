import Mathlib.Data.List.Perm.Subperm
import BoundaryTag.Proofs.Audit.Blocks
import BoundaryTag.Proofs.FreeIndex.Search

set_option autoImplicit false

/-! # What an accepted index holds

The lists that an audit accepts never visit a node twice, be it on one list or on two
(`nodup_listed`): a node tells which one is before it, and its size tells its class. So following
the lists ends (`Lists.members_eq`), and with as many nodes as there are free blocks, the nodes that
are no free blocks are as many as the free blocks that are on no list (`length_filter_not_mem`). -/

open BoundaryTag.Span (total layout tags)

namespace BoundaryTag

/-- The nodes of the lists of all classes. -/
def FreeIndex.listed (x : FreeIndex) (lists : Nat → List Nat) : List Nat :=
  (List.range x.size).flatMap lists

/-- Where free blocks start. -/
def Block.frees (bs : List Block) : List Nat :=
  (bs.filter fun b => !b.tag.allocated).map Block.offset

theorem FreeIndex.mem_listed {x : FreeIndex} {lists : Nat → List Nat} {u : Nat} :
    u ∈ x.listed lists ↔ ∃ c < x.size, u ∈ lists c := by
  simp [listed]

theorem Block.mem_frees {bs : List Block} {u : Nat} :
    u ∈ frees bs ↔ ∃ b ∈ bs, b.tag.allocated = false ∧ b.offset = u := by
  simp [frees, and_assoc]

/-! ## Lists without repetition -/

/-- Of two lists without repetition and of one length, as many elements of the first are missing
    from the second as the other way round. -/
theorem length_filter_not_mem {xs ys : List Nat} (hxs : xs.Nodup) (hys : ys.Nodup)
    (hlen : xs.length = ys.length) :
    (xs.filter (· ∉ ys)).length = (ys.filter (· ∉ xs)).length := by
  have hcommon : (xs.filter (· ∈ ys)).Perm (ys.filter (· ∈ xs)) := by
    rw [List.perm_ext_iff_of_nodup (hxs.filter _) (hys.filter _)]
    intro u
    simp only [List.mem_filter, decide_eq_true_eq]
    exact and_comm
  have hx := xs.length_eq_length_filter_add (fun u => decide (u ∈ ys))
  have hy := ys.length_eq_length_filter_add (fun u => decide (u ∈ xs))
  have hc := hcommon.length_eq
  simp only [decide_not]
  omega

namespace Audit

variable {a : Audit} {c head prior cursor u : Nat} {nodes : List Nat} {lists : Nat → List Nat}
  {ss : List Span}

/-! ## The nodes of a course -/

theorem Course.head_not_mem (h : a.Course c head prior cursor nodes) : head ∉ nodes := by
  induction nodes generalizing prior cursor with
  | nil => exact List.not_mem_nil
  | cons u us ih =>
    obtain ⟨-, hne, -, next, -, hrest⟩ := h
    rw [List.mem_cons, not_or]
    exact ⟨Ne.symm hne, ih hrest⟩

theorem Course.exists_sound (h : a.Course c head prior cursor nodes) (hu : u ∈ nodes) :
    ∃ p, a.Sound c p u := by
  induction nodes generalizing prior cursor with
  | nil => simp at hu
  | cons v us ih =>
    obtain ⟨-, -, hsound, next, -, hrest⟩ := h
    rcases List.mem_cons.mp hu with rfl | hu
    · exact ⟨prior, hsound⟩
    · exact ih hrest hu

/-- The next links lead along a course and to the head. -/
theorem Course.isChain_next (h : a.Course c head prior cursor nodes) :
    (nodes ++ [head]).head? = some cursor ∧
      (nodes ++ [head]).IsChain fun u v => a.memory.nextLink u = .ok v := by
  induction nodes generalizing prior cursor with
  | nil => exact ⟨by simp [h.1], List.isChain_singleton _⟩
  | cons u us ih =>
    obtain ⟨rfl, -, -, next, hnext, hrest⟩ := h
    obtain ⟨hhead, hchain⟩ := ih hrest
    refine ⟨rfl, ?_⟩
    rw [List.cons_append, List.isChain_cons]
    refine ⟨fun v hv => ?_, hchain⟩
    rw [Option.mem_def, hhead, Option.some.injEq] at hv
    rw [← hv]
    exact hnext

namespace Lists

theorem circular (h : a.Lists c nodes) : a.index.Circular a.memory c nodes := by
  obtain ⟨head, first, hhead, hfirst, hcourse, -⟩ := h
  obtain ⟨rfl, -⟩ := FreeIndex.head_eq_ok_iff.mp hhead
  obtain ⟨hnodes, hchain⟩ := hcourse.isChain_next
  refine ⟨hhead, hcourse.head_not_mem, ?_⟩
  rw [List.cons_append, List.isChain_cons]
  refine ⟨fun v hv => ?_, hchain⟩
  cases hnodes.symm.trans hv
  exact hfirst

theorem nodup (h : a.Lists c nodes) : nodes.Nodup :=
  h.circular.nodup

theorem exists_sound (h : a.Lists c nodes) (hu : u ∈ nodes) : ∃ p, a.Sound c p u := by
  obtain ⟨head, first, -, -, hcourse, -⟩ := h
  exact hcourse.exists_sound hu

/-- Following an accepted list ends. -/
theorem members_eq (h : a.Lists c nodes) : a.index.members a.memory c = .ok nodes :=
  h.circular.members_eq

end Lists

/-- No node is on two accepted lists, since its size belongs to one class. -/
theorem nodup_listed (h : ∀ c < a.index.size, a.Lists c (lists c)) :
    (a.index.listed lists).Nodup := by
  rw [FreeIndex.listed, List.nodup_flatMap]
  refine ⟨fun c hc => (h c (List.mem_range.mp hc)).nodup, ?_⟩
  refine List.nodup_range.pairwise_of_forall_ne fun c hc d hd hne => ?_
  rw [List.mem_range] at hc hd
  refine List.disjoint_left.mpr fun u hu hu' => hne ?_
  obtain ⟨_, hsound⟩ := (h c hc).exists_sound hu
  obtain ⟨_, hsound'⟩ := (h d hd).exists_sound hu'
  obtain ⟨t, ht, -, hclass⟩ := hsound.tag_eq
  obtain ⟨t', ht', -, hclass'⟩ := hsound'.tag_eq
  rw [ht] at ht'
  cases ht'
  rw [← hclass, ← hclass']

end Audit

end BoundaryTag
