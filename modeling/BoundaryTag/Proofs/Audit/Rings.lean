import BoundaryTag.Proofs.Audit.Lists
import BoundaryTag.Proofs.FreeIndex.Threaded

set_option autoImplicit false

/-! # Lists that the audit accepts are rings

The audit follows the next links and, node by node, compares the prior link with where it came from.
So the nodes that it accepts are a ring, and the other way round: a ring of free headers passes, if
it is not too long (`lists_iff`). -/

namespace BoundaryTag.Audit

variable {a : Audit} {c head prior u : Nat} {nodes : List Nat}

/-- A free header of the class could be at this offset. -/
structure Node (a : Audit) (c u : Nat) : Prop where
  mod_eq : u % 8 = 0
  start_le : a.start ≤ u
  lt_epilogue : u < a.epilogue
  tag_eq : ∃ t, a.memory.tagAt u = .ok t ∧ t.allocated = false ∧ a.index.classify t.size = c

/-- What an audit needs in order that no sum of offsets passes a word: the heads lie below the
    blocks, and whatever lies inside the heap can be told by a word. -/
structure Fits (a : Audit) : Prop where
  heads_le : a.index.base + a.index.size * 24 ≤ a.start
  start_lt : a.start < Word.limit
  size_le : a.memory.size + 8 ≤ Word.limit

theorem Fits.size_lt (ha : a.Fits) : a.memory.size < Word.limit := by
  have := ha.size_le
  omega

/-- The head of a class is a word, and so are the places of its links. -/
theorem Fits.head_eq (ha : a.Fits) (hc : c < a.index.size) :
    a.index.head c = .ok (a.index.headAt c) ∧ a.index.headAt c + 16 < Word.limit := by
  have hle := ha.heads_le
  have hlt := ha.start_lt
  have heq : a.index.headAt c = a.index.base + c * 24 := rfl
  exact ⟨FreeIndex.head_eq_ok_iff.mpr ⟨rfl, by omega⟩, by omega⟩

theorem Node.lt_limit (hu : a.Node c u) (ha : a.Fits) : u + 16 < Word.limit := by
  have hepilogue : a.epilogue = a.memory.size - 8 := rfl
  have := hu.lt_epilogue
  have := hu.mod_eq
  have := ha.size_le
  omega

theorem sound_iff : a.Sound c prior u ↔ a.Node c u ∧ a.memory.priorLink u = .ok prior :=
  ⟨fun h => ⟨⟨h.mod_eq, h.start_le, h.lt_epilogue, h.tag_eq⟩, h.prior_eq⟩,
    fun ⟨h, hprior⟩ => ⟨h.start_le, h.lt_epilogue, h.mod_eq, hprior, h.tag_eq⟩⟩

/-- A course is a chain of nodes that are linked both ways, up to the head. -/
theorem exists_course_iff (ha : a.Fits) (hhead : head < a.start)
    (hhead' : head + 16 < Word.limit) (hprior : prior + 16 < Word.limit) :
    (∃ cursor, a.memory.nextLink prior = .ok cursor ∧ a.Course c head prior cursor nodes) ↔
      (prior :: nodes ++ [head]).IsChain a.memory.Linked ∧ ∀ u ∈ nodes, a.Node c u := by
  induction nodes generalizing prior with
  | nil =>
    simp only [Course, Memory.nextLink_eq (show prior + 8 < Word.limit by omega),
      Memory.priorLink_eq hhead', List.cons_append, List.nil_append, List.isChain_cons_cons,
      List.isChain_singleton, and_true, Memory.Linked, List.not_mem_nil, false_imp_iff,
      implies_true]
    constructor
    · rintro ⟨cursor, hnext, rfl, hback⟩
      exact ⟨hnext, hback⟩
    · rintro ⟨hnext, hback⟩
      exact ⟨head, hnext, rfl, hback⟩
  | cons u us ih =>
    simp only [Course, sound_iff, List.cons_append, List.isChain_cons_cons, List.forall_mem_cons,
      Memory.Linked, Memory.nextLink_eq (show prior + 8 < Word.limit by omega)]
    constructor
    · rintro ⟨cursor, hnext, rfl, -, ⟨hu, hback⟩, hrest⟩
      have hlt := hu.lt_limit ha
      rw [Memory.priorLink_eq hlt] at hback
      obtain ⟨hchain, hus⟩ := (ih hlt).mp hrest
      exact ⟨⟨⟨hnext, hback⟩, hchain⟩, hu, hus⟩
    · rintro ⟨⟨⟨hnext, hback⟩, hchain⟩, hu, hus⟩
      have hlt := hu.lt_limit ha
      have hne : u ≠ head := Nat.ne_of_gt (Nat.lt_of_lt_of_le hhead hu.start_le)
      rw [← Memory.priorLink_eq hlt] at hback
      exact ⟨u, hnext, rfl, hne, ⟨hu, hback⟩, (ih hlt).mpr ⟨hchain, hus⟩⟩

theorem lists_iff (ha : a.Fits) (hc : c < a.index.size) :
    a.Lists c nodes ↔ a.memory.Ring (a.index.headAt c) nodes ∧ (∀ u ∈ nodes, a.Node c u) ∧
      nodes.length ≤ a.maxBlocks + 1 := by
  have hle := ha.heads_le
  have heq : a.index.headAt c = a.index.base + c * 24 := rfl
  obtain ⟨hhead, hlt⟩ := ha.head_eq hc
  have hcourse : (∃ first, a.memory.nextLink (a.index.headAt c) = .ok first ∧
      a.Course c (a.index.headAt c) (a.index.headAt c) first nodes) ↔
        a.memory.Ring (a.index.headAt c) nodes ∧ ∀ u ∈ nodes, a.Node c u :=
    exists_course_iff ha (by omega) (by omega) (by omega)
  rw [Lists]
  constructor
  · rintro ⟨head, first, hhead', hfirst, hnodes, hlen⟩
    cases hhead.symm.trans hhead'
    obtain ⟨hring, hall⟩ := hcourse.mp ⟨first, hfirst, hnodes⟩
    exact ⟨hring, hall, hlen⟩
  · rintro ⟨hring, hall, hlen⟩
    obtain ⟨first, hfirst, hnodes⟩ := hcourse.mpr ⟨hring, hall⟩
    exact ⟨_, first, hhead, hfirst, hnodes, hlen⟩

end BoundaryTag.Audit
