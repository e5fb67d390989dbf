import BoundaryTag.Proofs.FreeIndex.Search
import BoundaryTag.Proofs.Session.Effect

set_option autoImplicit false

/-! # The search of an index is complete

The search of an index starts at the class of the least size that will do, and still it finds a
block whenever some list has one that is large enough: a class below holds only smaller blocks
(`Filed.lt_of_lower_class`). What it finds is in the lowest class that has such a block, and the
first such block on the list of that class (`Filed.firstFit_complete`). This needs no more of the
memory than lists that lead back to their heads, of blocks whose sizes belong to the class; the index
of a heap that realizes a plan is of this kind (`Heap.Realizes.filed`). -/

namespace BoundaryTag

namespace FreeIndex

variable {x : FreeIndex} {m : Memory} {lists : Nat → List Nat} {sizeOf : Nat → Nat}
  {b c u minSize : Nat}

/-- The memory holds the list of each class, and the blocks on it have sizes of the class. -/
structure Filed (x : FreeIndex) (m : Memory) (lists : Nat → List Nat) (sizeOf : Nat → Nat) :
    Prop where
  circular : ∀ c < x.size, x.Circular m c (lists c)
  size_eq : ∀ c < x.size, ∀ u ∈ lists c, m.sizeAt u = .ok (sizeOf u)
  class_eq : ∀ c < x.size, ∀ u ∈ lists c, x.classify (sizeOf u) = c

/-- A block that is large enough, in the lowest class that has one and before all others of it. -/
structure IsFirstFit (x : FreeIndex) (lists : Nat → List Nat) (sizeOf : Nat → Nat)
    (minSize b : Nat) : Prop where
  large : minSize ≤ sizeOf b
  first : ∃ before after, lists (x.classify (sizeOf b)) = before ++ b :: after ∧
    ∀ u ∈ before, sizeOf u < minSize
  lowest : ∀ c < x.classify (sizeOf b), ∀ u ∈ lists c, sizeOf u < minSize

namespace Filed

/-- A class below that of a size holds smaller blocks only. -/
theorem lt_of_lower_class (h : x.Filed m lists sizeOf) (hc : c < x.classify minSize)
    (hu : u ∈ lists c) : sizeOf u < minSize := by
  have hclass := h.class_eq c (hc.trans (x.classify_lt_size minSize)) u hu
  by_contra hle
  have hmono : x.classify minSize ≤ x.classify (sizeOf u) :=
    x.classes.classify_mono (Nat.not_lt.mp hle)
  omega

/-- A block that is large enough is in a class that is searched. -/
theorem mem_searched (h : x.Filed m lists sizeOf) (hc : c < x.size) (hu : u ∈ lists c)
    (hle : minSize ≤ sizeOf u) :
    c ∈ List.range' (x.classify minSize) (x.size - x.classify minSize) := by
  have hlow : ¬ c < x.classify minSize := fun hlt =>
    absurd (h.lt_of_lower_class hlt hu) (Nat.not_lt.mpr hle)
  rw [List.mem_range'_1]
  omega

theorem firstOf_eq_none_iff (h : x.Filed m lists sizeOf) :
    x.firstOf lists sizeOf minSize = none ↔ ∀ c < x.size, ∀ u ∈ lists c, sizeOf u < minSize := by
  simp only [firstOf, List.findSome?_eq_none_iff, List.find?_eq_none, decide_eq_true_eq, Nat.not_le]
  constructor
  · intro hnone c hc u hu
    by_contra hle
    have hsearched := h.mem_searched hc hu (Nat.not_lt.mp hle)
    exact hle (hnone c hsearched u hu)
  · intro hall c hc u hu
    rw [List.mem_range'_1] at hc
    exact hall c (by omega) u hu

/-- Before the class of the block that is found no class has one that is large enough, be it a class
    that was searched or one below those. -/
theorem isFirstFit_of_firstOf (h : x.Filed m lists sizeOf)
    (hb : x.firstOf lists sizeOf minSize = some b) : x.IsFirstFit lists sizeOf minSize b := by
  obtain ⟨lower, c, higher, hrange, hfound, hnone⟩ := List.findSome?_eq_some_iff.mp hb
  obtain ⟨hle, before, after, hlist, hbefore⟩ := List.find?_eq_some_iff_append.mp hfound
  obtain ⟨k, hk, hlower, hrest⟩ := List.range'_eq_append_iff.mp hrange
  obtain ⟨hc, hpos, -⟩ := List.range'_eq_cons_iff.mp hrest.symm
  rw [Nat.mul_one] at hc
  have hclass : x.classify (sizeOf b) = c := h.class_eq c (by omega) b (by simp [hlist])
  refine ⟨of_decide_eq_true hle, ⟨before, after, hclass ▸ hlist, ?_⟩, ?_⟩
  · intro u hu
    simpa using hbefore u hu
  · intro d hd u hu
    rw [hclass] at hd
    by_cases hlow : d < x.classify minSize
    · exact h.lt_of_lower_class hlow hu
    · have hsearched : d ∈ lower := by
        rw [hlower, List.mem_range'_1]
        omega
      have hall := List.find?_eq_none.mp (hnone d hsearched) u hu
      simpa using hall

end Filed

end FreeIndex

/-- The lists of a plan hold the blocks of each class. -/
theorem Heap.Realizes.filed {h : Heap} {P : Plan} (hr : h.Realizes P) :
    h.index.Filed h.memory P.lists (Span.sizeFrom h.start P.spans) where
  circular _ hc := hr.charted.threaded.circular hc
  size_eq _ hc _ hu := hr.sizeAt_listed hc hu
  class_eq c hc u hu := by
    obtain ⟨k, hk, hclass⟩ := (hr.mem_lists_iff hc).mp hu
    rw [Span.sizeFrom_place hr.proper hk, hclass]

namespace FreeIndex.Filed

variable {x : FreeIndex} {m : Memory} {lists : Nat → List Nat} {sizeOf : Nat → Nat}

/-- On lists that lead back to their heads, of blocks whose sizes belong to the class, the search has
    an answer. It finds a block exactly if some list has one that is large enough; what it finds is
    large enough, no class below has such a block, and none stands before it on its own list. -/
theorem firstFit_complete (h : x.Filed m lists sizeOf) (minSize : Nat) :
    ∃ found, x.firstFit m minSize = .ok found ∧
      (found.isSome ↔ ∃ c < x.size, ∃ u ∈ lists c, minSize ≤ sizeOf u) ∧
      ∀ b, found = some b → x.IsFirstFit lists sizeOf minSize b := by
  refine ⟨x.firstOf lists sizeOf minSize, firstFit_eq h.circular h.size_eq, ?_, ?_⟩
  · rw [Option.isSome_iff_ne_none, Ne, h.firstOf_eq_none_iff]
    push Not
    rfl
  · intro b hb
    exact h.isFirstFit_of_firstOf hb

/-- The first block of the lowest class is too small, the second one is found, and the block of the
    class above is left. -/
theorem firstFit_complete_of_run : ∃ (s : Session) (P : Plan),
    (Session.start? (Region.empty 4096) {}).bind (fun t => t.run?
      [.allocate 16, .allocate 300, .allocate 16, .allocate 64, .allocate 16, .allocate 16,
        .allocate 16, .free (some ⟨136, by decide⟩), .free (some ⟨488, by decide⟩),
        .free (some ⟨600, by decide⟩)]) = some s ∧
    s.heap.freeEntries = .ok [⟨592, 32, 0⟩, ⟨480, 80, 0⟩, ⟨128, 320, 1⟩] ∧
    s.heap.index.Filed s.heap.memory P.lists (Span.sizeFrom s.heap.start P.spans) ∧
    s.heap.index.firstFit s.heap.memory 56 = .ok (some 480) ∧
    s.heap.index.IsFirstFit P.lists (Span.sizeFrom s.heap.start P.spans) 56 480 := by
  have hrun : ((Session.start? (Region.empty 4096) {}).bind (fun t => t.run?
      [.allocate 16, .allocate 300, .allocate 16, .allocate 64, .allocate 16, .allocate 16,
        .allocate 16, .free (some ⟨136, by decide⟩), .free (some ⟨488, by decide⟩),
        .free (some ⟨600, by decide⟩)])).map (fun s => decide (
      s.heap.freeEntries = .ok [⟨592, 32, 0⟩, ⟨480, 80, 0⟩, ⟨128, 320, 1⟩] ∧
      s.heap.index.firstFit s.heap.memory 56 = .ok (some 480))) = some true := by
    decide +kernel
  obtain ⟨s, hs, hshape⟩ := Option.map_eq_some_iff.mp hrun
  obtain ⟨hentries, hfit⟩ := of_decide_eq_true hshape
  have hreach : Session.Reachable (Region.empty 4096) {} s := Session.reachable_iff.mpr ⟨_, hs⟩
  obtain ⟨P, hP⟩ := hreach.exists_sound
  have hfiled := hP.realizes.filed
  obtain ⟨found, hfound, -, hfirst⟩ := firstFit_complete hfiled 56
  cases hfit.symm.trans hfound
  exact ⟨s, P, hs, hentries, hfiled, hfit, hfirst 480 rfl⟩

end FreeIndex.Filed

end BoundaryTag
