import BoundaryTag.Proofs.Audit.Blocks
import BoundaryTag.Proofs.Audit.BrokenLists

set_option autoImplicit false

/-! # What the audit finds

The walk by address ends at the first block that is broken, after a stretch of blocks that pass
their checks, or at a broken epilogue (`countWalked_eq_violation_iff`). Together with the lists
before it and the comparison of the counts after it, that is all that an audit can report:
`run_eq_violation_iff` has it that the verdict is `v` exactly if `a.Reports v`. -/

namespace BoundaryTag.Audit

variable {a : Audit} {o : Nat} {prevFree : Bool} {t : Tag} {v : Violation}

/-! ## The blocks -/

/-- A block that passes its checks: it fits before the epilogue, it reads back with a true flag for
    the block before, and only one of the two may be free. -/
structure Passes (a : Audit) (o : Nat) (prevFree : Bool) (s : Span) : Prop where
  proper : s.Proper
  stop_le : o + s.size ≤ a.epilogue
  shows : a.memory.Shows ⟨o, ⟨s.size, s.allocated, !prevFree⟩⟩
  coalesced : s.allocated = false → prevFree = false

/-- The spans are blocks side by side that pass their checks, from one offset to another. Each
    offset comes with the state of the block before it. -/
def Stretch (a : Audit) : Nat → Bool → List Span → Nat → Bool → Prop
  | o, prevFree, [], stop, lastFree => o = stop ∧ prevFree = lastFree
  | o, prevFree, s :: ss, stop, lastFree => a.Passes o prevFree s ∧
      Stretch a (o + s.size) (!s.allocated) ss stop lastFree

/-- What is wrong with the size in a header. -/
inductive SizeBroken (a : Audit) (o : Nat) (t : Tag) : Violation.Kind → Prop
  | small (hsmall : t.size < 32) : SizeBroken a o t (.badBlockSize t.size)
  | outOfBounds (hsize : 32 ≤ t.size) (hstop : a.epilogue < o + t.size) :
    SizeBroken a o t (.blockOutOfBounds t.size)

/-- What is wrong with a block that has a size. -/
inductive BlockBroken (a : Audit) (o : Nat) (prevFree : Bool) (t : Tag) : Violation.Kind → Prop
  | flag (hprev : t.prevAllocated = prevFree) :
    BlockBroken a o prevFree t (.prevAllocatedMismatch !prevFree)
  | footer {w : Nat} (hprev : t.prevAllocated = !prevFree) (hfree : t.allocated = false)
      (hfooter : a.memory.readWord (o + t.size - 8) = .ok w) (hne : w ≠ t.pack) :
    BlockBroken a o prevFree t (.footerMismatch t.pack w)
  | neighbours (hprev : t.prevAllocated = !prevFree) (hfree : t.allocated = false)
      (hfooter : a.memory.readWord (o + t.size - 8) = .ok t.pack) (hprevFree : prevFree = true) :
    BlockBroken a o prevFree t .uncoalescedNeighbours

/-- What is wrong with the end of the heap. -/
inductive EndBroken (a : Audit) (o : Nat) (prevFree : Bool) : Violation.Kind → Prop
  | truncated (hshort : a.memory.size < 8) : EndBroken a o prevFree .truncated
  | epilogue {t : Tag} (htag : a.memory.tagAt a.epilogue = .ok t)
      (hbad : ¬ (o = a.epilogue ∧ t.allocated = true ∧ t.size = 8)) :
    EndBroken a o prevFree .badEpilogue
  | flag {t : Tag} (htag : a.memory.tagAt a.epilogue = .ok t)
      (hgood : o = a.epilogue ∧ t.allocated = true ∧ t.size = 8)
      (hprev : t.prevAllocated = prevFree) :
    EndBroken a o prevFree (.prevAllocatedMismatch !prevFree)

/-- What is wrong where the walk has come to `o`: with the header there, with its block, or with the
    end of the heap. -/
inductive WalkBroken (a : Audit) (o : Nat) (prevFree : Bool) : Violation → Prop
  | size {t : Tag} {k : Violation.Kind} (hlt : o < a.epilogue) (htag : a.memory.tagAt o = .ok t)
      (hbroken : a.SizeBroken o t k) : WalkBroken a o prevFree ⟨o, k⟩
  | block {t : Tag} {k : Violation.Kind} (hlt : o < a.epilogue) (htag : a.memory.tagAt o = .ok t)
      (hfits : 32 ≤ t.size ∧ o + t.size ≤ a.epilogue) (hbroken : a.BlockBroken o prevFree t k) :
    WalkBroken a o prevFree ⟨o, k⟩
  | stop {k : Violation.Kind} (hle : a.epilogue ≤ o) (hbroken : a.EndBroken o prevFree k) :
    WalkBroken a o prevFree ⟨a.epilogue, k⟩

theorem checkEpilogue_eq_violation_iff :
    a.checkEpilogue o prevFree = .error (.violation v) ↔
      ∃ k, a.EndBroken o prevFree k ∧ ⟨a.epilogue, k⟩ = v := by
  have hepilogue : a.epilogue = a.memory.size - 8 := rfl
  have hshort : a.memory.size < a.epilogue + 8 ↔ a.memory.size < 8 := by omega
  simp only [checkEpilogue, bind_eq_error_iff, exists_unit_iff, tag_eq_violation_iff, hshort,
    tag_eq_ok_iff, require_eq_violation_iff, require_eq_ok_iff, ← Bool.not_eq_true,
    Bool.and_eq_true, beq_iff_eq, and_assoc, bne_iff_ne, ne_eq, not_not]
  constructor
  · rintro (⟨hshort, rfl⟩ | ⟨t, htag, ⟨hbad, rfl⟩ | ⟨ho, hall, h8, hprev, rfl⟩⟩)
    · exact ⟨_, .truncated hshort, rfl⟩
    · exact ⟨_, .epilogue htag hbad, rfl⟩
    · exact ⟨_, .flag htag ⟨ho, hall, h8⟩ hprev, rfl⟩
  · rintro ⟨_, hshort | ⟨htag, hbad⟩ | ⟨htag, ⟨ho, hall, h8⟩, hprev⟩, rfl⟩
    · exact .inl ⟨hshort, rfl⟩
    · exact .inr ⟨_, htag, .inl ⟨hbad, rfl⟩⟩
    · exact .inr ⟨_, htag, .inr ⟨ho, hall, h8, hprev, rfl⟩⟩

theorem checkBlock_eq_violation_iff (ha : a.Fits)
    (hfits : 32 ≤ t.size ∧ o + t.size ≤ a.epilogue) :
    a.checkBlock o t prevFree = .error (.violation v) ↔
      ∃ k, a.BlockBroken o prevFree t k ∧ ⟨o, k⟩ = v := by
  have hlimit := ha.size_le
  have hepilogue : a.epilogue = a.memory.size - 8 := rfl
  have hword : ¬ a.memory.size < o + t.size - 8 + 8 := by omega
  have hflag : (t.prevAllocated != prevFree) = true ↔ t.prevAllocated = !prevFree := by
    cases t.prevAllocated <;> cases prevFree <;> decide
  rw [checkBlock_eq (by omega) (by omega)]
  cases hall : t.allocated with
  | true =>
    simp only [if_true, bind_eq_error_iff, require_eq_violation_iff, bne_eq_false_iff_eq,
      pure_eq_error_iff, and_false, exists_false, or_false]
    constructor
    · rintro ⟨hprev, rfl⟩
      exact ⟨_, .flag hprev, rfl⟩
    · rintro ⟨_, hbroken, rfl⟩
      cases hbroken with
      | flag hprev => exact ⟨hprev, rfl⟩
      | footer _ hfree | neighbours _ hfree => exact absurd (hall.symm.trans hfree) (by decide)
  | false =>
    simp only [Bool.false_eq_true, if_false, bind_eq_error_iff, exists_unit_iff,
      require_eq_violation_iff, require_eq_ok_iff, hflag, bne_eq_false_iff_eq,
      word_eq_violation_iff, hword, false_and, false_or, word_eq_ok_iff, beq_eq_false_iff_ne, beq_iff_eq,
      Bool.not_eq_false']
    constructor
    · rintro (⟨hprev, rfl⟩ | ⟨hprev, w, hfooter, ⟨hne, rfl⟩ | ⟨rfl, hprevFree, rfl⟩⟩)
      · exact ⟨_, .flag hprev, rfl⟩
      · exact ⟨_, .footer hprev hall hfooter hne, rfl⟩
      · exact ⟨_, .neighbours hprev hall hfooter hprevFree, rfl⟩
    · rintro ⟨_, hprev | ⟨hprev, -, hfooter, hne⟩ | ⟨hprev, -, hfooter, hprevFree⟩, rfl⟩
      · exact .inl ⟨hprev, rfl⟩
      · exact .inr ⟨hprev, _, hfooter, .inl ⟨hne, rfl⟩⟩
      · exact .inr ⟨hprev, _, hfooter, .inr ⟨rfl, hprevFree, rfl⟩⟩

/-- Of a block that passes its checks the header tells the span. -/
theorem passes_iff (ha : a.Fits) (htag : a.memory.tagAt o = .ok t) {s : Span} :
    a.Passes o prevFree s ↔ s = ⟨t.size, t.allocated⟩ ∧
      (32 ≤ t.size ∧ o + t.size ≤ a.epilogue) ∧ a.checkBlock o t prevFree = .ok () := by
  have hlimit := ha.size_le
  have hepilogue : a.epilogue = a.memory.size - 8 := rfl
  constructor
  · intro hpasses
    have h32 := hpasses.proper.1
    have hstop := hpasses.stop_le
    cases htag.symm.trans hpasses.shows.tagAt_eq
    dsimp only
    refine ⟨rfl, ⟨h32, hstop⟩, (checkBlock_eq_ok_iff (by dsimp only; omega)
      (by dsimp only; omega)).mpr ⟨rfl, fun hfree => ⟨?_, hpasses.coalesced hfree⟩⟩⟩
    exact hpasses.shows.footer_eq hfree
  · rintro ⟨rfl, ⟨hle, hstop⟩, hcheck⟩
    obtain ⟨hprev, hfree⟩ := (checkBlock_eq_ok_iff (by omega) (by omega)).mp hcheck
    have ht : t = ⟨t.size, t.allocated, !prevFree⟩ := by rw [← hprev]
    exact {
      proper := ⟨hle, Memory.size_mod_of_tagAt htag⟩
      stop_le := hstop
      shows := ⟨by rw [htag, ← ht], fun hall => ht ▸ (hfree hall).1⟩
      coalesced := fun hall => (hfree hall).2 }

/-- Before the epilogue the walk is broken by the header that it meets or by its block. -/
theorem walkBroken_iff_of_lt (ho : o < a.epilogue) (htag : a.memory.tagAt o = .ok t) :
    a.WalkBroken o prevFree v ↔ (∃ k, a.SizeBroken o t k ∧ ⟨o, k⟩ = v) ∨
      (32 ≤ t.size ∧ o + t.size ≤ a.epilogue) ∧ ∃ k, a.BlockBroken o prevFree t k ∧ ⟨o, k⟩ = v := by
  constructor
  · rintro (⟨-, htag', hbroken⟩ | ⟨-, htag', hfits, hbroken⟩ | ⟨hle, -⟩)
    · cases htag.symm.trans htag'
      exact .inl ⟨_, hbroken, rfl⟩
    · cases htag.symm.trans htag'
      exact .inr ⟨hfits, _, hbroken, rfl⟩
    · exact absurd ho (Nat.not_lt.mpr hle)
  · rintro (⟨k, hbroken, rfl⟩ | ⟨hfits, k, hbroken, rfl⟩)
    · exact .size ho htag hbroken
    · exact .block ho htag hfits hbroken

/-- Before the epilogue the walk finds something broken, or comes to the next block. -/
theorem countWalked_eq_violation_iff_of_lt (ha : a.Fits) (ho : o < a.epilogue) :
    a.countWalked o prevFree = .error (.violation v) ↔ a.WalkBroken o prevFree v ∨
      ∃ s, a.Passes o prevFree s ∧
        a.countWalked (o + s.size) (!s.allocated) = .error (.violation v) := by
  have h32 : Block.least = 32 := rfl
  have h8 : Block.alignment = 8 := rfl
  have hepilogue : a.epilogue = a.memory.size - 8 := rfl
  obtain ⟨t, htag⟩ : ∃ t, a.memory.tagAt o = .ok t :=
    ⟨_, Memory.tagAt_eq_ok_iff.mpr ⟨_, Memory.readWord_eq_ok_iff.mpr ⟨by omega, rfl⟩, rfl⟩⟩
  have hmod := Memory.size_mod_of_tagAt htag
  rw [countWalked, if_pos ho, tag_eq_ok_iff.mpr htag, ok_bind, walkBroken_iff_of_lt ho htag]
  simp only [passes_iff ha htag, exists_eq_left, and_assoc]
  by_cases hfits : 32 ≤ t.size ∧ o + t.size ≤ a.epilogue
  · have hsize : ¬ ∃ k, a.SizeBroken o t k ∧ ⟨o, k⟩ = v := by
      rintro ⟨_, hsmall | ⟨-, hstop⟩, -⟩ <;> omega
    rw [dif_neg (by rw [h32, h8]; omega), if_neg (Nat.not_lt.mpr hfits.2)]
    simp only [hsize, hfits, false_or, true_and, bind_eq_error_iff, exists_unit_iff,
      checkBlock_eq_violation_iff ha hfits, pure_eq_error_iff, and_false, exists_false, or_false]
  · have hno : ∀ {q : Prop}, ¬ (32 ≤ t.size ∧ o + t.size ≤ a.epilogue ∧ q) :=
      fun h => hfits ⟨h.1, h.2.1⟩
    simp only [hno, or_false]
    by_cases hsmall : t.size < 32
    · rw [dif_pos (.inl (h32 ▸ hsmall)), violated_eq_violation_iff]
      constructor
      · rintro rfl
        exact ⟨_, .small hsmall, rfl⟩
      · rintro ⟨_, - | ⟨hsize, -⟩, rfl⟩
        · rfl
        · omega
    · have hstop : a.epilogue < o + t.size := by omega
      rw [dif_neg (by rw [h32, h8]; omega), if_pos hstop, violated_eq_violation_iff]
      constructor
      · rintro rfl
        exact ⟨_, .outOfBounds (Nat.not_lt.mp hsmall) hstop, rfl⟩
      · rintro ⟨_, hsmall' | -, rfl⟩
        · exact absurd hsmall' hsmall
        · rfl

/-- The walk passes blocks that are sound, up to where something is broken. -/
theorem countWalked_eq_violation_iff (ha : a.Fits) :
    a.countWalked o prevFree = .error (.violation v) ↔ ∃ ss stop lastFree,
      a.Stretch o prevFree ss stop lastFree ∧ a.WalkBroken stop lastFree v := by
  -- the walk goes on where the block stops, nearer to the epilogue
  induction hk : a.epilogue - o using Nat.strongRecOn generalizing o prevFree with
  | ind k ih =>
  by_cases ho : o < a.epilogue
  · rw [countWalked_eq_violation_iff_of_lt ha ho]
    have hnearer : ∀ {s}, a.Passes o prevFree s → a.epilogue - (o + s.size) < k := by
      intro s hpasses
      have hle := hpasses.proper.1
      omega
    constructor
    · rintro (hbroken | ⟨s, hpasses, hrest⟩)
      · exact ⟨[], o, prevFree, ⟨rfl, rfl⟩, hbroken⟩
      · obtain ⟨ss, stop, lastFree, hstretch, hbroken⟩ := (ih _ (hnearer hpasses) rfl).mp hrest
        exact ⟨s :: ss, stop, lastFree, ⟨hpasses, hstretch⟩, hbroken⟩
    · rintro ⟨ss, stop, lastFree, hstretch, hbroken⟩
      cases ss with
      | nil =>
        obtain ⟨rfl, rfl⟩ := hstretch
        exact .inl hbroken
      | cons s ss =>
        obtain ⟨hpasses, hstretch⟩ := hstretch
        exact .inr ⟨s, hpasses,
          (ih _ (hnearer hpasses) rfl).mpr ⟨ss, stop, lastFree, hstretch, hbroken⟩⟩
  · rw [countWalked, if_neg ho]
    simp only [bind_eq_error_iff, checkEpilogue_eq_violation_iff, pure_eq_error_iff, and_false,
      exists_false, or_false]
    constructor
    · rintro ⟨_, hbroken, rfl⟩
      exact ⟨[], o, prevFree, ⟨rfl, rfl⟩, .stop (Nat.not_lt.mp ho) hbroken⟩
    · rintro ⟨ss, stop, lastFree, hstretch, hbroken⟩
      cases ss with
      | nil =>
        obtain ⟨rfl, rfl⟩ := hstretch
        cases hbroken with
        | size hlt | block hlt => exact absurd hlt ho
        | stop _ hend => exact ⟨_, hend, rfl⟩
      | cons s ss =>
        have hle := hstretch.1.proper.1
        have hstop := hstretch.1.stop_le
        omega

/-! ## The whole audit -/

/-- What an audit reports: the first rule that is broken, and that everything before is in order. -/
inductive Reports (a : Audit) : Violation → Prop
  /-- A list is broken after nodes that pass, and the lists of the classes before pass. -/
  | list {c : Nat} {v : Violation} (hc : c < a.index.size)
      (hlists : ∀ d < c, ∃ nodes, a.Lists d nodes) (hbroken : a.ListBroken c v) : Reports a v
  /-- All lists pass, and the walk is broken after blocks that pass. -/
  | walk {ss : List Span} {stop : Nat} {lastFree : Bool} {v : Violation}
      (hlists : ∀ c < a.index.size, ∃ nodes, a.Lists c nodes)
      (hstretch : a.Stretch a.start false ss stop lastFree)
      (hbroken : a.WalkBroken stop lastFree v) : Reports a v
  /-- All lists and all blocks pass, but the lists do not have as many nodes as there are free
      blocks. -/
  | counts {lists : Nat → List Nat} {ss : List Span}
      (hlists : ∀ c < a.index.size, a.Lists c (lists c)) (hwalked : a.Walked a.start false ss)
      (hne : ((List.range a.index.size).map fun c => (lists c).length).sum ≠ Span.freeCount ss) :
    Reports a ⟨a.start, .freeCountMismatch
      ((List.range a.index.size).map fun c => (lists c).length).sum (Span.freeCount ss)⟩

theorem inspect_eq_violation_iff (ha : a.Fits) :
    a.inspect = .error (.violation v) ↔ a.Reports v := by
  simp only [inspect, bind_eq_error_iff, countListed_eq_violation_iff ha, countListed_eq_ok_iff,
    countWalked_eq_violation_iff ha, countWalked_eq_ok_iff ha.size_lt, require_eq_violation_iff,
    beq_eq_false_iff_ne]
  constructor
  · rintro (⟨c, hc, hlists, hbroken⟩ | ⟨listed, ⟨lists, hlists, rfl⟩,
      ⟨ss, stop, lastFree, hstretch, hbroken⟩ | ⟨walked, ⟨ss, hwalked, rfl⟩, hne, rfl⟩⟩)
    · exact .list hc hlists hbroken
    · exact .walk (fun c hc => ⟨_, hlists c hc⟩) hstretch hbroken
    · exact .counts hlists hwalked hne
  · rintro (⟨hc, hlists, hbroken⟩ | ⟨hlists, hstretch, hbroken⟩ | ⟨hlists, hwalked, hne⟩)
    · exact .inl ⟨_, hc, hlists, hbroken⟩
    · choose! lists hlists using hlists
      exact .inr ⟨_, ⟨lists, hlists, rfl⟩, .inl ⟨_, _, _, hstretch, hbroken⟩⟩
    · exact .inr ⟨_, ⟨_, hlists, rfl⟩, .inr ⟨_, ⟨_, hwalked, rfl⟩, hne, rfl⟩⟩

/-- The verdict of an audit is what it reports. -/
theorem run_eq_violation_iff (ha : a.Fits) : a.run = .ok (.error v) ↔ a.Reports v := by
  rw [← inspect_eq_violation_iff ha]
  unfold run
  split <;> rename_i heq
  · simp [heq]
  · simp [heq]
  · simp [heq]

end BoundaryTag.Audit
