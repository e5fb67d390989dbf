import BoundaryTag.Proofs.Audit.Lists
import BoundaryTag.Proofs.Span

set_option autoImplicit false

/-! # What the audit of the blocks accepts

`countWalked_eq_ok_iff`: the walk by address is accepted exactly if the memory shows a row of
proper, coalesced spans that reaches up to the epilogue, each block with a true flag for the block
before it. A header may have a third bit set, which no reader looks at, so `Memory.Shows` says less
than `Memory.Marked`. -/

open BoundaryTag.Span (total tags Coalesced)

namespace BoundaryTag

/-- The block reads back: its header as its tag, and its footer, if it is free, as the word of that
    tag. -/
structure Memory.Shows (m : Memory) (b : Block) : Prop where
  tagAt_eq : m.tagAt b.offset = .ok b.tag
  footer_eq : b.tag.allocated = false → m.readWord (b.stop - 8) = .ok b.tag.pack

theorem Memory.Marked.shows {m : Memory} {b : Block} (h : m.Marked b) (hb : b.Proper) : m.Shows b :=
  ⟨h.tagAt hb, h.footer⟩

/-- How many spans of a row are free. -/
def Span.freeCount (ss : List Span) : Nat :=
  ss.countP fun s => !s.allocated

theorem Span.freeCount_cons (s : Span) (ss : List Span) :
    Span.freeCount (s :: ss) = Span.freeCount ss + (!s.allocated).toNat := by
  rw [freeCount, List.countP_cons, freeCount]
  cases s.allocated <;> rfl

namespace Audit

variable {a : Audit} {o n : Nat} {t : Tag} {prevFree : Bool}

/-- The check of a block that ends within the range of a word reads its last word. -/
theorem checkBlock_eq (hlim : o + t.size < Word.limit) (h8 : 8 ≤ t.size) :
    a.checkBlock o t prevFree = (do
      require (t.prevAllocated != prevFree) o (.prevAllocatedMismatch !prevFree)
      if t.allocated then
        return ()
      else
        let footer ← a.word (o + t.size - 8)
        require (footer == t.pack) o (.footerMismatch t.pack footer)
        require (!prevFree) o .uncoalescedNeighbours) := by
  have hadd : Word.add o t.size = .ok (o + t.size) := Word.add_eq_ok_iff.mpr ⟨rfl, hlim⟩
  have hsub : Word.sub (o + t.size) Block.footerBytes = .ok (o + t.size - 8) :=
    Word.sub_eq_ok_iff.mpr (by unfold Block.footerBytes; omega)
  rw [checkBlock, hadd]
  show (_ >>= fun _ => if t.allocated then _ else
    (liftM (Word.sub (o + t.size) Block.footerBytes) : Except Finding Nat) >>= _) = _
  rw [hsub]
  rfl

theorem checkBlock_eq_ok_iff (hlim : o + t.size < Word.limit) (h8 : 8 ≤ t.size) :
    a.checkBlock o t prevFree = .ok () ↔ t.prevAllocated = !prevFree ∧
      (t.allocated = false →
        a.memory.readWord (o + t.size - 8) = .ok t.pack ∧ prevFree = false) := by
  have hflag : (t.prevAllocated != prevFree) = true ↔ t.prevAllocated = !prevFree := by
    cases t.prevAllocated <;> cases prevFree <;> decide
  rw [checkBlock_eq hlim h8]
  cases hall : t.allocated with
  | true =>
    simp only [if_true, bind_eq_ok_iff, exists_unit_iff, require_eq_ok_iff, hflag, pure_eq_ok_iff,
      Bool.true_eq_false, false_imp_iff]
  | false =>
    simp only [Bool.false_eq_true, if_false, bind_eq_ok_iff, exists_unit_iff, require_eq_ok_iff,
      hflag, word_eq_ok_iff, beq_iff_eq, Bool.not_eq_true', true_imp_iff]
    constructor
    · rintro ⟨hprev, w, hw, rfl, hfree⟩
      exact ⟨hprev, hw, hfree⟩
    · rintro ⟨hprev, hw, hfree⟩
      exact ⟨hprev, t.pack, hw, rfl, hfree⟩

theorem checkEpilogue_eq_ok_iff : a.checkEpilogue o prevFree = .ok () ↔
    o = a.epilogue ∧ a.memory.tagAt a.epilogue = .ok ⟨8, true, !prevFree⟩ := by
  simp only [checkEpilogue, bind_eq_ok_iff, exists_unit_iff, require_eq_ok_iff, tag_eq_ok_iff,
    Bool.and_eq_true, beq_iff_eq]
  constructor
  · rintro ⟨⟨size, allocated, prev⟩, ht, ⟨⟨ho, hall⟩, hsize⟩, hprev⟩
    refine ⟨ho, ?_⟩
    dsimp only at hall hsize hprev
    have hflag : prev = !prevFree := by
      revert hprev
      cases prev <;> cases prevFree <;> decide
    rw [ht, hall, hsize, hflag]
  · rintro ⟨rfl, ht⟩
    refine ⟨_, ht, ⟨⟨rfl, rfl⟩, rfl⟩, ?_⟩
    cases prevFree <;> decide

/-- From `o` on the memory shows a row of proper, coalesced spans that ends at the epilogue. -/
structure Walked (a : Audit) (o : Nat) (prevFree : Bool) (ss : List Span) : Prop where
  proper : ∀ s ∈ ss, s.Proper
  coalesced : Coalesced (!prevFree) ss
  stop_eq : o + total ss = a.epilogue
  shows : ∀ b ∈ tags o (!prevFree) ss, a.memory.Shows b

/-- A walk that is accepted can be repeated: it meets the blocks of the row. -/
theorem Walked.blocksFrom_eq {ss : List Span} (h : a.Walked o prevFree ss)
    (hlim : a.memory.size < Word.limit) :
    a.memory.blocksFrom a.epilogue o = .ok (Span.layout o (!prevFree) ss) :=
  Memory.blocksFrom_eq h.proper (fun b hb => (h.shows b hb).tagAt_eq) h.stop_eq
    (Nat.lt_of_le_of_lt (Nat.sub_le _ _) hlim)

theorem walked_nil_iff : a.Walked o prevFree [] ↔ a.checkEpilogue o prevFree = .ok () := by
  rw [checkEpilogue_eq_ok_iff]
  constructor
  · intro h
    have hshows := h.shows
    simp only [Span.tags_nil, List.forall_mem_singleton] at hshows
    have ho : o = a.epilogue := h.stop_eq
    exact ⟨ho, ho ▸ hshows.tagAt_eq⟩
  · rintro ⟨rfl, ht⟩
    refine ⟨by simp, trivial, rfl, ?_⟩
    simp only [Span.tags_nil, List.forall_mem_singleton]
    exact ⟨ht, fun h => absurd h (by simp [Span.epilogue])⟩

/-- The first span of a row is a block that passes its checks, and the rest is walked behind it. -/
theorem walked_cons_iff (hlim : a.memory.size < Word.limit) {s : Span} {ss : List Span} :
    a.Walked o prevFree (s :: ss) ↔ s.Proper ∧ o + s.size ≤ a.epilogue ∧
      a.memory.tagAt o = .ok ⟨s.size, s.allocated, !prevFree⟩ ∧
      a.checkBlock o ⟨s.size, s.allocated, !prevFree⟩ prevFree = .ok () ∧
      a.Walked (o + s.size) (!s.allocated) ss := by
  have hepilogue : a.epilogue ≤ a.memory.size := Nat.sub_le _ _
  constructor
  · rintro ⟨hproper, hcoalesced, hstop, hshows⟩
    rw [List.forall_mem_cons] at hproper
    rw [Span.tags_cons, List.forall_mem_cons] at hshows
    rw [Span.total_cons] at hstop
    have h32 := hproper.1.1
    refine ⟨hproper.1, by omega, hshows.1.tagAt_eq, ?_, hproper.2, ?_, by omega, ?_⟩
    · rw [checkBlock_eq_ok_iff (by dsimp only; omega) (by dsimp only; omega)]
      refine ⟨rfl, fun hall => ⟨hshows.1.footer_eq hall, ?_⟩⟩
      have hfree := hcoalesced.1
      dsimp only at hall
      rw [hall] at hfree
      simpa using hfree
    · rw [Bool.not_not]
      exact hcoalesced.2
    · rw [Bool.not_not]
      exact hshows.2
  · rintro ⟨hproper, hfits, ht, hblock, hrest⟩
    have h32 := hproper.1
    rw [checkBlock_eq_ok_iff (by dsimp only; omega) (by dsimp only; omega)] at hblock
    obtain ⟨-, hfree⟩ := hblock
    have hcoalesced := hrest.coalesced
    have hshows := hrest.shows
    rw [Bool.not_not] at hcoalesced hshows
    refine ⟨?_, ⟨?_, hcoalesced⟩, ?_, ?_⟩
    · rw [List.forall_mem_cons]
      exact ⟨hproper, hrest.proper⟩
    · cases hall : s.allocated with
      | true => exact .inr rfl
      | false => exact .inl (by rw [(hfree hall).2]; rfl)
    · rw [Span.total_cons, ← Nat.add_assoc]
      exact hrest.stop_eq
    · rw [Span.tags_cons, List.forall_mem_cons]
      exact ⟨⟨ht, fun hall => (hfree hall).1⟩, hshows⟩

/-- The walk is accepted exactly if the memory shows a row of spans up to the epilogue, and counts
    the free ones. -/
theorem countWalked_eq_ok_iff (hlim : a.memory.size < Word.limit) :
    a.countWalked o prevFree = .ok n ↔
      ∃ ss, a.Walked o prevFree ss ∧ n = Span.freeCount ss := by
  -- the walk goes on where the block stops, nearer to the epilogue
  induction hk : a.epilogue - o using Nat.strongRecOn generalizing o prevFree n with
  | ind k ih =>
  rw [countWalked]
  have h32 : Block.least = 32 := rfl
  have h8 : Block.alignment = 8 := rfl
  by_cases ho : o < a.epilogue
  · rw [if_pos ho]
    simp only [bind_eq_ok_iff, tag_eq_ok_iff]
    constructor
    · rintro ⟨t, ht, hstep⟩
      split at hstep <;> rename_i hsize
      · cases hstep
      split at hstep <;> rename_i hfits
      · cases hstep
      rw [h32, h8] at hsize
      simp only [bind_eq_ok_iff, exists_unit_iff, pure_eq_ok_iff] at hstep
      obtain ⟨hblock, k', hrest, rfl⟩ := hstep
      obtain ⟨ss, hss, rfl⟩ := (ih _ (by omega) rfl).mp hrest
      have hepilogue : a.epilogue ≤ a.memory.size := Nat.sub_le _ _
      have hprev := ((checkBlock_eq_ok_iff (by omega) (by omega)).mp hblock).1
      have ht' : t = ⟨t.size, t.allocated, !prevFree⟩ := by rw [← hprev]
      refine ⟨⟨t.size, t.allocated⟩ :: ss, (walked_cons_iff hlim).mpr ⟨?_, ?_, ?_, ?_, hss⟩, ?_⟩
      · exact ⟨by dsimp only; omega, by dsimp only; omega⟩
      · dsimp only
        omega
      · rw [ht, ← ht']
      · rwa [← ht']
      · rw [Span.freeCount_cons]
    · rintro ⟨ss, hss, rfl⟩
      cases ss with
      | nil =>
        have hstop := hss.stop_eq
        rw [Span.total_nil] at hstop
        omega
      | cons s ss =>
        obtain ⟨⟨hle, hmod⟩, hfits, ht, hblock, hrest⟩ := (walked_cons_iff hlim).mp hss
        have hwalk : a.countWalked (o + s.size) (!s.allocated) = .ok (Span.freeCount ss) :=
          (ih _ (by omega) rfl).mpr ⟨ss, hrest, rfl⟩
        have hsize : ¬ (s.size < Block.least ∨ s.size % Block.alignment ≠ 0) := by
          rw [h32, h8]
          omega
        refine ⟨_, ht, ?_⟩
        simp only [dif_neg hsize, if_neg (Nat.not_lt.mpr hfits), hblock, hwalk, ok_bind, pure,
          Except.pure, Span.freeCount_cons]
  · rw [if_neg ho]
    simp only [bind_eq_ok_iff, exists_unit_iff, ← walked_nil_iff, pure_eq_ok_iff]
    constructor
    · rintro ⟨hnil, rfl⟩
      exact ⟨[], hnil, rfl⟩
    · rintro ⟨ss, hss, rfl⟩
      cases ss with
      | nil => exact ⟨hss, rfl⟩
      | cons s ss =>
        obtain ⟨⟨hle, -⟩, hfits, -⟩ := (walked_cons_iff hlim).mp hss
        omega

/-- The whole audit accepts exactly if it accepts the lists of all classes and a row of spans, and
    the lists hold as many nodes as the row has free spans. -/
theorem inspect_eq_ok_iff (hlim : a.memory.size < Word.limit) : a.inspect = .ok () ↔
    ∃ (lists : Nat → List Nat) (ss : List Span), (∀ c < a.index.size, a.Lists c (lists c)) ∧
      a.Walked a.start false ss ∧
      ((List.range a.index.size).map fun c => (lists c).length).sum = Span.freeCount ss := by
  simp only [inspect, bind_eq_ok_iff, require_eq_ok_iff, beq_iff_eq, countListed_eq_ok_iff,
    countWalked_eq_ok_iff hlim]
  constructor
  · rintro ⟨listed, ⟨lists, hlists, rfl⟩, walked, ⟨ss, hwalked, rfl⟩, hcount⟩
    exact ⟨lists, ss, hlists, hwalked, hcount⟩
  · rintro ⟨lists, ss, hlists, hwalked, hcount⟩
    exact ⟨_, ⟨lists, hlists, rfl⟩, _, ⟨ss, hwalked, rfl⟩, hcount⟩

end Audit

end BoundaryTag
