import BoundaryTag.Proofs.Audit.BrokenBlocks
import BoundaryTag.Proofs.Heap.Acceptance

set_option autoImplicit false

/-! # What a bad verdict means

Whatever the bytes of a heap are, a violation that its audit names is one: the rule is broken at the
offset, and the numbers are those that the memory holds (`Audit.Violates`). It is the first one as
well, since whatever the audit comes by earlier passes its checks (`Audit.Reports`). So the bytes
decide which violation is reported (`check_diagnoses`). -/

namespace BoundaryTag

namespace Audit

variable {a : Audit} {c head room prior node o stop : Nat} {prevFree lastFree : Bool} {t : Tag}
  {nodes : List Nat} {ss : List Span} {v : Violation} {k : Violation.Kind}

/-- The state of the block that stops at an offset. What lies before the first block counts as
    allocated. -/
def Before (a : Audit) (o : Nat) (allocated : Bool) : Prop :=
  o = a.start ∧ allocated = true ∨
    ∃ p t, a.memory.tagAt p = .ok t ∧ p + t.size = o ∧ t.allocated = allocated

/-- The rule that a violation names is broken at its offset, and the memory holds its numbers. -/
def Violates (a : Audit) (v : Violation) : Prop :=
  match v.kind with
  | .truncated => a.memory.size < v.offset + 8
  | .allocatedOnFreeList => ∃ t, a.memory.tagAt v.offset = .ok t ∧ t.allocated = true
  | .linkOutOfBounds link => a.memory.nextLink v.offset = .ok link ∧
      ¬ (a.start ≤ link ∧ link < a.epilogue ∧ link % 8 = 0)
  | .brokenLink expected found => a.memory.nextLink expected = .ok v.offset ∧
      a.memory.priorLink v.offset = .ok found ∧ found ≠ expected
  | .wrongSizeClass size expected found => a.memory.sizeAt v.offset = .ok size ∧
      a.index.classify size = expected ∧ expected ≠ found
  | .freeListCycle => ∃ c us, v.offset = a.index.headAt c ∧
      a.index.firstMembers a.memory c (a.maxBlocks + 1) = .ok us ∧ us.length = a.maxBlocks + 1
  | .badBlockSize size => a.memory.sizeAt v.offset = .ok size ∧ size < 32
  | .blockOutOfBounds size => a.memory.sizeAt v.offset = .ok size ∧ a.epilogue < v.offset + size
  | .prevAllocatedMismatch expected => a.Before v.offset expected ∧
      a.memory.prevAllocatedAt v.offset = .ok (!expected)
  | .footerMismatch header footer => ∃ t, a.memory.tagAt v.offset = .ok t ∧ t.pack = header ∧
      a.memory.readWord (v.offset + t.size - 8) = .ok footer ∧ footer ≠ header
  | .uncoalescedNeighbours => a.Before v.offset false ∧ a.memory.freeAt v.offset = .ok true
  | .badEpilogue => v.offset = a.epilogue ∧ ∃ t, a.memory.tagAt v.offset = .ok t ∧
      (a.epilogue < a.start ∨ ¬ (t.allocated = true ∧ t.size = 8))
  | .freeCountMismatch listed walked => v.offset = a.start ∧ listed ≠ walked ∧
      (∃ lists, (∀ c < a.index.size, a.index.members a.memory c = .ok (lists c)) ∧
        (a.index.listed lists).length = listed) ∧
      ∃ bs, a.memory.blocksFrom a.epilogue a.start = .ok bs ∧ (Block.frees bs).length = walked

/-! ## The lists -/

theorem NodeBroken.violates (h : a.NodeBroken c prior node v)
    (hlink : a.memory.nextLink prior = .ok node) : a.Violates v := by
  cases h with
  | outOfBounds hout => exact ⟨hlink, hout⟩
  | allocated _ htag hall => exact ⟨_, htag, hall⟩
  | truncated _ _ _ hshort => exact hshort
  | brokenLink _ _ _ hback hne => exact ⟨hlink, hback, hne⟩
  | wrongClass _ htag _ _ hne => exact ⟨Memory.sizeAt_of_tagAt htag, rfl, hne⟩

/-- As many links as a trail has nodes lead over just these. -/
theorem Trail.follow_eq {next first : Nat} (h : a.Trail c head prior nodes node)
    (hnext : a.memory.nextLink node = .ok next) (hfirst : a.memory.nextLink prior = .ok first) :
    FreeIndex.follow a.memory head nodes.length first = .ok nodes := by
  induction nodes generalizing prior first with
  | nil => rfl
  | cons u us ih =>
    obtain ⟨hu, hne, -, hrest⟩ := h
    cases hfirst.symm.trans hu
    obtain ⟨second, hsecond⟩ : ∃ second, a.memory.nextLink u = .ok second := by
      cases us with
      | nil =>
        obtain rfl : u = node := hrest
        exact ⟨next, hnext⟩
      | cons u' us => exact ⟨u', hrest.1⟩
    rw [List.length_cons, FreeIndex.follow, if_neg hne, hsecond, ok_bind, ih hrest hsecond]
    rfl

theorem ListBroken.violates (ha : a.Fits) (hc : c < a.index.size) (h : a.ListBroken c v) :
    a.Violates v := by
  cases h with
  | truncated hshort => exact hshort
  | link hbroken =>
    obtain ⟨first, hfirst⟩ := hbroken.exists_first
    obtain ⟨nodes, last, next, htrail, hnext, hlen, hbroken⟩ := hbroken
    cases hbroken with
    | cycle hne hroom =>
      have hfollow := htrail.follow_eq hnext hfirst
      have hfull : nodes.length = a.maxBlocks + 1 := by omega
      refine ⟨c, nodes, rfl, ?_, hfull⟩
      rw [FreeIndex.firstMembers, (ha.head_eq hc).1, ok_bind, hfirst, ok_bind, ← hfull, hfollow]
    | node hne hroom hbroken => exact hbroken.violates hnext
    | truncated _ hshort => exact hshort
    | brokenLink heq hback hne =>
      rw [heq] at hnext
      exact ⟨hnext, hback, hne⟩

/-! ## The blocks -/

/-- The flag that goes along a stretch is the state of the block before. -/
theorem Stretch.before (h : a.Stretch o prevFree ss stop lastFree) (ho : a.Before o (!prevFree)) :
    a.Before stop (!lastFree) := by
  induction ss generalizing o prevFree with
  | nil =>
    obtain ⟨rfl, rfl⟩ := h
    exact ho
  | cons s ss ih =>
    obtain ⟨hpasses, hrest⟩ := h
    exact ih hrest (.inr ⟨o, _, hpasses.shows.tagAt_eq, rfl, (Bool.not_not _).symm⟩)

theorem Stretch.stop_le (h : a.Stretch o prevFree ss stop lastFree) (ho : o ≤ a.epilogue) :
    stop ≤ a.epilogue := by
  induction ss generalizing o prevFree with
  | nil => exact h.1 ▸ ho
  | cons s ss ih => exact ih h.2 h.1.stop_le

theorem SizeBroken.violates (h : a.SizeBroken o t k) (htag : a.memory.tagAt o = .ok t) :
    a.Violates ⟨o, k⟩ := by
  cases h with
  | small hsmall => exact ⟨Memory.sizeAt_of_tagAt htag, hsmall⟩
  | outOfBounds _ hstop => exact ⟨Memory.sizeAt_of_tagAt htag, hstop⟩

theorem BlockBroken.violates (h : a.BlockBroken o prevFree t k) (htag : a.memory.tagAt o = .ok t)
    (hbefore : a.Before o (!prevFree)) : a.Violates ⟨o, k⟩ := by
  cases h with
  | flag hprev =>
    refine ⟨hbefore, ?_⟩
    rw [Memory.prevAllocatedAt_of_tagAt htag, hprev, Bool.not_not]
  | footer _ _ hfooter hne => exact ⟨t, htag, rfl, hfooter, hne⟩
  | neighbours _ hfree _ hprevFree =>
    refine ⟨by rwa [hprevFree] at hbefore, ?_⟩
    rw [Memory.freeAt_of_tagAt htag, hfree]
    rfl

theorem EndBroken.violates (h : a.EndBroken o prevFree k) (hbefore : a.Before o (!prevFree))
    (hstart : a.start ≤ a.epilogue → o = a.epilogue) : a.Violates ⟨a.epilogue, k⟩ := by
  cases h with
  | truncated hshort =>
    have hepilogue : a.epilogue = a.memory.size - 8 := rfl
    show a.memory.size < a.epilogue + 8
    omega
  | epilogue htag hbad =>
    refine ⟨rfl, _, htag, ?_⟩
    by_cases hlt : a.epilogue < a.start
    · exact .inl hlt
    · exact .inr fun hgood => hbad ⟨hstart (Nat.not_lt.mp hlt), hgood⟩
  | flag htag hgood hprev =>
    refine ⟨hgood.1 ▸ hbefore, ?_⟩
    show a.memory.prevAllocatedAt a.epilogue = _
    rw [Memory.prevAllocatedAt_of_tagAt htag, hprev, Bool.not_not]

theorem WalkBroken.violates (h : a.WalkBroken o prevFree v) (hbefore : a.Before o (!prevFree))
    (hstart : a.start ≤ a.epilogue → o ≤ a.epilogue) : a.Violates v := by
  cases h with
  | size _ htag hbroken => exact hbroken.violates htag
  | block _ htag _ hbroken => exact hbroken.violates htag hbefore
  | stop hle hbroken =>
    exact hbroken.violates hbefore fun hlt => Nat.le_antisymm (hstart hlt) hle

/-! ## The whole audit -/

theorem Reports.violates (ha : a.Fits) (h : a.Reports v) : a.Violates v := by
  cases h with
  | list hc _ hbroken => exact hbroken.violates ha hc
  | walk _ hstretch hbroken =>
    exact hbroken.violates (hstretch.before (.inl ⟨rfl, rfl⟩)) hstretch.stop_le
  | counts hlists hwalked hne =>
    refine ⟨rfl, hne, ⟨_, fun c hc => (hlists c hc).members_eq, ?_⟩, _,
      hwalked.blocksFrom_eq ha.size_lt, Span.length_frees⟩
    rw [FreeIndex.listed, List.length_flatMap]

end Audit

namespace Heap

variable {h : Heap} {region : Region} {settings : Settings} {v : Violation}

/-- Whatever bytes a heap that was laid out is given for its memory, and however few, its audit
    finds exactly the violation that comes first, and the rule that it names is broken. No memory
    that can be addressed is longer than `hlen` says. -/
theorem check_diagnoses (hinit : (init region settings).result = .ok (.ok h)) {m : Memory}
    (hlen : m.size + 8 ≤ Word.limit) :
    ((h.withMemory m).check = .ok (.error v) ↔ (h.withMemory m).audit.Reports v) ∧
      ((h.withMemory m).check = .ok (.error v) → (h.withMemory m).audit.Violates v) := by
  have ha := fits_of_init hinit hlen
  have hcheck : (h.withMemory m).check = .ok (.error v) ↔ (h.withMemory m).audit.Reports v :=
    Audit.run_eq_violation_iff ha
  exact ⟨hcheck, fun hbad => (hcheck.mp hbad).violates ha⟩

/-- Words that are overwritten in a heap with a free block of 56 bytes at 128, and what is found. -/
def damages : List (Nat × Nat × Violation) :=
  [(8, 132, ⟨0, .linkOutOfBounds 132⟩), (144, 5, ⟨128, .brokenLink 0 5⟩),
    (176, 0, ⟨128, .footerMismatch 58 0⟩), (184, 34, ⟨184, .prevAllocatedMismatch false⟩)]

/-- A link, a link back, a footer and a flag. -/
theorem check_diagnoses_of_run : damages.Forall fun d =>
    ∃ h m, (init (Region.empty 4096) {}).result = .ok (.ok h) ∧
      (h.withMemory m).check = .ok (.error d.2.2) ∧ (h.withMemory m).audit.Reports d.2.2 ∧
      (h.withMemory m).audit.Violates d.2.2 := by
  rw [List.forall_iff_forall_mem]
  intro d hd
  have hruns : ∀ d ∈ damages, (Session.start? (Region.empty 4096) {}).bind (fun t =>
      (t.run? [.allocate 16, .allocate 40, .allocate 16,
        .free (some ⟨136, by decide⟩)]).map fun s =>
          match s.heap.memory.writeWord d.1 d.2.1 with
          | .ok m => decide (m.size + 8 ≤ Word.limit ∧
              (t.heap.withMemory m).check = .ok (.error d.2.2))
          | .error _ => false) = some true := by
    decide +kernel
  obtain ⟨t, hstart, hrun⟩ := Option.bind_eq_some_iff.mp (hruns d hd)
  obtain ⟨s, -, heq⟩ := Option.map_eq_some_iff.mp hrun
  obtain ⟨h, hinit, rfl⟩ := Session.start?_eq_some_iff.mp hstart
  split at heq
  · rename_i m _
    obtain ⟨hlen, hcheck⟩ := of_decide_eq_true heq
    have hreports := check_diagnoses hinit hlen (v := d.2.2)
    exact ⟨h, m, hinit, hcheck, hreports.1.mp hcheck, hreports.2 hcheck⟩
  · cases heq

end Heap

end BoundaryTag
