import BoundaryTag.Proofs.Heap.Reuse
import BoundaryTag.Proofs.Session.Answers

set_option autoImplicit false

/-! # Carving in every session

Accepted settings whose split threshold is a word are safe: in every reachable session a block that
is reused, absorbed or moved to is cut without a fault, and what is split off is a free block of at
least the least size (`Settings.carves_safely`). The validator has no upper bound for the least
split payload. Where the threshold leaves the range of a word, settings are accepted and a request
faults as soon as a free block could serve it (`Settings.accepts_unsafe`). -/

open BoundaryTag.Span (lastAllocated places)

namespace BoundaryTag

namespace Heap

variable {h : Heap} {P : Plan} {before after : List Span} {right : Option Nat}
  {o n t k r needed : Nat}

/-- The search for a block of at least `needed` bytes finds the one of `n` bytes at `o`. -/
structure Finds (h : Heap) (needed o n : Nat) : Prop where
  firstFit_eq : h.index.firstFit h.memory needed = .ok (some o)
  size_eq : h.memory.sizeAt o = .ok n

/-- The allocated block at `o` was cut from `n` bytes for `needed`: if more than `t` bytes are left
    over, they are a free block, and otherwise the block has them as well. -/
def Cut (h : Heap) (t o n needed : Nat) : Prop :=
  needed ≤ n ∧ ∃ bs p, h.blocks = .ok bs ∧
    if t < n - needed then
      ⟨o, Tag.inUse needed p⟩ ∈ bs ∧ ⟨o + needed, Tag.free (n - needed) true⟩ ∈ bs ∧
        Block.least ≤ n - needed
    else ⟨o, Tag.inUse n p⟩ ∈ bs

/-- A carved span was cut. -/
theorem Realizes.cut (hr : h.Realizes P) (ht : h.settings.splitThreshold = .ok t)
    (hP : P.spans = before ++ (carved t n needed ++ after)) (ho : h.start + Span.total before = o)
    (hle : needed ≤ n) : h.Cut t o n needed := by
  have ht32 := hr.le_threshold ht
  have hleast : Block.least = 32 := rfl
  refine ⟨hle, _, lastAllocated true before, hr.blocks_eq, ?_⟩
  rw [hP, Span.layout_append, ho, carved]
  split
  · refine ⟨?_, ?_, by omega⟩ <;> simp [Tag.inUse, Tag.free]
  · simp [Tag.inUse]

/-- What the search finds is a free span that is large enough. -/
theorem Finds.exists_span (hf : h.Finds needed o n) (hr : h.Realizes P) :
    h.index.firstOf P.lists (Span.sizeFrom h.start P.spans) needed = some o ∧
      ∃ before after, P.spans = before ++ ([⟨n, false⟩] ++ after) ∧
        h.start + Span.total before = o ∧ needed ≤ n ∧ Span.nextAllocated after = true := by
  have hfit := hf.firstFit_eq
  rw [hr.firstFit_eq] at hfit
  have hfound := Except.ok.inj hfit
  obtain ⟨before, j, after, hP, ho, hle, hnext⟩ := hr.exists_fit hfound
  have hj : (o, j) ∈ places false h.start P.spans := by
    rw [hP, Span.places_append, ho]
    simp [places]
  obtain rfl : j = n := Except.ok.inj ((hr.sizeAt_place hj).symm.trans hf.size_eq)
  exact ⟨hfound, before, after, hP, ho, hle, hnext⟩

/-- Only a free block that is enough is taken in as it is. -/
theorem growthOf_eq_absorbNext (hg : growthOf k needed right after = .absorbNext r) :
    right = some r ∧ needed ≤ k + r := by
  unfold growthOf at hg
  cases right with
  | none =>
    dsimp only at hg
    split at hg <;> cases hg
  | some r' =>
    dsimp only at hg
    split at hg
    · rename_i hle
      cases hg
      exact ⟨rfl, hle⟩
    · split at hg <;> cases hg

end Heap

namespace Session

variable {region : Region} {settings : Settings} {s : Session} {P : Plan} {p q : Handle}
  {o k n r t size needed : Nat}

/-- The block of `k` bytes at `o` belongs to the live handle `p`, and is too small for a request of
    `size` bytes, which needs `needed`. -/
structure Outgrown (s : Session) (p : Handle) (o k size needed : Nat) : Prop where
  live : s.IsLive p
  offset_eq : p.offset = o + 8
  size_eq : s.heap.memory.sizeAt o = .ok k
  size_ne_zero : size ≠ 0
  blockSize_eq : Request.blockSize size = .ok (some needed)
  lt : k < needed

/-- Blocks are cut without a fault, and a rest of more than `t` bytes is split off. -/
structure CarvesSafely (s : Session) (t : Nat) : Prop where
  /-- The only fault of a permitted command is a lack of storage. -/
  faults : ∀ c f, s.Permits c → c.Sized → s.exec c = .error f → s.heap.Wants f
  /-- A request that some free block can serve is served from the one that is found. -/
  reuse : ∀ size needed o n, size ≠ 0 → Request.blockSize size = .ok (some needed) →
    s.heap.Finds needed o n →
    ∃ p h', (s.heap.allocate size).result = .ok (.ok (some p), h') ∧
      (s.heap.resize none size).result = .ok (.ok (some p), h') ∧
      p.offset = o + 8 ∧ h'.Cut t o n needed
  /-- A block that takes in the free one after it keeps its place. -/
  absorb : ∀ p o k r size needed, s.Outgrown p o k size needed →
    s.heap.growth k (o + k) needed = .ok (.absorbNext r) →
    ∃ h', (s.heap.resize (some p) size).result = .ok (.ok (some p), h') ∧
      h'.Cut t o (k + r) needed
  /-- A payload that has to move goes to the block that a request for it is served from. -/
  relocate : ∀ p o k u n size needed, s.Outgrown p o k size needed →
    s.heap.growth k (o + k) needed = .ok .move → s.heap.Finds needed u n →
    ∃ q h₁ h', (s.heap.allocate size).result = .ok (.ok (some q), h₁) ∧ q.offset = u + 8 ∧
      h₁.Cut t u n needed ∧ (s.heap.resize (some p) size).result = .ok (.ok (some q), h')

/-- The block of a live handle is an allocated span. -/
theorem Outgrown.mem_places (hg : s.Outgrown p o k size needed) (hs : s.Sound P) :
    (o, k) ∈ places true s.heap.start P.spans := by
  obtain ⟨u, j, hu, hj⟩ := hs.place_of_live hg.live
  obtain rfl : u = o := Nat.add_right_cancel (hu.symm.trans hg.offset_eq)
  obtain rfl : j = k := Except.ok.inj ((hs.realizes.sizeAt_place hj).symm.trans hg.size_eq)
  exact hj

namespace Sound

theorem reuse (hs : s.Sound P) (ht : s.heap.settings.splitThreshold = .ok t) (h0 : size ≠ 0)
    (hb : Request.blockSize size = .ok (some needed)) (hf : s.heap.Finds needed o n) :
    ∃ p m', (s.heap.allocate size).result = .ok (.ok (some p), s.heap.withMemory m') ∧
      p.offset = o + 8 ∧ (s.heap.withMemory m').Cut t o n needed := by
  obtain ⟨hfound, before, after, hP, ho, hle, hnext⟩ := hf.exists_span hs.realizes
  obtain ⟨p, m', hres, hp, -, hreal⟩ :=
    Heap.allocate_of_fit hs.realizes ht h0 hb hfound hP ho hle hnext
  exact ⟨p, m', hres, hp, hreal.cut ht rfl ho hle⟩

/-- Without a split threshold, such a request faults. -/
theorem reuse_fails (hs : s.Sound P) {f : Fault} (hf : s.heap.settings.splitThreshold = .error f)
    (h0 : size ≠ 0) (hb : Request.blockSize size = .ok (some needed))
    (hfinds : s.heap.Finds needed o n) : (s.heap.allocate size).result = .error f := by
  obtain ⟨hfound, -⟩ := hfinds.exists_span hs.realizes
  exact Heap.allocate_of_acquire_error h0 hb (Heap.acquire_eq_error hs.realizes hf hfound)

theorem absorb (hs : s.Sound P) (ht : s.heap.settings.splitThreshold = .ok t)
    (hg : s.Outgrown p o k size needed)
    (hgrowth : s.heap.growth k (o + k) needed = .ok (.absorbNext r)) :
    ∃ h', (s.heap.resize (some p) size).result = .ok (.ok (some p), h') ∧
      h'.Cut t o (k + r) needed := by
  have hneeded := (Heap.proper_of_blockSize hg.blockSize_eq).1
  obtain ⟨before, right, after, ha⟩ := hs.realizes.exists_at (hg.mem_places hs)
  have hway := hgrowth
  rw [Heap.growth_eq hs.realizes ha] at hway
  obtain ⟨rfl, hle⟩ := Heap.growthOf_eq_absorbNext (Except.ok.inj hway)
  have henlarge := Heap.resize_eq_enlarge hs.realizes hg.offset_eq ha hg.size_ne_zero
    hg.blockSize_eq hg.lt
  obtain ⟨m', hres, hreal, -⟩ :=
    Heap.enlarge_absorbNext_eq hs.realizes ha ht hneeded hg.lt hle
  refine ⟨_, ?_, hreal.cut ht rfl ha.offset_eq hle⟩
  rw [henlarge, Except.ok.inj hway, hres]

theorem relocate (hs : s.Sound P) (hg : s.Outgrown p o k size needed)
    (hgrowth : s.heap.growth k (o + k) needed = .ok .move) {m₁ : Memory}
    (hres : (s.heap.allocate size).result = .ok (.ok (some q), s.heap.withMemory m₁)) :
    ∃ h', (s.heap.resize (some p) size).result = .ok (.ok (some q), h') := by
  obtain ⟨before, right, after, ha⟩ := hs.realizes.exists_at (hg.mem_places hs)
  rw [Heap.growth_eq hs.realizes ha] at hgrowth
  -- Moving starts with an allocation, so where that one goes the payload goes too.
  have hgiven := (Heap.allocate_ends hs.realizes size).of_ok hres
  generalize hanswer : (Except.ok (some q), s.heap.withMemory m₁) = answer at hgiven
  cases hgiven with
  | refused _ => cases hanswer
  | nothing _ => cases hanswer
  | given _ hb hq hgives =>
    obtain ⟨heq, hheap⟩ := Prod.mk.inj hanswer
    cases heq
    rw [hheap] at hres
    obtain ⟨m₂, m₃, P₃, hmove, -⟩ := Heap.move_of_given hg.offset_eq (hg.mem_places hs)
      (Heap.proper_of_blockSize hb).2 hq hgives hres
    refine ⟨s.heap.withMemory m₃, ?_⟩
    rw [Heap.resize_eq_enlarge hs.realizes hg.offset_eq ha hg.size_ne_zero hg.blockSize_eq hg.lt,
      Except.ok.inj hgrowth, Heap.enlarge, hmove]

theorem carvesSafely (hs : s.Sound P) (ht : s.heap.settings.splitThreshold = .ok t) :
    s.CarvesSafely t where
  faults c f hpermits hsized hexec := by
    have hends := hs.exec_ends ht hpermits hsized
    rw [hexec] at hends
    exact hends
  reuse size needed o n h0 hb hf := by
    obtain ⟨p, m', hres, hp, hcut⟩ := hs.reuse ht h0 hb hf
    refine ⟨p, _, hres, ?_, hp, hcut⟩
    rw [Heap.resize, if_neg h0, hres]
  absorb p o k r size needed hg hgrowth := hs.absorb ht hg hgrowth
  relocate p o k u n size needed hg hgrowth hf := by
    obtain ⟨q, m₁, hres, hq, hcut⟩ := hs.reuse ht hg.size_ne_zero hg.blockSize_eq hf
    obtain ⟨h', hresize⟩ := hs.relocate hg hgrowth hres
    exact ⟨q, _, h', hres, hq, hcut, hresize⟩

end Sound

end Session

namespace Settings

variable {settings : Settings}

/-- Accepted settings have a class table. If the two tags and the least split payload make up a
    word, it is the split threshold, and every heap with these settings carves its blocks safely. -/
theorem carves_safely (hvalid : settings.validate = .ok ())
    (hword : Block.overhead + settings.minSplit < Word.limit) :
    (∃ table, settings.classTable = .ok table ∧ table.thresholds = settings.thresholds) ∧
      settings.splitThreshold = .ok (Block.overhead + settings.minSplit) ∧
      ∀ region s, Session.Reachable region settings s →
        s.CarvesSafely (Block.overhead + settings.minSplit) := by
  have hascending := (validate_eq_ok_iff.mp hvalid).2.1
  have hthreshold : settings.splitThreshold = .ok (Block.overhead + settings.minSplit) :=
    Word.add_eq_ok_iff.mpr ⟨rfl, hword⟩
  refine ⟨⟨⟨_, hascending⟩, dif_pos hascending, rfl⟩, hthreshold, fun region s hs => ?_⟩
  obtain ⟨P, hP⟩ := hs.exists_sound
  refine hP.carvesSafely ?_
  rw [hs.settings_eq, hthreshold]

/-- A free block of 320 bytes between allocated ones: it is reused, or taken in by the block before
    it, or the payload of the block after it moves there. -/
theorem carves_safely_of_run : ∃ s, (Session.start? (Region.empty 4096) {}).bind (fun t => t.run?
      [.allocate 16, .allocate 300, .allocate 16, .allocate 16,
        .free (some ⟨136, by decide⟩)]) = some s ∧ s.CarvesSafely 56 ∧
    (∃ p h', (s.heap.allocate 16).result = .ok (.ok (some p), h') ∧ h'.Cut 56 128 320 32) ∧
    (∃ p h', (s.heap.resize (some p) 40).result = .ok (.ok (some p), h') ∧
      h'.Cut 56 96 352 56) ∧
    ∃ p q h', (s.heap.resize (some p) 40).result = .ok (.ok (some q), h') ∧
      p.offset = 456 ∧ q.offset = 136 := by
  have hrun : ((Session.start? (Region.empty 4096) {}).bind (fun t => t.run?
      [.allocate 16, .allocate 300, .allocate 16, .allocate 16,
        .free (some ⟨136, by decide⟩)])).map (fun s => decide (
          s.heap.index.firstFit s.heap.memory 32 = .ok (some 128) ∧
          s.heap.index.firstFit s.heap.memory 56 = .ok (some 128) ∧
          s.heap.memory.sizeAt 128 = .ok 320 ∧
          (s.IsLive ⟨104, by decide⟩ ∧ s.heap.memory.sizeAt 96 = .ok 32 ∧
            s.heap.growth 32 128 56 = .ok (.absorbNext 320)) ∧
          s.IsLive ⟨456, by decide⟩ ∧ s.heap.memory.sizeAt 448 = .ok 32 ∧
            s.heap.growth 32 480 56 = .ok .move)) = some true := by
    decide +kernel
  obtain ⟨s, hs, hshape⟩ := Option.map_eq_some_iff.mp hrun
  obtain ⟨hfirst, hlarger, hfree, ⟨hlive, hsize, habsorb⟩, hlive', hsize', hmove⟩ :=
    of_decide_eq_true hshape
  have hvalid : ({} : Settings).validate = .ok () := rfl
  obtain ⟨-, -, hsafe⟩ := carves_safely hvalid (by decide)
  have hcarves : s.CarvesSafely 56 := hsafe _ s (Session.reachable_iff.mpr ⟨_, hs⟩)
  obtain ⟨p, h', hres, -, -, hcut⟩ :=
    hcarves.reuse 16 32 128 320 (by decide) rfl ⟨hfirst, hfree⟩
  obtain ⟨h'', hres', hcut'⟩ := hcarves.absorb _ 96 32 320 40 56
    ⟨hlive, rfl, hsize, by decide, rfl, by decide⟩ habsorb
  obtain ⟨q, h₁, h₂, -, hq, -, hres''⟩ := hcarves.relocate _ 448 32 128 320 40 56
    ⟨hlive', rfl, hsize', by decide, rfl, by decide⟩ hmove ⟨hlarger, hfree⟩
  exact ⟨s, hs, hcarves, ⟨p, h', hres, hcut⟩, ⟨_, h'', hres', hcut'⟩, _, q, h₂, hres'', rfl, hq⟩

/-- Settings are accepted of which no threshold can be made: a request that a free block could serve
    then faults. -/
theorem accepts_unsafe : ({ minSplit := Word.limit - 16 } : Settings).validate = .ok () ∧
    ({ minSplit := Word.limit - 16 } : Settings).splitThreshold = .error .overflow ∧
    ∃ s, (Session.start? (Region.empty 4096) { minSplit := Word.limit - 16 }).bind
        (fun t => t.run? [.allocate 16, .allocate 16, .free (some ⟨104, by decide⟩)]) = some s ∧
      s.heap.Finds 32 96 32 ∧ (s.heap.allocate 16).result = .error .overflow := by
  have hrun : ((Session.start? (Region.empty 4096) { minSplit := Word.limit - 16 }).bind
      (fun t => t.run? [.allocate 16, .allocate 16, .free (some ⟨104, by decide⟩)])).map
      (fun s => decide (s.heap.index.firstFit s.heap.memory 32 = .ok (some 96) ∧
        s.heap.memory.sizeAt 96 = .ok 32)) = some true := by
    decide +kernel
  obtain ⟨s, hs, hshape⟩ := Option.map_eq_some_iff.mp hrun
  obtain ⟨hfit, hsize⟩ := of_decide_eq_true hshape
  have hreach : Session.Reachable (Region.empty 4096) { minSplit := Word.limit - 16 } s :=
    Session.reachable_iff.mpr ⟨_, hs⟩
  have hthreshold : s.heap.settings.splitThreshold = .error .overflow := by
    rw [hreach.settings_eq]
    rfl
  obtain ⟨P, hP⟩ := hreach.exists_sound
  exact ⟨rfl, rfl, s, hs, ⟨hfit, hsize⟩,
    hP.reuse_fails hthreshold (by decide) rfl ⟨hfit, hsize⟩⟩

end Settings

end BoundaryTag
