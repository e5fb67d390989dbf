import BoundaryTag.Proofs.Heap.Contents
import BoundaryTag.Proofs.Heap.Reports
import BoundaryTag.Proofs.Session.Effect

set_option autoImplicit false

/-! # What lies before the blocks

A heap is laid out behind bytes that a region has already, exactly if the heads of its lists and the
epilogue still fit (`Heap.LaysOut.isNew` says what is there then). From then on the bytes before the
heads are as they were, and so are the tags of the heads (`initializes`): links are written where
other links say, but these lead to heads and listed blocks only, and of a head no link is its tag
(`Foreign.beside_slack`). -/

namespace BoundaryTag

open Memory (Keeps)

namespace Heap

variable {h : Heap} {P P' P₁ : Plan} {region : Region} {settings : Settings} {i o o' k n needed w : Nat}
  {m' m₁ m₂ : Memory}

/-! ## Bytes that no operation changes -/

/-- The byte lies before the heads of the lists, or in the tag of a head. -/
def Foreign (h : Heap) (i : Nat) : Prop :=
  i < h.index.base ∨ ∃ c < h.index.size, h.index.headAt c ≤ i ∧ i < h.index.headAt c + 8

namespace Foreign

theorem lt_start (hr : h.Realizes P) (hi : h.Foreign i) : i < h.start := by
  have hstart := hr.start_eq
  rcases hi with hlt | ⟨c, hc, -, hlt⟩
  · omega
  · have hhead := hr.charted.head_le hc
    omega

/-- The links of the heads are beside their tags and behind the base. -/
theorem beside_head {c : Nat} (hi : h.Foreign i) (hw : w = h.index.headAt c + 8 ∨
    w = h.index.headAt c + 16) : i < w ∨ w + 8 ≤ i := by
  have hhead : h.index.headAt c = h.index.base + c * 24 := rfl
  rcases hi with hlt | ⟨d, -, hle, hlt⟩
  · omega
  · have hhead' : h.index.headAt d = h.index.base + d * 24 := rfl
    omega

theorem beside_slack (hr : h.Realizes P) (hi : h.Foreign i) (hw : h.Slack P w) :
    i < w ∨ w + 8 ≤ i := by
  have hstart := hi.lt_start hr
  rcases hw with ⟨c, hc, u, hu, hw⟩ | ⟨u, j, hu, hle, -⟩ | hle
  · rw [FreeIndex.cycle, List.mem_cons] at hu
    rcases hu with rfl | hu
    · exact hi.beside_head hw
    · obtain ⟨j, hj, -⟩ := (hr.mem_lists_iff hc).mp hu
      have hplace := (hr.place_bounds hj).1
      omega
  · have hplace := (hr.place_bounds hu).1
    omega
  · omega

/-- Changes of slack space and of words among the blocks are no changes of these bytes. -/
theorem byte_eq {Q : Nat → Prop} (hr : h.Realizes P) (hi : h.Foreign i)
    (hkeep : Keeps (fun w => h.Slack P w ∨ Q w) h.memory m') (hQ : ∀ w, Q w → h.start ≤ w) :
    m'.byte i = h.memory.byte i := by
  have hstart := hi.lt_start hr
  refine hkeep.byte_eq i fun w hw => ?_
  rcases hw with hw | hw
  · exact hi.beside_slack hr hw
  · exact .inl (Nat.lt_of_lt_of_le hstart (hQ w hw))

theorem of_gives (hr : h.Realizes P) (hi : h.Foreign i) (hg : h.Gives P o needed m' P') :
    m'.byte i = h.memory.byte i :=
  hi.byte_eq (Q := fun _ => False) hr (hg.keeps.mono fun _ => .inl) fun _ => False.elim

theorem of_takes (hr : h.Realizes P) (hi : h.Foreign i) (ht : h.Takes P o k m' P')
    (hk : (o, k) ∈ Span.places true h.start P.spans) : m'.byte i = h.memory.byte i :=
  hi.byte_eq hr ht.keeps fun _ hw => (hr.place_bounds hk).1.trans hw.1

theorem of_enlarges (hr : h.Realizes P) (hi : h.Foreign i) (he : h.Enlarges P o k needed m' P')
    (hk : (o, k) ∈ Span.places true h.start P.spans) : m'.byte i = h.memory.byte i :=
  hi.byte_eq hr he.keeps fun _ hw => (hr.place_bounds hk).1.trans (Nat.le_of_eq hw.symm)

theorem of_moves (hr : h.Realizes P) (hi : h.Foreign i)
    (hm : h.Moves P o k o' needed n m' P' m₁ P₁ m₂)
    (hk : (o, k) ∈ Span.places true h.start P.spans) (hn : n ≤ k - 8) (hroom : n + 16 ≤ needed) :
    m'.byte i = h.memory.byte i := by
  obtain ⟨j, -, htarget⟩ := hm.gives.mem_places
  have hbounds := (hm.gives.realizes.place_bounds htarget).1
  have hstart := hi.lt_start hr
  calc m'.byte i = m₂.byte i :=
        of_takes hm.realizes hi hm.takes (hm.gives.places_subset hk)
    _ = m₁.byte i := (hm.copied hk hn hroom).2 i (.inl (Nat.lt_add_right 8 (hstart.trans_le hbounds)))
    _ = h.memory.byte i := hi.of_gives hr hm.gives

end Foreign

/-! ## Empty heaps -/

/-- An empty heap behind the bytes that a region had, as its reports show it. -/
structure IsNew (region : Region) (settings : Settings) (h : Heap) : Prop where
  size_eq : h.memory.size = emptySize region settings
  base_eq : h.index.base = baseOf region
  classes_eq : h.index.size = settings.thresholds.length + 1
  start_eq : h.start = baseOf region + 24 * h.index.size
  start_mod : h.start % 8 = 0
  le_start : 24 ≤ h.start
  members_eq : ∀ c < h.index.size, h.index.members h.memory c = .ok []
  check_eq : h.check = .ok (.ok ())
  freeEntries_eq : h.freeEntries = .ok []
  census_eq : h.census = .ok { arenaBytes := emptySize region settings }

/-- The bytes before the base are those of the region, and the tags of the heads say that they are
    in use. -/
structure Intact (region : Region) (settings : Settings) (m : Memory) : Prop where
  byte_eq : ∀ i < baseOf region, m.byte i = region.memory.byte i
  tag_eq : ∀ c < settings.thresholds.length + 1,
    m.readWord (baseOf region + c * 24) = .ok (Tag.inUse 0 true).pack

/-- Storage of whole words is there for an empty heap, which ends with a word. -/
theorem holds_emptySize {backing : Backing}
    (hshort : emptySize region settings < 0x8000000000000000) :
    backing.holds (emptySize region settings) = true := by
  have hmod : emptySize region settings % 8 = 0 := by
    unfold emptySize baseOf
    omega
  cases backing with
  | owned =>
    simp only [Backing.holds, decide_eq_true_eq]
    omega
  | reserved => rfl

namespace LaysOut

theorem classes_eq (hl : LaysOut region settings h) :
    h.index.size = settings.thresholds.length + 1 := by
  have hthresholds := hl.realizes.thresholds_eq
  rw [hl.settings_eq] at hthresholds
  exact congrArg (·.length + 1) hthresholds

theorem size_eq (hl : LaysOut region settings h) : h.memory.size = emptySize region settings := by
  have hsize := hl.realizes.size_eq
  have hstart := hl.realizes.start_eq
  rw [hl.base_eq, hl.classes_eq] at hstart
  rw [← hsize, hstart]
  rfl

theorem isNew (hl : LaysOut region settings h) : h.IsNew region settings := by
  have hr := hl.realizes
  have hstart := hr.start_eq
  have hclasses := hl.classes_eq
  refine ⟨hl.size_eq, hl.base_eq, hclasses, ?_, hr.start_mod, by omega,
    fun c hc => hr.charted.threaded.members_eq hc, hr.check_eq, ?_, ?_⟩
  · rw [hstart, hl.base_eq, Nat.mul_comm]
  · rw [hr.freeEntries_eq]
    simp [emptyPlan]
  · rw [hr.census_eq, hl.size_eq]
    rfl

/-- What is the same as when the heap was laid out is intact. -/
theorem intact (hl : LaysOut region settings h) {m : Memory} (hsize : h.start ≤ m.size)
    (hm : ∀ i, h.Foreign i → m.byte i = h.memory.byte i) : Intact region settings m := by
  have hbase := hl.base_eq
  constructor
  · intro i hi
    rw [← hbase] at hi
    rw [hm i (.inl hi)]
    exact hl.keeps.byte_eq i fun w hw => .inl (Nat.lt_of_lt_of_le hi hw)
  · intro c hc
    rw [← hl.classes_eq] at hc
    have hle := hl.realizes.charted.head_le hc
    have hhead : h.index.headAt c = baseOf region + c * 24 := by rw [← hbase]; rfl
    have htag := Memory.readWord_eq_ok_iff.mp (hl.fresh c hc).tag_eq
    rw [← hhead, Memory.readWord_eq_ok_iff, ← htag.2]
    refine ⟨by omega, congrArg _ (Memory.load_congr fun j hj hj' => hm j (.inr ⟨c, hc, hj, hj'⟩))⟩

end LaysOut

end Heap

namespace Session

variable {region : Region} {settings : Settings} {s s' : Session} {P P' : Plan} {q : Option Handle}
  {i : Nat}

theorem Effect.foreign_eq (hs : s.Sound P) (he : s.Effect P q s' P') (hi : s.heap.Foreign i) :
    s'.heap.memory.byte i = s.heap.memory.byte i := by
  have hr := hs.realizes
  cases he with
  | idle => rfl
  | grants _ _ hg => exact hi.of_gives hr hg
  | retires _ hk ht => exact hi.of_takes hr ht hk
  | fits _ _ _ => rfl
  | enlarges _ hk _ he => exact hi.of_enlarges hr he hk
  | moves _ hk _ hsize hm => exact hi.of_moves hr hm hk (Nat.min_le_right _ _) (by omega)
  | writes _ hk _ _ hbyte =>
    have hplace := (hr.place_bounds hk).1
    have hstart := hi.lt_start hr
    exact hbyte i (.inl (by omega))

/-- In every reachable session these bytes are what they were when the heap was laid out. -/
theorem Reachable.foreign_eq (hs : Reachable region settings s) :
    ∃ h, (Heap.init region settings).result = .ok (.ok h) ∧ s.heap.index = h.index ∧
      ∀ i, h.Foreign i → s.heap.memory.byte i = h.memory.byte i := by
  induction hs with
  | init hinit => exact ⟨_, hinit, rfl, fun _ _ => rfl⟩
  | step hs hpermits hexec ih =>
    obtain ⟨h, hinit, hindex, hbytes⟩ := ih
    obtain ⟨P, hP⟩ := hs.exists_sound
    obtain ⟨P', he⟩ := exec_effect hP hpermits hexec
    refine ⟨h, hinit, ?_, fun i hi => ?_⟩
    · rw [he.heap_eq, Heap.index_withMemory, hindex]
    · rw [he.foreign_eq hP (by rwa [Heap.Foreign, hindex]), hbytes i hi]

theorem Reachable.intact (hs : Reachable region settings s) :
    Heap.Intact region settings s.heap.memory := by
  obtain ⟨h, hinit, hindex, hbytes⟩ := hs.foreign_eq
  obtain ⟨P, hP⟩ := hs.exists_sound
  obtain ⟨-, -, hlaid⟩ := Heap.laysOut_of_init hinit
  have hsize := hP.realizes.size_eq
  have hstart := hP.realizes.start_eq
  have hstart' := hlaid.realizes.start_eq
  rw [hindex] at hstart
  exact hlaid.intact (by omega) hbytes

/-- A heap can be laid out in a region, whatever bytes it has, exactly if the heads of its lists and
    the epilogue fit behind the next aligned offset; it is empty then. Invalid settings are refused.
    In every session that starts so, the bytes before the heads and the tags of the heads stay as
    they were. As long as it is within the limit, no memory is as long as half the address range. -/
theorem initializes (region : Region) (settings : Settings)
    (hlen : Heap.emptySize region settings ≤ region.limit →
      Heap.emptySize region settings < 0x8000000000000000) :
    (∀ objection, settings.validate = .error objection →
      (Heap.init region settings).result = .ok (.error (.invalidSettings objection))) ∧
    (settings.validate = .ok () →
      ((∃ h, (Heap.init region settings).result = .ok (.ok h)) ↔
        Heap.emptySize region settings ≤ region.limit) ∧
      (region.limit < Heap.emptySize region settings →
        Heap.emptySize region settings < Word.limit →
        (Heap.init region settings).result = .ok (.error (.outOfMemory
          (Heap.emptySize region settings - region.size) region.size region.limit)))) ∧
    (∀ h, (Heap.init region settings).result = .ok (.ok h) → h.IsNew region settings) ∧
    ∀ s, Reachable region settings s → Heap.Intact region settings s.heap.memory := by
  refine ⟨fun objection hobjection => ?_, fun hvalid => ⟨⟨?_, fun hle => ?_⟩, fun hlt hword => ?_⟩,
    fun h hinit => (Heap.laysOut_of_init hinit).2.2.isNew, fun s hs => hs.intact⟩
  · rw [Heap.init, hobjection]
    rfl
  · rintro ⟨h, hinit⟩
    exact (Heap.laysOut_of_init hinit).2.1
  · have hshort := hlen hle
    have hword : Heap.emptySize region settings < Word.limit := hshort.trans (by decide)
    obtain ⟨h, hinit, -⟩ := Heap.exists_init hvalid hword hle (Heap.holds_emptySize hshort)
    exact ⟨h, hinit⟩
  · exact Heap.init_refused hvalid hword hlt

/-- Behind thirteen bytes, three of which are not zero, the heads begin at the sixteenth. A run leaves
    those bytes and the tags alone; a limit that is one byte too low is refused. -/
theorem initializes_of_run : ∃ s,
    (start? ⟨.owned, 4096, (Memory.zeroed 13).store 5 [1, 2, 3]⟩ {}).bind (fun t => t.run?
      [.allocate 16, .allocate 40, .free (some ⟨120, by decide⟩), .write ⟨152, by decide⟩ 8 [7, 8],
        .resize (some ⟨152, by decide⟩) 300]) = some s ∧
    Heap.emptySize ⟨.owned, 4096, (Memory.zeroed 13).store 5 [1, 2, 3]⟩ {} = 120 ∧
    (∃ h : Heap,
      (Heap.init (⟨.owned, 4096, (Memory.zeroed 13).store 5 [1, 2, 3]⟩ : Region) {}).result =
        .ok (.ok h) ∧ h.IsNew ⟨.owned, 4096, (Memory.zeroed 13).store 5 [1, 2, 3]⟩ {}) ∧
    s.heap.memory.byte 6 = 2 ∧ s.heap.memory.readWord 40 = .ok (Tag.inUse 0 true).pack ∧
    (Heap.init (⟨.owned, 119, (Memory.zeroed 13).store 5 [1, 2, 3]⟩ : Region) {}).result =
      .ok (.error (.outOfMemory 107 13 119)) := by
  have hrun : ((start? ⟨.owned, 4096, (Memory.zeroed 13).store 5 [1, 2, 3]⟩ {}).bind
      (fun t => t.run? [.allocate 16, .allocate 40, .free (some ⟨120, by decide⟩),
        .write ⟨152, by decide⟩ 8 [7, 8], .resize (some ⟨152, by decide⟩) 300])).isSome = true := by
    decide +kernel
  obtain ⟨s, hs⟩ := Option.isSome_iff_exists.mp hrun
  obtain ⟨-, hvalid, hnew, hintact⟩ :=
    initializes ⟨.owned, 4096, (Memory.zeroed 13).store 5 [1, 2, 3]⟩ {} (by decide +kernel)
  obtain ⟨-, hrefused, -, -⟩ :=
    initializes ⟨.owned, 119, (Memory.zeroed 13).store 5 [1, 2, 3]⟩ {} (by decide +kernel)
  obtain ⟨h, hinit⟩ := (hvalid rfl).1.mpr (by decide +kernel)
  have hbytes := hintact s (reachable_iff.mpr ⟨_, hs⟩)
  have hbyte : ((Memory.zeroed 13).store 5 [1, 2, 3]).byte 6 = 2 := by decide +kernel
  refine ⟨s, hs, by decide +kernel, ⟨h, hinit, hnew h hinit⟩, ?_, ?_, ?_⟩
  · rw [hbytes.byte_eq 6 (by decide +kernel)]
    exact hbyte
  · exact hbytes.tag_eq 1 (by decide)
  · exact (hrefused rfl).2 (by decide +kernel) (by decide +kernel)

end Session

end BoundaryTag
