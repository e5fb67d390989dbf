import BoundaryTag.Proofs.Heap.Outcome

set_option autoImplicit false

/-! # A new heap

Laying out an empty heap writes the heads of the lists, each linked to itself, and the epilogue
behind them (`exists_resetFirst`, `exists_layOut`). With settings that are valid, all that `init` needs is
that the region can grow so far (`init_eq`); whenever it answers a heap, that heap realizes the empty
plan behind the bytes that the region had, whatever they are (`laysOut_of_init`). -/

namespace BoundaryTag

open Memory (Touches Within Keeps)

namespace FreeIndex

variable {x : FreeIndex} {m m' : Memory} {c n : Nat} {ws : List Nat}

/-- The head of a class as it is first written: its tag says that it is in use, and it links to
    itself. -/
structure Fresh (x : FreeIndex) (m : Memory) (c : Nat) : Prop where
  tag_eq : m.readWord (x.headAt c) = .ok (Tag.inUse 0 true).pack
  linked : m.Linked (x.headAt c) (x.headAt c)

theorem Fresh.of_touches (h : x.Fresh m c) (ht : Touches ws m m')
    (hws : ∀ w ∈ ws, x.headAt c + 24 ≤ w ∨ w + 8 ≤ x.headAt c) : x.Fresh m' c := by
  refine ⟨?_, h.linked.congr (ht.readWord_eq fun w hw => ?_) (ht.readWord_eq fun w hw => ?_)⟩
  · rw [ht.readWord_eq fun w hw => ?_, h.tag_eq]
    have := hws w hw
    omega
  all_goals
    have := hws w hw
    omega

theorem exists_resetHead (hlim : m.size < Word.limit) (hc : x.headAt c + 24 ≤ m.size) :
    ∃ m', x.resetHead m c = .ok m' ∧ x.Fresh m' c ∧
      Touches [x.headAt c, x.headAt c + 8, x.headAt c + 16] m m' := by
  have hhead : x.head c = .ok (x.headAt c) := head_eq_ok_iff.mpr ⟨rfl, by omega⟩
  obtain ⟨m₁, hm₁, hr₁, ht₁⟩ := Memory.exists_setHeader (m := m) (i := x.headAt c)
    (t := Tag.inUse 0 true) (by omega) (by decide)
  have hs₁ := ht₁.size_eq
  obtain ⟨m₂, hm₂, hr₂, ht₂⟩ := Memory.exists_setNextLink (m := m₁) (i := x.headAt c)
    (w := x.headAt c) (by omega) (by omega) (by omega)
  have hs₂ := ht₂.size_eq
  obtain ⟨m₃, hm₃, hr₃, ht₃⟩ := Memory.exists_setPriorLink (m := m₂) (i := x.headAt c)
    (w := x.headAt c) (by omega) (by omega) (by omega)
  refine ⟨m₃, ?_, ⟨?_, ?_, hr₃⟩, (ht₁.trans ht₂).trans ht₃⟩
  · simp only [resetHead, hhead, hm₁, hm₂, hm₃, ok_bind]
  · rw [ht₃.readWord_eq (by simp only [List.forall_mem_singleton]; omega),
      ht₂.readWord_eq (by simp only [List.forall_mem_singleton]; omega), hr₁]
  · rw [ht₃.readWord_eq (by simp only [List.forall_mem_singleton]; omega), hr₂]

/-- The heads of the first `n` classes can be written, one after another. -/
theorem exists_resetFirst (hlim : m.size < Word.limit) (hn : x.base + n * 24 ≤ m.size) :
    ∃ m', (List.range n).foldlM x.resetHead m = .ok m' ∧ (∀ c < n, x.Fresh m' c) ∧
      Within (fun w => x.base ≤ w ∧ w + 8 ≤ x.base + n * 24) m m' := by
  induction n with
  | zero => exact ⟨m, rfl, fun c hc => absurd hc (Nat.not_lt_zero c), Within.refl _ m⟩
  | succ n ih =>
    obtain ⟨m₁, hm₁, hfresh, hw₁⟩ := ih (by omega)
    have hs₁ := hw₁.size_eq
    have hhead : x.headAt n = x.base + n * 24 := rfl
    obtain ⟨m₂, hm₂, hfresh₂, ht₂⟩ := x.exists_resetHead (m := m₁) (c := n) (by omega) (by omega)
    refine ⟨m₂, ?_, fun c hc => ?_, (hw₁.mono fun w hw => by omega).trans (ht₂.within ?_)⟩
    · rw [List.range_succ, List.foldlM_append, hm₁, ok_bind, List.foldlM_cons, hm₂, ok_bind]
      rfl
    · rcases Nat.lt_succ_iff_lt_or_eq.mp hc with hlt | rfl
      · have hbelow : x.headAt c + 24 ≤ x.headAt n := by
          unfold headAt
          omega
        refine (hfresh c hlt).of_touches ht₂ fun w hw => ?_
        simp only [List.mem_cons, List.not_mem_nil, or_false] at hw
        omega
      · exact hfresh₂
    · intro w hw
      simp only [List.mem_cons, List.not_mem_nil, or_false] at hw
      omega

/-- Heads that link to themselves are empty lists. -/
theorem threaded_empty (hlim : m.size < Word.limit)
    (hlinked : ∀ c < x.size, m.Linked (x.headAt c) (x.headAt c)) : x.Threaded m fun _ => [] where
  addressable := hlim
  ring c hc := Memory.ring_nil_iff.mpr (hlinked c hc)
  nodup c hc := by simp [cycle]
  apart c hc d hd u hu v hv := by
    simp only [cycle, List.mem_singleton] at hu hv
    subst hu hv
    unfold headAt
    omega

end FreeIndex

namespace Heap

variable {x : FreeIndex} {m : Memory} {region : Region} {settings : Settings} {h : Heap}

/-- The plan of an empty heap. -/
def emptyPlan : Plan :=
  ⟨[], fun _ => []⟩

/-- The heads and the epilogue can be written into a memory that ends after them. -/
theorem exists_layOut (hlim : m.size < Word.limit) (hsize : x.base + x.size * 24 + 8 = m.size) :
    ∃ m₁ m₂, x.reset m = .ok m₁ ∧ setEpilogue m₁ (x.base + x.size * 24) = .ok m₂ ∧
      Charted x (x.base + x.size * 24) m₂ (Span.tags (x.base + x.size * 24) true []) (fun _ => []) ∧
      (∀ c < x.size, x.Fresh m₂ c) ∧ Within (fun w => x.base ≤ w) m m₂ := by
  obtain ⟨m₁, hm₁, hfresh, hw₁⟩ := x.exists_resetFirst (n := x.size) hlim (by omega)
  have hs₁ := hw₁.size_eq
  obtain ⟨m₂, hm₂, hr₂, ht₂⟩ := Memory.exists_setHeader (m := m₁) (i := x.base + x.size * 24)
    (t := Tag.inUse 8 true) (by omega) (by decide)
  have hs₂ := ht₂.size_eq
  have hfresh₂ : ∀ c < x.size, x.Fresh m₂ c := by
    intro c hc
    refine (hfresh c hc).of_touches ht₂ ?_
    rw [List.forall_mem_singleton]
    unfold FreeIndex.headAt
    omega
  refine ⟨m₁, m₂, hm₁, hm₂, ?_, hfresh₂, (hw₁.mono fun w hw => hw.1).trans (ht₂.within ?_)⟩
  · refine ⟨Nat.le_refl _, by simp, ?_, ?_, ?_, ?_,
      FreeIndex.threaded_empty (by omega) fun c hc => (hfresh₂ c hc).linked,
      fun c _ u hu => absurd hu List.not_mem_nil⟩ <;>
      simp only [Span.tags_nil, List.forall_mem_singleton]
    · exact Span.proper_of_mem_tags (List.forall_mem_nil _) List.mem_cons_self
    · exact Nat.le_refl _
    · show x.base + x.size * 24 + 8 ≤ m₂.size
      omega
    · simp only [Memory.Marked, Block.tagWords, Span.epilogue, if_true, List.forall_mem_singleton]
      exact hr₂
  · rw [List.forall_mem_singleton]
    exact Nat.le_add_right _ _

/-! ## From the region to the heap -/

/-- The first aligned offset behind the bytes of a region. -/
def baseOf (region : Region) : Nat :=
  (region.size + 7) / 8 * 8

/-- How many bytes there are once an empty heap is laid out: the heads of the lists and the epilogue
    follow the base. -/
def emptySize (region : Region) (settings : Settings) : Nat :=
  baseOf region + (settings.thresholds.length + 1) * 24 + 8

theorem size_le_emptySize (region : Region) (settings : Settings) :
    region.size ≤ emptySize region settings := by
  unfold emptySize baseOf
  omega

/-- The table of valid settings has their thresholds. -/
theorem exists_classTable (hvalid : settings.validate = .ok ()) : ∃ classes : ClassTable,
    settings.classTable = .ok classes ∧ classes.size = settings.thresholds.length + 1 ∧
      classes.thresholds = settings.thresholds :=
  ⟨⟨_, (Settings.validate_eq_ok_iff.mp hvalid).2.1⟩, dif_pos _, rfl, rfl⟩

/-- If there is an answer, the size of the whole is a word. -/
theorem emptySize_lt_of_init {answer : Except Refusal Heap} (hvalid : settings.validate = .ok ())
    (hinit : (init region settings).result = .ok answer) :
    emptySize region settings < Word.limit := by
  obtain ⟨classes, hclasses, hcount, -⟩ := exists_classTable hvalid
  rw [init, hvalid] at hinit
  simp only [Traced.result_bind_eq_ok_iff, Traced.result_lift, hclasses] at hinit
  obtain ⟨base, hbase, _, hsame, bytes, hbytes, start, hstart, stop, hstop, -⟩ := hinit
  cases hsame
  obtain ⟨-, rfl⟩ := Word.align_eq_ok_iff.mp hbase
  obtain ⟨rfl, -⟩ := Word.mul_eq_ok_iff.mp hbytes
  obtain ⟨rfl, -⟩ := Word.add_eq_ok_iff.mp hstart
  obtain ⟨rfl, hlt⟩ := Word.add_eq_ok_iff.mp hstop
  rw [emptySize, ← hcount]
  exact hlt

/-- With valid settings everything hangs on whether the region grows so far. -/
theorem init_eq (hvalid : settings.validate = .ok ())
    (hlt : emptySize region settings < Word.limit) :
    ∃ x : FreeIndex, x.base = baseOf region ∧ x.size = settings.thresholds.length + 1 ∧
      x.classes.thresholds = settings.thresholds ∧ (init region settings).result =
        (region.extend (emptySize region settings - region.size)).result >>= fun r =>
          match r with
          | (.error refusal, _) => .ok (.error refusal)
          | (.ok _, grown) => do
            let m ← x.reset grown.memory
            let m ← setEpilogue m (x.base + x.size * 24)
            return .ok ⟨{ grown with memory := m }, x, settings, x.base + x.size * 24⟩ := by
  obtain ⟨classes, hclasses, hcount, hthresholds⟩ := exists_classTable hvalid
  refine ⟨⟨classes, baseOf region⟩, rfl, hcount, hthresholds, ?_⟩
  have hbase : baseOf region = (region.size + 7) / 8 * 8 := rfl
  have htotal : emptySize region settings = baseOf region + classes.size * 24 + 8 := by
    rw [hcount]
    rfl
  have halign : Word.align region.size = .ok (baseOf region) :=
    Word.align_eq_ok_iff.mpr ⟨by omega, rfl⟩
  have hbytes : (⟨classes, baseOf region⟩ : FreeIndex).headsBytes = .ok (classes.size * 24) :=
    Word.mul_eq_ok_iff.mpr ⟨rfl, by omega⟩
  have hstart : Word.add (baseOf region) (classes.size * 24) =
      .ok (baseOf region + classes.size * 24) := Word.add_eq_ok_iff.mpr ⟨rfl, by omega⟩
  have hstop : Word.add (baseOf region + classes.size * 24) Block.epilogueBytes =
      .ok (emptySize region settings) := Word.add_eq_ok_iff.mpr ⟨htotal.symm, hlt⟩
  have hmore : Word.sub (emptySize region settings) region.size =
      .ok (emptySize region settings - region.size) := Word.sub_eq_ok_iff.mpr (by omega)
  rw [init, hvalid]
  simp only [Region.provider_size, Traced.result_bind, Traced.result_lift, halign, hclasses, hbytes,
    hstart, hstop, hmore, ok_bind, Region.provider_extend]
  congr 1
  funext r
  obtain ⟨answer, grown⟩ := r
  cases answer with
  | error refusal => rfl
  | ok n => simp only [Traced.result_bind, Traced.result_lift, Traced.result_record, ok_bind]; rfl

/-- An empty heap behind the bytes that the region had. -/
structure LaysOut (region : Region) (settings : Settings) (h : Heap) : Prop where
  region_eq : h.region = { region with memory := h.memory }
  settings_eq : h.settings = settings
  base_eq : h.index.base = baseOf region
  realizes : h.Realizes emptyPlan
  fresh : ∀ c < h.index.size, h.index.Fresh h.memory c
  keeps : Keeps (fun w => h.index.base ≤ w) region.memory h.memory

/-- A region that grows so far has an empty heap then. -/
theorem exists_init (hvalid : settings.validate = .ok ())
    (hlt : emptySize region settings < Word.limit) (hle : emptySize region settings ≤ region.limit)
    (hholds : region.backing.holds (emptySize region settings) = true) :
    ∃ h, (init region settings).result = .ok (.ok h) ∧ LaysOut region settings h := by
  obtain ⟨x, hbase, hcount, hthresholds, hinit⟩ := init_eq hvalid hlt
  have hfits := Nat.add_sub_of_le (size_le_emptySize region settings)
  have hext : (region.extend (emptySize region settings - region.size)).result =
      .ok (.ok region.size, { region with
        memory := region.memory.grow (emptySize region settings - region.size) }) :=
    Region.result_extend_of_le (by omega) (by omega) (by rwa [hfits])
  have hgrown : (region.memory.grow (emptySize region settings - region.size)).size =
      emptySize region settings := hfits
  have hsize : x.base + x.size * 24 + 8 =
      (region.memory.grow (emptySize region settings - region.size)).size := by
    rw [hgrown, hbase, hcount]
    rfl
  obtain ⟨m₁, m₂, hm₁, hm₂, hcharted, hfresh, hw⟩ := exists_layOut (by omega) hsize
  refine ⟨⟨{ region with memory := m₂ }, x, settings, x.base + x.size * 24⟩, ?_, rfl, rfl, hbase,
    ⟨hvalid, hthresholds, ?_, rfl, hsize.trans hw.size_eq.symm, List.forall_mem_nil _, trivial,
      hcharted, trivial⟩, hfresh, (Keeps.grow _ _ _).trans hw.keeps⟩
  · rw [hinit, hext, ok_bind]
    simp only [hm₁, hm₂, ok_bind]
    rfl
  · show x.base % 8 = 0
    rw [hbase]
    exact Nat.mul_mod_left _ 8

/-- A region that may not grow so far refuses, and there is no heap. -/
theorem init_refused (hvalid : settings.validate = .ok ())
    (hlt : emptySize region settings < Word.limit) (hle : region.limit < emptySize region settings) :
    (init region settings).result = .ok (.error (.outOfMemory
      (emptySize region settings - region.size) region.size region.limit)) := by
  obtain ⟨x, -, -, -, hinit⟩ := init_eq hvalid hlt
  rw [hinit, Region.result_extend_of_lt (by omega)]
  rfl

/-- A heap is only answered where the region grows so far, and it is laid out then. -/
theorem laysOut_of_init (hinit : (init region settings).result = .ok (.ok h)) :
    settings.validate = .ok () ∧ emptySize region settings ≤ region.limit ∧
      LaysOut region settings h := by
  cases hvalid : settings.validate with
  | error objection =>
    rw [init, hvalid] at hinit
    cases hinit
  | ok u =>
    have hlt := emptySize_lt_of_init hvalid hinit
    have hfits := Nat.add_sub_of_le (size_le_emptySize region settings)
    obtain ⟨x, -, -, -, heq⟩ := init_eq hvalid hlt
    rcases region.result_extend_cases (emptySize region settings - region.size) with
      ⟨-, hle, hholds, -⟩ | ⟨-, -, -, hext⟩ | ⟨-, hext⟩
    · rw [hfits] at hle hholds
      obtain ⟨h', hinit', hlaid⟩ := exists_init hvalid hlt hle hholds
      cases hinit.symm.trans hinit'
      exact ⟨rfl, hle, hlaid⟩
    · rw [hext] at heq
      cases hinit.symm.trans heq
    · rw [hext] at heq
      cases hinit.symm.trans heq

/-- Whatever heap `init` answers is laid out, empty, behind the bytes that the region had. -/
theorem realizes_of_init (hinit : (init region settings).result = .ok (.ok h)) :
    h.Realizes emptyPlan ∧ h.settings = settings ∧
      Keeps (fun w => h.index.base ≤ w) region.memory h.memory := by
  obtain ⟨-, -, hlaid⟩ := laysOut_of_init hinit
  exact ⟨hlaid.realizes, hlaid.settings_eq, hlaid.keeps⟩

/-- Laying out a heap only changes the bytes of the region. -/
theorem region_of_init (hinit : (init region settings).result = .ok (.ok h)) :
    h.region = { region with memory := h.memory } :=
  (laysOut_of_init hinit).2.2.region_eq

end Heap

end BoundaryTag
