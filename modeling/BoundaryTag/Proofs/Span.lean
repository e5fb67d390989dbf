import BoundaryTag.Layout
import BoundaryTag.Proofs.Memory.Frame

set_option autoImplicit false

/-! # Spans and the blocks that show them

What a heap's blocks are, apart from where they lie: a row of spans, each with a size and a state.
`Span.layout` places a row side by side and so gives every block its offset and the flag of the
block before it; `Span.tags` adds the epilogue. Blocks of a layout do not overlap
(`Span.sorted_layout`), and each comes from one span of the row (`Span.exists_of_mem_layout`).

`Memory.Marked` says that a memory shows a block: its tag words hold its tag. -/

namespace BoundaryTag

/-! ## Blocks -/

namespace Block

/-- The first offset after the block. -/
def stop (b : Block) : Nat :=
  b.offset + b.tag.size

/-- The block with another flag for the block before. -/
def withPrev (b : Block) (prev : Bool) : Block :=
  ⟨b.offset, { b.tag with prevAllocated := prev }⟩

/-- A block that can be read back: its size is a whole number of words, and a free one has room for
    two tags and two links. -/
structure Proper (b : Block) : Prop where
  size_mod : b.tag.size % 8 = 0
  word_le : 8 ≤ b.tag.size
  least_le : b.tag.allocated = false → 32 ≤ b.tag.size

/-- Where the tag of the block is written: in its header, and in its footer if it is free. -/
def tagWords (b : Block) : List Nat :=
  if b.tag.allocated then [b.offset] else [b.offset, b.stop - 8]

@[simp] theorem offset_withPrev (b : Block) (prev : Bool) : (b.withPrev prev).offset = b.offset :=
  rfl

@[simp] theorem size_withPrev (b : Block) (prev : Bool) :
    (b.withPrev prev).tag.size = b.tag.size := rfl

@[simp] theorem allocated_withPrev (b : Block) (prev : Bool) :
    (b.withPrev prev).tag.allocated = b.tag.allocated := rfl

@[simp] theorem stop_withPrev (b : Block) (prev : Bool) : (b.withPrev prev).stop = b.stop := rfl

@[simp] theorem tagWords_withPrev (b : Block) (prev : Bool) :
    (b.withPrev prev).tagWords = b.tagWords := rfl

theorem Proper.withPrev {b : Block} (h : b.Proper) (prev : Bool) : (b.withPrev prev).Proper :=
  ⟨h.size_mod, h.word_le, h.least_le⟩

theorem offset_mem_tagWords (b : Block) : b.offset ∈ b.tagWords := by
  unfold tagWords
  split <;> simp

/-- Tag words lie inside their block. -/
theorem Proper.le_of_mem_tagWords {b : Block} (h : b.Proper) {w : Nat} (hw : w ∈ b.tagWords) :
    b.offset ≤ w ∧ w + 8 ≤ b.stop := by
  have := h.word_le
  unfold tagWords at hw
  unfold stop at *
  split at hw <;> simp only [List.mem_cons, List.not_mem_nil, or_false] at hw <;> omega

end Block

/-- The memory shows the block: its tag stands in each of its tag words. -/
def Memory.Marked (m : Memory) (b : Block) : Prop :=
  ∀ i ∈ b.tagWords, m.readWord i = .ok b.tag.pack

namespace Memory

variable {m m' : Memory} {b : Block} {ws : List Nat}

theorem Marked.header (h : m.Marked b) : m.readWord b.offset = .ok b.tag.pack :=
  h _ b.offset_mem_tagWords

theorem Marked.footer (h : m.Marked b) (hfree : b.tag.allocated = false) :
    m.readWord (b.stop - 8) = .ok b.tag.pack := by
  refine h _ ?_
  simp [Block.tagWords, hfree]

theorem Marked.tagAt (h : m.Marked b) (hb : b.Proper) : m.tagAt b.offset = .ok b.tag :=
  tagAt_of_readWord h.header hb.size_mod

theorem Marked.sizeAt (h : m.Marked b) (hb : b.Proper) : m.sizeAt b.offset = .ok b.tag.size :=
  sizeAt_of_tagAt (h.tagAt hb)

theorem Marked.freeAt (h : m.Marked b) (hb : b.Proper) :
    m.freeAt b.offset = .ok !b.tag.allocated :=
  freeAt_of_tagAt (h.tagAt hb)

theorem Marked.prevAllocatedAt (h : m.Marked b) (hb : b.Proper) :
    m.prevAllocatedAt b.offset = .ok b.tag.prevAllocated :=
  prevAllocatedAt_of_tagAt (h.tagAt hb)

theorem Marked.successor (h : m.Marked b) (hb : b.Proper) (hlim : b.stop < Word.limit) :
    m.successor b.offset = .ok b.stop := by
  rw [Memory.successor, h.sizeAt hb]
  exact Word.add_eq_ok_iff.mpr ⟨rfl, hlim⟩

/-- The footer of a free block leads back from its end to its start. -/
theorem Marked.predecessor (h : m.Marked b) (hb : b.Proper) (hfree : b.tag.allocated = false) :
    m.predecessor b.stop = .ok b.offset := by
  have := hb.word_le
  have hsub : Word.sub b.stop Block.footerBytes = .ok (b.stop - 8) :=
    Word.sub_eq_ok_iff.mpr (by unfold Block.footerBytes Block.stop; omega)
  have hback : Word.sub b.stop b.tag.size = .ok b.offset :=
    Word.sub_eq_ok_iff.mpr (by unfold Block.stop; omega)
  have htag := tagAt_of_readWord (h.footer hfree) hb.size_mod
  simp only [Memory.predecessor, hsub, htag, hback, bind, Except.bind]

theorem Marked.of_touches (h : m.Marked b) (ht : Touches ws m m')
    (hd : ∀ i ∈ b.tagWords, ∀ w ∈ ws, i + 8 ≤ w ∨ w + 8 ≤ i) : m'.Marked b := by
  intro i hi
  rw [ht.readWord_eq (hd i hi), h i hi]

/-- Recording the state of the block before keeps the block marked, with the new flag. -/
theorem Marked.exists_markPrevAllocated (h : m.Marked b) (hb : b.Proper)
    (hlim : m.size < Word.limit) (hstop : b.stop ≤ m.size) (prev : Bool) :
    ∃ m', m.markPrevAllocated b.offset prev = .ok m' ∧ m'.Marked (b.withPrev prev) ∧
      Touches b.tagWords m m' := by
  have htag := h.tagAt hb
  have hword := hb.word_le
  have hleast := hb.least_le
  have hend : b.offset + b.tag.size ≤ m.size := hstop
  obtain ⟨o, ⟨size, allocated, flag⟩⟩ := b
  dsimp only at htag hword hleast hend
  obtain ⟨m₁, h₁, hr₁, ht₁⟩ := exists_setHeader (m := m) (i := o)
    (t := ⟨size, allocated, prev⟩) (by omega) (by dsimp only; omega)
  cases allocated with
  | true =>
    refine ⟨m₁, ?_, ?_, ht₁⟩
    · simp [markPrevAllocated, htag, bind, Except.bind, h₁, pure, Except.pure]
    · simpa [Marked, Block.tagWords, Block.withPrev] using hr₁
  | false =>
    have hbig : Block.least ≤ size := hleast rfl
    obtain ⟨m₂, h₂, hr₂, ht₂⟩ := exists_setFooter (m := m₁) (i := o)
      (t := ⟨size, false, prev⟩) (by rw [ht₁.size_eq]; exact hlim) hword
      (by rw [ht₁.size_eq]; exact hend)
    have hkept := ht₂.readWord_eq (i := o) (by
      simp only [List.forall_mem_singleton]
      have := hleast rfl
      omega)
    refine ⟨m₂, ?_, ?_, ht₁.trans ht₂⟩
    · simp only [markPrevAllocated, htag, bind, Except.bind, h₁, h₂, hbig, Bool.not_false,
        decide_true, Bool.and_self, if_true]
    · simp only [Marked, Block.tagWords, Block.withPrev, Bool.false_eq_true, if_false,
        List.mem_cons, List.not_mem_nil, or_false]
      rintro i (rfl | rfl)
      · rw [hkept]
        exact hr₁
      · exact hr₂

end Memory

/-! ## Rows of spans -/

/-- A stretch of a heap: how long it is, and whether the client has it. -/
structure Span where
  size : Nat
  allocated : Bool
  deriving DecidableEq, Repr

namespace Span

/-- Block sizes are whole words and never below the least block. -/
def Proper (s : Span) : Prop :=
  32 ≤ s.size ∧ s.size % 8 = 0

/-- Bytes of a row. -/
def total : List Span → Nat
  | [] => 0
  | s :: ss => s.size + total ss

/-- Whether what comes right before the end of a row is allocated; `prev` is the answer for what
    comes before the row. -/
def lastAllocated : Bool → List Span → Bool
  | prev, [] => prev
  | _, s :: ss => lastAllocated s.allocated ss

/-- Whether what comes right after the start of a row is allocated; after all spans comes the
    epilogue, which counts as allocated. -/
def nextAllocated : List Span → Bool
  | [] => true
  | s :: _ => s.allocated

/-- No two free spans touch; `prev` tells whether what comes before the row is allocated. -/
def Coalesced : Bool → List Span → Prop
  | _, [] => True
  | prev, s :: ss => (prev = true ∨ s.allocated = true) ∧ Coalesced s.allocated ss

/-- The spans side by side from `o` on, as blocks. -/
def layout : Nat → Bool → List Span → List Block
  | _, _, [] => []
  | o, prev, s :: ss => ⟨o, ⟨s.size, s.allocated, prev⟩⟩ :: layout (o + s.size) s.allocated ss

/-- The tag that ends a heap: one word, allocated. -/
def epilogue (o : Nat) (prev : Bool) : Block :=
  ⟨o, ⟨8, true, prev⟩⟩

/-- The blocks of a row and the epilogue after them. -/
def tags (o : Nat) (prev : Bool) (ss : List Span) : List Block :=
  layout o prev ss ++ [epilogue (o + total ss) (lastAllocated prev ss)]

variable {o : Nat} {prev : Bool} {s : Span} {ss ts : List Span} {b : Block}

@[simp] theorem total_nil : total [] = 0 := rfl

@[simp] theorem total_cons (s : Span) (ss : List Span) : total (s :: ss) = s.size + total ss := rfl

@[simp] theorem total_append (ss ts : List Span) : total (ss ++ ts) = total ss + total ts := by
  induction ss with
  | nil => simp
  | cons s ss ih => simp [ih, Nat.add_assoc]

@[simp] theorem lastAllocated_nil (prev : Bool) : lastAllocated prev [] = prev := rfl

@[simp] theorem lastAllocated_cons (prev : Bool) (s : Span) (ss : List Span) :
    lastAllocated prev (s :: ss) = lastAllocated s.allocated ss := rfl

@[simp] theorem lastAllocated_append (prev : Bool) (ss ts : List Span) :
    lastAllocated prev (ss ++ ts) = lastAllocated (lastAllocated prev ss) ts := by
  induction ss generalizing prev with
  | nil => rfl
  | cons s ss ih => exact ih s.allocated

@[simp] theorem layout_nil (o : Nat) (prev : Bool) : layout o prev [] = [] := rfl

@[simp] theorem layout_cons (o : Nat) (prev : Bool) (s : Span) (ss : List Span) :
    layout o prev (s :: ss) =
      ⟨o, ⟨s.size, s.allocated, prev⟩⟩ :: layout (o + s.size) s.allocated ss := rfl

theorem layout_append (o : Nat) (prev : Bool) (ss ts : List Span) :
    layout o prev (ss ++ ts) =
      layout o prev ss ++ layout (o + total ss) (lastAllocated prev ss) ts := by
  induction ss generalizing o prev with
  | nil => simp
  | cons s ss ih => simp [ih, Nat.add_assoc]

/-- Blocks show the row that they come from. -/
theorem layout_injective (heq : layout o prev ss = layout o prev ts) : ss = ts := by
  induction ss generalizing o prev ts with
  | nil =>
    cases ts with
    | nil => rfl
    | cons t ts => cases heq
  | cons s ss ih =>
    cases ts with
    | nil => cases heq
    | cons t ts =>
      rw [layout_cons, layout_cons, List.cons.injEq, Block.mk.injEq, Tag.mk.injEq] at heq
      obtain ⟨⟨-, hsize, hall, -⟩, hrest⟩ := heq
      obtain rfl : s = t := by
        cases s
        cases t
        cases hsize
        cases hall
        rfl
      rw [ih hrest]

@[simp] theorem tags_nil (o : Nat) (prev : Bool) : tags o prev [] = [epilogue o prev] := rfl

@[simp] theorem tags_cons (o : Nat) (prev : Bool) (s : Span) (ss : List Span) :
    tags o prev (s :: ss) =
      ⟨o, ⟨s.size, s.allocated, prev⟩⟩ :: tags (o + s.size) s.allocated ss := by
  simp [tags, Nat.add_assoc]

theorem tags_append (o : Nat) (prev : Bool) (ss ts : List Span) :
    tags o prev (ss ++ ts) =
      layout o prev ss ++ tags (o + total ss) (lastAllocated prev ss) ts := by
  simp [tags, layout_append, Nat.add_assoc]

theorem coalesced_append :
    Coalesced prev (ss ++ ts) ↔ Coalesced prev ss ∧ Coalesced (lastAllocated prev ss) ts := by
  induction ss generalizing prev with
  | nil => simp [Coalesced]
  | cons s ss ih => simp [Coalesced, ih, and_assoc]

theorem coalesced_iff :
    Coalesced prev ss ↔ (prev = true ∨ nextAllocated ss = true) ∧ Coalesced true ss := by
  cases ss <;> simp [Coalesced, nextAllocated]

theorem Coalesced.append_left (h : Coalesced prev (ss ++ ts)) : Coalesced prev ss :=
  (coalesced_append.mp h).1

theorem Coalesced.append_right (h : Coalesced prev (ss ++ ts)) : Coalesced true ts :=
  (coalesced_iff.mp (coalesced_append.mp h).2).2

/-! ### Free neighbours -/

/-- A row of at most one free span: the free neighbour that a block may have. -/
def freeSpan : Option Nat → List Span
  | none => []
  | some n => [⟨n, false⟩]

@[simp] theorem freeSpan_none : freeSpan none = [] := rfl

@[simp] theorem freeSpan_some (n : Nat) : freeSpan (some n) = [⟨n, false⟩] := rfl

@[simp] theorem total_freeSpan (n : Option Nat) : total (freeSpan n) = n.getD 0 := by
  cases n <;> simp

@[simp] theorem lastAllocated_freeSpan (prev : Bool) (n : Option Nat) :
    lastAllocated prev (freeSpan n) = (prev && n.isNone) := by
  cases n <;> simp

theorem nextAllocated_freeSpan_append (n : Option Nat) (h : nextAllocated ss = true) :
    nextAllocated (freeSpan n ++ ss) = n.isNone := by
  cases n with
  | none => exact h
  | some n => rfl

/-- In a coalesced row at most one free span comes last. -/
theorem Coalesced.exists_freeSpan_last (h : Coalesced true ss) :
    ∃ before left, ss = before ++ freeSpan left ∧ lastAllocated true before = true := by
  rcases List.eq_nil_or_concat ss with rfl | ⟨before, s, rfl⟩
  · exact ⟨[], none, rfl, rfl⟩
  · rw [List.concat_eq_append, coalesced_append] at h
    obtain ⟨size, allocated⟩ := s
    cases allocated with
    | true => exact ⟨before ++ [⟨size, true⟩], none, by simp, by simp⟩
    | false =>
      refine ⟨before, some size, by simp, ?_⟩
      simpa [Coalesced] using h.2

/-- In a coalesced row at most one free span comes first. -/
theorem Coalesced.exists_freeSpan_first (h : Coalesced prev ss) :
    ∃ right after, ss = freeSpan right ++ after ∧ nextAllocated after = true := by
  cases ss with
  | nil => exact ⟨none, [], rfl, rfl⟩
  | cons s ss =>
    obtain ⟨size, allocated⟩ := s
    cases allocated with
    | true => exact ⟨none, ⟨size, true⟩ :: ss, rfl, rfl⟩
    | false =>
      refine ⟨some size, ss, rfl, ?_⟩
      simpa using (coalesced_iff.mp h.2).1

/-! ### Where blocks lie -/

theorem le_of_mem_layout (hb : b ∈ layout o prev ss) : o ≤ b.offset ∧ b.stop ≤ o + total ss := by
  induction ss generalizing o prev with
  | nil => simp at hb
  | cons s ss ih =>
    rw [layout_cons, List.mem_cons] at hb
    rcases hb with rfl | hb
    · simp only [Block.stop, total_cons]
      omega
    · have := ih hb
      simp only [total_cons]
      omega

theorem le_of_mem_tags (hb : b ∈ tags o prev ss) : o ≤ b.offset ∧ b.stop ≤ o + total ss + 8 := by
  rw [tags, List.mem_append, List.mem_singleton] at hb
  rcases hb with hb | rfl
  · have := le_of_mem_layout hb
    omega
  · simp only [epilogue, Block.stop]
    omega

theorem sorted_layout (o : Nat) (prev : Bool) (ss : List Span) :
    (layout o prev ss).Pairwise (fun a b => a.stop ≤ b.offset) := by
  induction ss generalizing o prev with
  | nil => simp
  | cons s ss ih =>
    rw [layout_cons, List.pairwise_cons]
    exact ⟨fun b hb => (le_of_mem_layout hb).1, ih _ _⟩

theorem proper_of_mem_layout (h : ∀ s ∈ ss, s.Proper) (hb : b ∈ layout o prev ss) : b.Proper := by
  induction ss generalizing o prev with
  | nil => simp at hb
  | cons s ss ih =>
    rw [layout_cons, List.mem_cons] at hb
    rcases hb with rfl | hb
    · have hs := h s List.mem_cons_self
      exact ⟨hs.2, Nat.le_trans (by decide) hs.1, fun _ => hs.1⟩
    · exact ih (fun t ht => h t (List.mem_cons_of_mem s ht)) hb

theorem proper_of_mem_tags (h : ∀ s ∈ ss, s.Proper) (hb : b ∈ tags o prev ss) : b.Proper := by
  rw [tags, List.mem_append, List.mem_singleton] at hb
  rcases hb with hb | rfl
  · exact proper_of_mem_layout h hb
  · exact ⟨by simp [epilogue], Nat.le_refl 8, fun h => by simp [epilogue] at h⟩

/-- A block of a layout comes from a span of the row, and what lies before and after it comes from
    the spans before and after. -/
theorem exists_of_mem_layout (hb : b ∈ layout o prev ss) :
    ∃ before after, ss = before ++ ⟨b.tag.size, b.tag.allocated⟩ :: after ∧
      b.offset = o + total before ∧ b.tag.prevAllocated = lastAllocated prev before := by
  induction ss generalizing o prev with
  | nil => simp at hb
  | cons s ss ih =>
    rw [layout_cons, List.mem_cons] at hb
    rcases hb with rfl | hb
    · exact ⟨[], ss, rfl, rfl, rfl⟩
    · obtain ⟨before, after, hss, ho, hp⟩ := ih hb
      refine ⟨s :: before, after, by rw [hss]; rfl, ?_, hp⟩
      rw [ho, total_cons, Nat.add_assoc]

/-- Only the first of the blocks tells of what comes before them. -/
theorem exists_tags_eq (o : Nat) (ss : List Span) :
    ∃ (first : Block) (rest : List Block), first.offset = o ∧
      first.tag.allocated = nextAllocated ss ∧
      ∀ prev, tags o prev ss = first.withPrev prev :: rest := by
  cases ss with
  | nil => exact ⟨epilogue o true, [], rfl, rfl, fun _ => rfl⟩
  | cons s ss =>
    exact ⟨⟨o, ⟨s.size, s.allocated, true⟩⟩, tags (o + s.size) s.allocated ss, rfl, rfl,
      fun _ => tags_cons _ _ _ _⟩

end Span

/-- A walk over a row meets its blocks. -/
theorem Memory.blocksFrom_eq {m : Memory} {o stop : Nat} {prev : Bool} {ss : List Span}
    (hss : ∀ s ∈ ss, s.Proper) (htag : ∀ b ∈ Span.tags o prev ss, m.tagAt b.offset = .ok b.tag)
    (hstop : o + Span.total ss = stop) (hlim : stop < Word.limit) :
    m.blocksFrom stop o = .ok (Span.layout o prev ss) := by
  induction ss generalizing o prev with
  | nil =>
    rw [Memory.blocksFrom, if_neg (by rw [Span.total_nil] at hstop; omega)]
    rfl
  | cons s ss ih =>
    rw [List.forall_mem_cons] at hss
    rw [Span.tags_cons, List.forall_mem_cons] at htag
    rw [Span.total_cons] at hstop
    have hsize := hss.1.1
    have hadd : Word.add o s.size = .ok (o + s.size) := Word.add_eq_ok_iff.mpr ⟨rfl, by omega⟩
    have hrest := ih hss.2 htag.2 (by omega)
    rw [Memory.blocksFrom, if_pos (by omega), htag.1, ok_bind, dif_neg (by dsimp only; omega)]
    split
    · rename_i fault hfault
      cases hadd.symm.trans hfault
    · rename_i next hnext
      cases hadd.symm.trans hnext
      rw [hrest, Span.layout_cons]
      rfl


end BoundaryTag
