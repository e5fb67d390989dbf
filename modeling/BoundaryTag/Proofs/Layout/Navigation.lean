import BoundaryTag.Proofs.Span

set_option autoImplicit false

/-! # Finding blocks through their tags

The bits of a tag word are its flags and its size, and one that says nothing: packing what a word
says clears that bit (`Tag.pack_unpack`). A free block that was formatted tells its size and its
flags at both ends, so its neighbours are found from either side (`Memory.FreeBlock`), and this
stays so when the state of the block before it is recorded, which changes one bit of each end
(`Memory.tags_navigate`). -/

namespace BoundaryTag

/-! ## Bits -/

theorem Word.testBit_clear {value mask : Nat} (h : value < Word.limit) (hmask : mask < Word.limit)
    (i : Nat) : (Word.clear value mask).testBit i = (value.testBit i && !mask.testBit i) := by
  have hbits : (Word.limit - 1 - mask).testBit i = (decide (i < 64) && !mask.testBit i) := by
    rw [show Word.limit - 1 - mask = 2 ^ 64 - (mask + 1) by unfold Word.limit; omega]
    exact Nat.testBit_two_pow_sub_succ hmask i
  rw [Word.clear, Nat.testBit_and, hbits]
  by_cases hi : i < 64
  · simp [hi]
  · have hnone : value.testBit i = false :=
      Nat.testBit_lt_two_pow (Nat.lt_of_lt_of_le h
        (Nat.pow_le_pow_right (n := 2) (by decide) (Nat.not_lt.mp hi)))
    simp [hnone]

namespace Tag

variable {w : Nat}

/-- The bits of a tag's word: the two flags, one that is clear, and the bits of the size. -/
theorem testBit_pack (t : Tag) (i : Nat) : t.pack.testBit i =
    if i = 0 then t.allocated else if i = 1 then t.prevAllocated
    else decide (3 ≤ i) && t.size.testBit i := by
  have hlow : t.allocated.toNat + 2 * t.prevAllocated.toNat < 2 ^ 3 := by
    have := t.allocated.toNat_le
    have := t.prevAllocated.toNat_le
    omega
  have hpack : t.pack = 2 ^ 3 * (t.size / 2 ^ 3) +
      (t.allocated.toNat + 2 * t.prevAllocated.toNat) := by
    unfold pack
    omega
  rw [hpack, Nat.testBit_two_pow_mul_add _ hlow]
  by_cases hi : i < 3
  · rw [if_pos hi]
    obtain rfl | rfl | rfl : i = 0 ∨ i = 1 ∨ i = 2 := by omega
    all_goals cases t.allocated <;> cases t.prevAllocated <;> rfl
  · rw [if_neg hi, if_neg (by omega), if_neg (by omega), Nat.testBit_div_two_pow,
      Nat.sub_add_cancel (Nat.not_lt.mp hi), decide_eq_true (Nat.not_lt.mp hi), Bool.true_and]

theorem allocated_unpack (w : Nat) : (unpack w).allocated = w.testBit 0 := by
  rw [Nat.testBit_zero]
  exact Bool.beq_eq_decide_eq _ _

theorem prevAllocated_unpack (w : Nat) : (unpack w).prevAllocated = w.testBit 1 := by
  rw [Nat.testBit_succ, Nat.testBit_zero]
  exact Bool.beq_eq_decide_eq _ _

theorem testBit_size_unpack (w i : Nat) :
    (unpack w).size.testBit i = (decide (3 ≤ i) && w.testBit i) := by
  have hsize : (unpack w).size = 2 ^ 3 * (w / 2 ^ 3) := Nat.mul_comm _ _
  rw [hsize, Nat.testBit_two_pow_mul]
  by_cases hi : 3 ≤ i
  · rw [Nat.testBit_div_two_pow, Nat.sub_add_cancel hi]
  · simp [hi]

/-- Recording the state of the block before sets one bit of a tag word and clears the one that says
    nothing. -/
theorem testBit_pack_mark (w : Nat) (prevAllocated : Bool) (i : Nat) :
    { unpack w with prevAllocated }.pack.testBit i =
      if i = 1 then prevAllocated else decide (i ≠ 2) && w.testBit i := by
  rw [testBit_pack, allocated_unpack, testBit_size_unpack]
  obtain rfl | rfl | rfl | hi : i = 0 ∨ i = 1 ∨ i = 2 ∨ 3 ≤ i := by omega
  · simp
  · simp
  · simp
  · simp [show i ≠ 0 by omega, show i ≠ 1 by omega, show i ≠ 2 by omega, hi]

/-- Packing what a word says clears the bit that says nothing. -/
theorem pack_unpack (hw : w < Word.limit) : (unpack w).pack = Word.clear w 4 := by
  apply Nat.eq_of_testBit_eq
  intro i
  have hmark := testBit_pack_mark w (unpack w).prevAllocated i
  rw [Word.testBit_clear hw (by decide), show (4 : Nat) = 2 ^ 2 from rfl, Nat.testBit_two_pow]
  refine hmark.trans ?_
  rw [prevAllocated_unpack]
  by_cases h1 : i = 1
  · simp [h1]
  · by_cases h2 : i = 2 <;> simp [h1, h2, eq_comm]

end Tag

namespace Memory

variable {m m' : Memory} {block size : Nat} {prevAllocated : Bool}

/-! ## Both ends of a free block -/

/-- A free block as its neighbours see it: both of its ends say the same, the block after it is
    found through its header, and it is itself found from there through its footer. -/
structure FreeBlock (m : Memory) (block size : Nat) (prevAllocated : Bool) : Prop where
  tag_eq : m.tagAt block = .ok (Tag.free size prevAllocated)
  footer_eq : m.footerAt block = .ok (Tag.free size prevAllocated)
  successor_eq : m.successor block = .ok (block + size)
  predecessor_eq : m.predecessor (block + size) = .ok block

/-- In the word at an offset the flag of the block before may have changed, to the given one, and no
    other bit. -/
def SetsFlag (i : Nat) (prevAllocated : Bool) (m m' : Memory) : Prop :=
  ∃ w w', m.readWord i = .ok w ∧ m'.readWord i = .ok w' ∧
    ∀ k, w'.testBit k = if k = 1 then prevAllocated else w.testBit k

variable {b : Block} {p q : Bool} {i : Nat}

theorem Marked.footerAt (h : m.Marked b) (hb : b.Proper) (hfree : b.tag.allocated = false)
    (hlim : b.stop < Word.limit) : m.footerAt b.offset = .ok b.tag := by
  have hword := hb.word_le
  have hadd : Word.add b.offset b.tag.size = .ok b.stop := Word.add_eq_ok_iff.mpr ⟨rfl, hlim⟩
  have hsub : Word.sub b.stop Block.footerBytes = .ok (b.stop - 8) :=
    Word.sub_eq_ok_iff.mpr (by unfold Block.footerBytes Block.stop; omega)
  rw [Memory.footerAt, footerOffset, h.sizeAt hb, ok_bind, hadd, ok_bind, hsub, ok_bind]
  exact tagAt_of_readWord (h.footer hfree) hb.size_mod

/-- A free block that is marked is found from all sides. -/
theorem Marked.freeBlock (h : m.Marked ⟨block, Tag.free size p⟩)
    (hb : Block.Proper ⟨block, Tag.free size p⟩) (hlim : block + size < Word.limit) :
    m.FreeBlock block size p :=
  ⟨h.tagAt hb, h.footerAt hb rfl hlim, h.successor hb hlim, h.predecessor hb rfl⟩

theorem setsFlag_of_readWord (h : m.readWord i = .ok (Tag.free size p).pack)
    (h' : m'.readWord i = .ok (Tag.free size q).pack) : SetsFlag i q m m' := by
  refine ⟨_, _, h, h', fun k => ?_⟩
  rw [Tag.testBit_pack, Tag.testBit_pack]
  by_cases h1 : k = 1
  · simp [h1, Tag.free]
  · simp [h1, Tag.free]

/-- In an allocated block only the header tells of the block before. -/
theorem exists_markPrevAllocated_of_allocated {t : Tag} (ht : m.tagAt block = .ok t)
    (hall : t.allocated = true) (q : Bool) :
    ∃ m', m.markPrevAllocated block q = .ok m' ∧
      m'.tagAt block = .ok { t with prevAllocated := q } ∧ Touches [block] m m' := by
  obtain ⟨w, hw, rfl⟩ := tagAt_eq_ok_iff.mp ht
  have hlt : (Tag.unpack w).size < Word.limit :=
    Nat.lt_of_le_of_lt (Nat.div_mul_le_self _ _) (lt_limit_of_readWord hw)
  obtain ⟨m', hm', hhead, htouch⟩ := exists_setHeader (m := m) (i := block)
    (t := { Tag.unpack w with prevAllocated := q }) (le_size_of_readWord hw) hlt
  refine ⟨m', ?_, tagAt_of_readWord hhead (Tag.size_unpack_mod w), htouch⟩
  rw [markPrevAllocated, ht, ok_bind, hm', ok_bind]
  simp only [hall, Bool.not_true, Bool.false_and, Bool.false_eq_true, if_false]
  rfl

/-- A free block that is formatted in a memory is found from both sides, and still is when the state
    of the block before it is recorded, which changes that flag at both of its ends and no other
    bit. In an allocated block the record is made in the header, which keeps its size. No byte
    beside these words changes. The words of tags are read without loss but for the bit that says
    nothing, and tags come back from their words with the size rounded down to a multiple of
    eight. -/
theorem tags_navigate :
    (∀ (m : Memory) (block size : Nat) (p : Bool), m.size < Word.limit → 32 ≤ size →
      size % 8 = 0 → block + size + 8 ≤ m.size →
      ∃ m₁, m.formatFree block size p = .ok m₁ ∧ m₁.FreeBlock block size p ∧
        Touches [block, block + size - 8] m m₁ ∧
        ∀ q : Bool, ∃ m₂, m₁.markPrevAllocated block q = .ok m₂ ∧ m₂.FreeBlock block size q ∧
          SetsFlag block q m₁ m₂ ∧ SetsFlag (block + size - 8) q m₁ m₂ ∧
          Touches [block, block + size - 8] m₁ m₂) ∧
    (∀ (m : Memory) (block : Nat) (t : Tag) (q : Bool), m.tagAt block = .ok t →
      t.allocated = true →
      ∃ m', m.markPrevAllocated block q = .ok m' ∧
        m'.tagAt block = .ok { t with prevAllocated := q } ∧ Touches [block] m m') ∧
    (∀ w < Word.limit, (Tag.unpack w).pack = Word.clear w 4) ∧
    ∀ t : Tag, Tag.unpack t.pack = { t with size := t.size / 8 * 8 } := by
  refine ⟨fun m block size p hlim hleast hmod hin => ?_,
    fun m block t q ht hall => exists_markPrevAllocated_of_allocated ht hall q,
    fun w hw => Tag.pack_unpack hw, Tag.unpack_pack⟩
  have hend : block + size ≤ m.size := Nat.le_of_add_right_le hin
  have hproper : Block.Proper ⟨block, Tag.free size p⟩ :=
    ⟨hmod, Nat.le_trans (by decide) hleast, fun _ => hleast⟩
  obtain ⟨m₁, hm₁, hhead, hfoot, ht⟩ :=
    exists_formatFree (p := p) hlim hproper.word_le hmod hend
  have hmarked : m₁.Marked ⟨block, Tag.free size p⟩ :=
    List.forall_mem_cons.mpr ⟨hhead, List.forall_mem_singleton.mpr hfoot⟩
  have hstop : block + size < Word.limit := Nat.lt_of_le_of_lt hend hlim
  refine ⟨m₁, hm₁, hmarked.freeBlock hproper hstop, ht, fun q => ?_⟩
  obtain ⟨m₂, hm₂, hmarked', ht'⟩ := hmarked.exists_markPrevAllocated hproper
    (by rw [ht.size_eq]; exact hlim) (by rw [ht.size_eq]; exact hend) q
  exact ⟨m₂, hm₂, hmarked'.freeBlock (hproper.withPrev q) hstop,
    setsFlag_of_readWord hhead hmarked'.header,
    setsFlag_of_readWord hfoot (hmarked'.footer rfl), ht'⟩

/-- A free block at an offset that is not aligned, an allocated block, and a word with the bit that
    says nothing. -/
theorem tags_navigate_of_zeroed : ∃ m₁ m₂ m₃ m₄ : Memory,
    (13 + 48 + 8 ≤ (zeroed 96).size ∧ (zeroed 96).formatFree 13 48 false = .ok m₁ ∧
      m₁.FreeBlock 13 48 false) ∧
    (m₁.markPrevAllocated 13 true = .ok m₂ ∧ m₂.FreeBlock 13 48 true ∧ SetsFlag 53 true m₁ m₂) ∧
    ((zeroed 96).setHeader 72 (Tag.inUse 40 false) = .ok m₃ ∧
      m₃.tagAt 72 = .ok (Tag.inUse 40 false)) ∧
    (m₃.markPrevAllocated 72 true = .ok m₄ ∧ m₄.tagAt 72 = .ok (Tag.inUse 40 true) ∧
      Touches [72] m₃ m₄) ∧
    (Tag.unpack 55).pack = 51 ∧ Tag.unpack (Tag.inUse 47 true).pack = Tag.inUse 40 true := by
  obtain ⟨hfree, hmark, hpack, hunpack⟩ := tags_navigate
  obtain ⟨m₁, hm₁, hblock, -, hnext⟩ := hfree (zeroed 96) 13 48 false (by decide) (by decide)
    (by decide) (by decide)
  obtain ⟨m₂, hm₂, hblock', -, hflag, -⟩ := hnext true
  obtain ⟨m₃, hm₃, hhead, -⟩ := exists_setHeader (m := zeroed 96) (i := 72)
    (t := Tag.inUse 40 false) (by decide) (by decide)
  have htag : m₃.tagAt 72 = .ok (Tag.inUse 40 false) := tagAt_of_readWord hhead (by decide)
  obtain ⟨m₄, hm₄, htag', ht⟩ := hmark m₃ 72 (Tag.inUse 40 false) true htag rfl
  exact ⟨m₁, m₂, m₃, m₄, ⟨by decide, hm₁, hblock⟩, ⟨hm₂, hblock', hflag⟩, ⟨hm₃, htag⟩,
    ⟨hm₄, htag', ht⟩, hpack 55 (by decide), hunpack (Tag.inUse 47 true)⟩

end Memory

end BoundaryTag
