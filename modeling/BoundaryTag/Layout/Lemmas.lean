import BoundaryTag.Layout
import BoundaryTag.Memory.Lemmas
import BoundaryTag.Steps

set_option autoImplicit false

/-! # What layout operations read and write

A header reads back as it was written (`tagAt_setHeader_self`). Every write is one word, so tags
elsewhere are as they were (`tagAt_setHeader_of_disjoint`). The links are the two words after the
tag. -/

namespace BoundaryTag.Memory

variable {m m' : Memory} {block other : Nat}

/-! ## Tags -/

theorem tagAt_eq_ok_iff {t : Tag} :
    m.tagAt block = .ok t ↔ ∃ w, m.readWord block = .ok w ∧ Tag.unpack w = t := by
  simp only [tagAt, bind_eq_ok_iff, pure_eq_ok_iff]

/-- No header has a size that is not a multiple of eight. -/
theorem size_mod_of_tagAt {t : Tag} (h : m.tagAt block = .ok t) : t.size % 8 = 0 := by
  obtain ⟨w, -, rfl⟩ := tagAt_eq_ok_iff.mp h
  exact Tag.size_unpack_mod w

/-- The size in a header, and the two flags, are those of its tag. -/
theorem sizeAt_of_tagAt {t : Tag} (h : m.tagAt block = .ok t) : m.sizeAt block = .ok t.size := by
  rw [sizeAt, h]
  rfl

theorem freeAt_of_tagAt {t : Tag} (h : m.tagAt block = .ok t) :
    m.freeAt block = .ok (!t.allocated) := by
  rw [freeAt, h]
  rfl

theorem prevAllocatedAt_of_tagAt {t : Tag} (h : m.tagAt block = .ok t) :
    m.prevAllocatedAt block = .ok t.prevAllocated := by
  rw [prevAllocatedAt, h]
  rfl

/-- Tags depend on their word only. -/
theorem tagAt_congr (h : m'.readWord block = m.readWord block) :
    m'.tagAt block = m.tagAt block := by
  unfold tagAt
  rw [h]

/-- A header reads back as it was written, if its size is a multiple of eight. -/
theorem tagAt_setHeader_self {t : Tag} (h : m.setHeader block t = .ok m')
    (hlt : t.size < Word.limit) (halign : t.size % 8 = 0) : m'.tagAt block = .ok t := by
  have hw := readWord_writeWord_self h (Tag.pack_lt_limit hlt)
  refine tagAt_eq_ok_iff.mpr ⟨_, hw, ?_⟩
  have hs : t.size / 8 * 8 = t.size := by omega
  rw [Tag.unpack_pack, hs]

/-- Writing a header leaves the tags beside it as they were. -/
theorem tagAt_setHeader_of_disjoint {t : Tag} (h : m.setHeader block t = .ok m')
    (hd : other + 8 ≤ block ∨ block + 8 ≤ other) : m'.tagAt other = m.tagAt other :=
  tagAt_congr (readWord_writeWord_of_disjoint h hd)

/-- A footer is written like a header, in the last word of the block. -/
theorem exists_setHeader_of_setFooter {t : Tag} (h : m.setFooter block t = .ok m') :
    ∃ foot, foot + 8 = block + t.size ∧ block + t.size < Word.limit ∧
      m.setHeader foot t = .ok m' := by
  simp only [setFooter, bind_eq_ok_iff] at h
  obtain ⟨stop, hstop, foot, hfoot, hm'⟩ := h
  obtain ⟨rfl, hlim⟩ := Word.add_eq_ok_iff.mp hstop
  rw [Word.sub_eq_ok_iff, show Block.footerBytes = 8 from rfl] at hfoot
  exact ⟨foot, by omega, hlim, hm'⟩

/-- A free block says in its header how it was formatted, also if the footer is the same word. -/
theorem tagAt_formatFree_self {size : Nat} {p : Bool} (h : m.formatFree block size p = .ok m')
    (hmod : size % 8 = 0) : m'.tagAt block = .ok (Tag.free size p) := by
  simp only [formatFree, bind_eq_ok_iff] at h
  obtain ⟨m₁, hm₁, hm'⟩ := h
  obtain ⟨foot, hfoot, hlim, hm'⟩ := exists_setHeader_of_setFooter hm'
  change foot + 8 = block + size at hfoot
  have hlt : (Tag.free size p).size < Word.limit :=
    Nat.lt_of_le_of_lt (Nat.le_add_left _ _) hlim
  by_cases hword : foot = block
  · rw [hword] at hm'
    exact tagAt_setHeader_self hm' hlt hmod
  · rw [tagAt_setHeader_of_disjoint hm' (by omega), tagAt_setHeader_self hm₁ hlt hmod]

/-- Formatting a block leaves the tags behind it as they were. -/
theorem tagAt_formatFree_behind {size : Nat} {p : Bool} (h : m.formatFree block size p = .ok m')
    (h8 : 8 ≤ size) (hle : block + size ≤ other) : m'.tagAt other = m.tagAt other := by
  simp only [formatFree, bind_eq_ok_iff] at h
  obtain ⟨m₁, hm₁, hm'⟩ := h
  obtain ⟨foot, hfoot, -, hm'⟩ := exists_setHeader_of_setFooter hm'
  change foot + 8 = block + size at hfoot
  rw [tagAt_setHeader_of_disjoint hm' (by omega), tagAt_setHeader_of_disjoint hm₁ (by omega)]

/-- To tell a block of the one before it is to write its header, and a footer behind it. -/
theorem exists_setHeader_of_markPrevAllocated {t : Tag} {p : Bool}
    (h : m.markPrevAllocated block p = .ok m') (ht : m.tagAt block = .ok t) :
    ∃ m₁, m.setHeader block { t with prevAllocated := p } = .ok m₁ ∧
      ∀ i, i ≤ block → m'.tagAt i = m₁.tagAt i := by
  simp only [markPrevAllocated, bind_eq_ok_iff] at h
  obtain ⟨t', ht', m₁, hm₁, hm'⟩ := h
  cases ht.symm.trans ht'
  refine ⟨m₁, hm₁, fun i hi => ?_⟩
  split at hm'
  · rename_i hfree
    have hlarge : 32 ≤ t.size := of_decide_eq_true (Bool.and_eq_true_iff.mp hfree).2
    obtain ⟨foot, hfoot, -, hm'⟩ := exists_setHeader_of_setFooter hm'
    change foot + 8 = block + t.size at hfoot
    exact tagAt_setHeader_of_disjoint hm' (by omega)
  · cases hm'
    rfl

/-- A block that is told of the one before it says so, and is as large and as free as it was. -/
theorem tagAt_markPrevAllocated_self {t : Tag} {p : Bool}
    (h : m.markPrevAllocated block p = .ok m') (ht : m.tagAt block = .ok t) :
    m'.tagAt block = .ok { t with prevAllocated := p } := by
  obtain ⟨m₁, hm₁, hkept⟩ := exists_setHeader_of_markPrevAllocated h ht
  have hmod := size_mod_of_tagAt ht
  obtain ⟨w, hw, rfl⟩ := tagAt_eq_ok_iff.mp ht
  have hlt : (Tag.unpack w).size < Word.limit :=
    Nat.lt_of_le_of_lt (Nat.div_mul_le_self _ _) (lt_limit_of_readWord hw)
  rw [hkept block (Nat.le_refl _)]
  exact tagAt_setHeader_self hm₁ hlt hmod

/-- The tags before a block stay as they were when it is told of the one before it. -/
theorem tagAt_markPrevAllocated_before {p : Bool} (h : m.markPrevAllocated block p = .ok m')
    (hle : other + 8 ≤ block) : m'.tagAt other = m.tagAt other := by
  obtain ⟨t, ht, -⟩ := bind_eq_ok_iff.mp h
  obtain ⟨m₁, hm₁, hkept⟩ := exists_setHeader_of_markPrevAllocated h ht
  rw [hkept other (by omega), tagAt_setHeader_of_disjoint hm₁ (.inl hle)]

/-! ## Links -/

/-- The next link of a node is the word after its tag. -/
theorem nextLink_eq (h : block + 8 < Word.limit) :
    m.nextLink block = m.readWord (block + 8) := by
  rw [nextLink, Word.add_eq_ok_iff.mpr ⟨rfl, h⟩]
  rfl

private theorem add_header (h : block + 16 < Word.limit) :
    Word.add block Block.headerBytes = .ok (block + 8) :=
  Word.add_eq_ok_iff.mpr ⟨rfl, by omega⟩

private theorem add_word (h : block + 16 < Word.limit) :
    Word.add (block + 8) Word.bytes = .ok (block + 16) :=
  Word.add_eq_ok_iff.mpr ⟨rfl, h⟩

/-- The prior link of a node is the word after that. -/
theorem priorLink_eq (h : block + 16 < Word.limit) :
    m.priorLink block = m.readWord (block + 16) := by
  simp only [priorLink, add_header h, add_word h, bind, Except.bind]

theorem setNextLink_eq {next : Nat} (h : block + 8 < Word.limit) :
    m.setNextLink block next = m.writeWord (block + 8) next := by
  rw [setNextLink, Word.add_eq_ok_iff.mpr ⟨rfl, h⟩]
  rfl

theorem setPriorLink_eq {prior : Nat} (h : block + 16 < Word.limit) :
    m.setPriorLink block prior = m.writeWord (block + 16) prior := by
  simp only [setPriorLink, add_header h, add_word h, bind, Except.bind]

end BoundaryTag.Memory
