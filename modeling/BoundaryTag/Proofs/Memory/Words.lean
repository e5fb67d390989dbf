import Mathlib.Logic.Function.Basic
import BoundaryTag.Layout.Lemmas

set_option autoImplicit false

/-! # Memory as aligned words

Where all accesses are aligned, a memory is its size and a function from aligned offsets to words:
`m.Words n f`. Reading looks up the function and writing updates it, so that what several writes do
to words that may coincide is a matter of `Function.update`. -/

namespace BoundaryTag

open Function (update)

namespace Memory

variable {m m' : Memory} {f g : Nat → Nat} {n i w block : Nat} {t : Tag}

/-- The memory has `n` bytes, and `f` tells its words at aligned offsets. -/
structure Words (m : Memory) (n : Nat) (f : Nat → Nat) : Prop where
  size_eq : m.size = n
  readWord_eq : ∀ i, i % 8 = 0 → i + 8 ≤ n → m.readWord i = .ok (f i)

/-- The word at an offset, whether or not it is inside. -/
def wordAt (m : Memory) (i : Nat) : Nat :=
  LittleEndian.ofBytes (m.load i 8)

theorem wordAt_of_readWord (h : m.readWord i = .ok w) : m.wordAt i = w :=
  (readWord_eq_ok_iff.mp h).2

theorem words_wordAt (m : Memory) : m.Words m.size m.wordAt where
  size_eq := rfl
  readWord_eq _ _ hi := readWord_eq_ok_iff.mpr ⟨hi, rfl⟩

namespace Words

theorem readWord_iff (h : m.Words n f) (hi : i % 8 = 0) :
    m.readWord i = .ok w ↔ i + 8 ≤ n ∧ f i = w := by
  constructor
  · intro hw
    have hle : i + 8 ≤ n := h.size_eq ▸ (readWord_eq_ok_iff.mp hw).1
    rw [h.readWord_eq i hi hle, Except.ok.injEq] at hw
    exact ⟨hle, hw⟩
  · rintro ⟨hle, rfl⟩
    exact h.readWord_eq i hi hle

theorem tagAt_iff (h : m.Words n f) (hi : i % 8 = 0) :
    m.tagAt i = .ok t ↔ i + 8 ≤ n ∧ Tag.unpack (f i) = t := by
  simp only [tagAt_eq_ok_iff, h.readWord_iff hi]
  constructor
  · rintro ⟨w, ⟨hle, rfl⟩, rfl⟩
    exact ⟨hle, rfl⟩
  · rintro ⟨hle, rfl⟩
    exact ⟨_, ⟨hle, rfl⟩, rfl⟩

theorem write (h : m.Words n f) (hi : i % 8 = 0) (hw : w < Word.limit)
    (hm : m.writeWord i w = .ok m') : m'.Words n (update f i w) where
  size_eq := (size_of_writeWord hm).trans h.size_eq
  readWord_eq j hj hle := by
    by_cases hij : j = i
    · subst hij
      rw [Function.update_self]
      exact readWord_writeWord_self hm hw
    · rw [Function.update_of_ne hij, readWord_writeWord_of_disjoint hm (by omega)]
      exact h.readWord_eq j hj hle

/-- A free block is formatted by two words. -/
theorem formatFree (h : m.Words n f) (hb : block % 8 = 0) {size : Nat} {prev : Bool}
    (hsize : size % 8 = 0) (hm : m.formatFree block size prev = .ok m') :
    m'.Words n (update (update f block (Tag.free size prev).pack) (block + size - 8)
      (Tag.free size prev).pack) ∧ 8 ≤ block + size ∧ block + size ≤ n := by
  simp only [Memory.formatFree, setFooter, bind_eq_ok_iff] at hm
  obtain ⟨m₁, hm₁, stop, hstop, foot, hfoot, hm₂⟩ := hm
  obtain ⟨rfl, hlim⟩ := Word.add_eq_ok_iff.mp hstop
  have hfoot' := Word.sub_eq_ok_iff.mp hfoot
  have hlt : (Tag.free size prev).pack < Word.limit :=
    Tag.pack_lt_limit (Nat.lt_of_le_of_lt (Nat.le_add_left _ _) hlim)
  have h8 : Block.footerBytes = 8 := rfl
  have hdef : (Tag.free size prev).size = size := rfl
  rw [h8, hdef] at hfoot'
  obtain rfl : foot = block + size - 8 := by omega
  have hwords := (h.write hb hlt hm₁).write (by omega) hlt hm₂
  have hle := (writeWord_eq_ok_iff.mp hm₂).1
  rw [size_of_writeWord hm₁, h.size_eq] at hle
  exact ⟨hwords, by omega, by omega⟩

/-- In an allocated block, and in one too small for a footer, only the header tells of the block
    before. -/
theorem markPrevAllocated (h : m.Words n f) (hb : block % 8 = 0) {prev : Bool}
    (hfoot : (Tag.unpack (f block)).allocated = true ∨ (Tag.unpack (f block)).size < 32)
    (hm : m.markPrevAllocated block prev = .ok m') :
    m'.Words n (update f block { Tag.unpack (f block) with prevAllocated := prev }.pack) ∧
      block + 8 ≤ n := by
  simp only [Memory.markPrevAllocated, bind_eq_ok_iff] at hm
  obtain ⟨t, ht, m₁, hm₁, hm₂⟩ := hm
  obtain ⟨hle, rfl⟩ := (h.tagAt_iff hb).mp ht
  have h32 : Block.least = 32 := rfl
  have hnone : (!(Tag.unpack (f block)).allocated &&
      decide (Block.least ≤ (Tag.unpack (f block)).size)) = false := by
    rcases hfoot with hall | hsmall
    · simp [hall]
    · simp [h32, Nat.not_le.mpr hsmall]
  rw [hnone] at hm₂
  obtain rfl : m₁ = m' := Except.ok.inj hm₂
  have hread := h.readWord_eq block hb hle
  have hsize : (Tag.unpack (f block)).size < Word.limit :=
    Nat.lt_of_le_of_lt (Nat.div_mul_le_self _ _) (lt_limit_of_readWord hread)
  exact ⟨h.write hb (Tag.pack_lt_limit hsize) hm₁, hle⟩

theorem setNextLink (h : m.Words n f) (hb : block % 8 = 0) (hw : w < Word.limit)
    (hm : m.setNextLink block w = .ok m') :
    m'.Words n (update f (block + 8) w) ∧ block + 16 ≤ n := by
  simp only [Memory.setNextLink, bind_eq_ok_iff] at hm
  obtain ⟨i, hi, hm⟩ := hm
  obtain ⟨rfl, -⟩ := Word.add_eq_ok_iff.mp hi
  have hle := (writeWord_eq_ok_iff.mp hm).1
  rw [h.size_eq] at hle
  exact ⟨h.write (i := block + 8) (by omega) hw hm, hle⟩

theorem setPriorLink (h : m.Words n f) (hb : block % 8 = 0) (hw : w < Word.limit)
    (hm : m.setPriorLink block w = .ok m') :
    m'.Words n (update f (block + 16) w) ∧ block + 24 ≤ n := by
  simp only [Memory.setPriorLink, bind_eq_ok_iff] at hm
  obtain ⟨j, hj, i, hi, hm⟩ := hm
  obtain ⟨rfl, -⟩ := Word.add_eq_ok_iff.mp hj
  obtain ⟨rfl, -⟩ := Word.add_eq_ok_iff.mp hi
  have hle := (writeWord_eq_ok_iff.mp hm).1
  rw [h.size_eq] at hle
  exact ⟨h.write (i := block + 16) (by omega) hw hm, hle⟩

theorem nextLink_iff (h : m.Words n f) (hb : block % 8 = 0) (hlim : n < Word.limit) :
    m.nextLink block = .ok w ↔ block + 16 ≤ n ∧ f (block + 8) = w := by
  by_cases hle : block + 16 ≤ n
  · rw [nextLink_eq (by omega), h.readWord_iff (by omega)]
  · refine ⟨fun hw => ?_, fun hw => absurd hw.1 hle⟩
    simp only [nextLink, bind_eq_ok_iff] at hw
    obtain ⟨i, hi, hw⟩ := hw
    obtain ⟨rfl, -⟩ := Word.add_eq_ok_iff.mp hi
    exact (h.readWord_iff (i := block + 8) (by omega)).mp hw

end Words

end Memory

end BoundaryTag
