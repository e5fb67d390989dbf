import BoundaryTag.Layout.Lemmas

set_option autoImplicit false

/-! # Frames

What a change of a memory leaves alone. `Touches ws m m'` says that from `m` to `m'` only the words
at the offsets `ws` may differ; all that lies beside them reads as before (`Touches.readWord_eq`,
`Touches.load_eq`), and frames of successive changes add up (`Touches.trans`). `Within P m m'` names
the words by a property in place of a list, and `Keeps P m m'` lets the memory grow as well. Every
write of a word into a memory has an answer, which holds that word and touches no other
(`exists_writeWord`, `exists_formatFree` and the lemmas between). -/

namespace BoundaryTag.Memory

variable {m m' m'' : Memory} {ws ws' : List Nat} {i : Nat}

/-- Only the words at the offsets `ws` may differ from `m` to `m'`. -/
structure Touches (ws : List Nat) (m m' : Memory) : Prop where
  size_eq : m'.size = m.size
  byte_eq : ∀ i, (∀ w ∈ ws, i < w ∨ w + 8 ≤ i) → m'.byte i = m.byte i

namespace Touches

theorem refl (m : Memory) : Touches [] m m :=
  ⟨rfl, fun _ _ => rfl⟩

theorem trans (h : Touches ws m m') (h' : Touches ws' m' m'') : Touches (ws ++ ws') m m'' where
  size_eq := h'.size_eq.trans h.size_eq
  byte_eq i hi := by
    rw [h'.byte_eq i fun w hw => hi w (List.mem_append_right _ hw)]
    exact h.byte_eq i fun w hw => hi w (List.mem_append_left _ hw)

theorem load_eq (h : Touches ws m m') {n : Nat} (hi : ∀ w ∈ ws, i + n ≤ w ∨ w + 8 ≤ i) :
    m'.load i n = m.load i n := by
  apply load_congr
  intro j hj hjn
  apply h.byte_eq
  intro w hw
  have := hi w hw
  omega

/-- A word that none of the touched ones overlaps reads as before. -/
theorem readWord_eq (h : Touches ws m m') (hi : ∀ w ∈ ws, i + 8 ≤ w ∨ w + 8 ≤ i) :
    m'.readWord i = m.readWord i := by
  rw [readWord, readWord, word?_eq, word?_eq, h.load_eq hi, h.size_eq]

end Touches

/-- Only words of which `P` holds may differ from `m` to `m'`. -/
def Within (P : Nat → Prop) (m m' : Memory) : Prop :=
  ∃ ws, Touches ws m m' ∧ ∀ w ∈ ws, P w

namespace Within

variable {P Q : Nat → Prop}

theorem refl (P : Nat → Prop) (m : Memory) : Within P m m :=
  ⟨[], Touches.refl m, fun _ hw => absurd hw List.not_mem_nil⟩

theorem trans (h : Within P m m') (h' : Within P m' m'') : Within P m m'' := by
  obtain ⟨ws, ht, hws⟩ := h
  obtain ⟨ws', ht', hws'⟩ := h'
  refine ⟨ws ++ ws', ht.trans ht', fun w hw => ?_⟩
  rw [List.mem_append] at hw
  exact hw.elim (hws w) (hws' w)

theorem mono (h : Within P m m') (hPQ : ∀ w, P w → Q w) : Within Q m m' := by
  obtain ⟨ws, ht, hws⟩ := h
  exact ⟨ws, ht, fun w hw => hPQ w (hws w hw)⟩

theorem size_eq (h : Within P m m') : m'.size = m.size := by
  obtain ⟨ws, ht, -⟩ := h
  exact ht.size_eq

theorem readWord_eq (h : Within P m m') (hi : ∀ w, P w → i + 8 ≤ w ∨ w + 8 ≤ i) :
    m'.readWord i = m.readWord i := by
  obtain ⟨ws, ht, hws⟩ := h
  exact ht.readWord_eq fun w hw => hi w (hws w hw)

end Within

theorem Touches.within (h : Touches ws m m') {P : Nat → Prop} (hws : ∀ w ∈ ws, P w) :
    Within P m m' :=
  ⟨ws, h, hws⟩

/-- The memory may have grown, and only words of which `P` holds may differ. -/
structure Keeps (P : Nat → Prop) (m m' : Memory) : Prop where
  size_le : m.size ≤ m'.size
  byte_eq : ∀ i, (∀ w, P w → i < w ∨ w + 8 ≤ i) → m'.byte i = m.byte i

namespace Keeps

variable {P Q : Nat → Prop}

theorem trans (h : Keeps P m m') (h' : Keeps P m' m'') : Keeps P m m'' :=
  ⟨Nat.le_trans h.size_le h'.size_le, fun i hi => (h'.byte_eq i hi).trans (h.byte_eq i hi)⟩

theorem mono (h : Keeps P m m') (hPQ : ∀ w, P w → Q w) : Keeps Q m m' :=
  ⟨h.size_le, fun i hi => h.byte_eq i fun w hw => hi w (hPQ w hw)⟩

theorem grow (P : Nat → Prop) (m : Memory) (n : Nat) : Keeps P m (m.grow n) :=
  ⟨Nat.le_add_right _ _, fun _ _ => rfl⟩

theorem load_eq (h : Keeps P m m') {n : Nat} (hi : ∀ w, P w → i + n ≤ w ∨ w + 8 ≤ i) :
    m'.load i n = m.load i n := by
  apply load_congr
  intro j hj hjn
  apply h.byte_eq
  intro w hw
  have := hi w hw
  omega

end Keeps

theorem Within.keeps {P : Nat → Prop} (h : Within P m m') : Keeps P m m' := by
  obtain ⟨ws, ht, hws⟩ := h
  exact ⟨Nat.le_of_eq ht.size_eq.symm, fun i hi => ht.byte_eq i fun w hw => hi w (hws w hw)⟩

/-! ## Words -/

theorem le_size_of_readWord {w : Nat} (h : m.readWord i = .ok w) : i + 8 ≤ m.size :=
  (readWord_eq_ok_iff.mp h).1

theorem touches_of_writeWord {w : Nat} (h : m.writeWord i w = .ok m') : Touches [i] m m' where
  size_eq := size_of_writeWord h
  byte_eq _ hj := byte_of_writeWord h (hj i (List.mem_singleton_self i))

theorem exists_writeWord {w : Nat} (hi : i + 8 ≤ m.size) (hw : w < Word.limit) :
    ∃ m', m.writeWord i w = .ok m' ∧ m'.readWord i = .ok w ∧ Touches [i] m m' := by
  have h : m.writeWord i w = .ok _ := writeWord_eq_ok_iff.mpr ⟨hi, rfl⟩
  exact ⟨_, h, readWord_writeWord_self h hw, touches_of_writeWord h⟩

theorem exists_setNextLink {w : Nat} (hlim : m.size < Word.limit) (hi : i + 16 ≤ m.size)
    (hw : w < Word.limit) :
    ∃ m', m.setNextLink i w = .ok m' ∧ m'.readWord (i + 8) = .ok w ∧
      Touches [i + 8] m m' := by
  rw [setNextLink_eq (by omega)]
  exact exists_writeWord (by omega) hw

theorem exists_setPriorLink {w : Nat} (hlim : m.size < Word.limit) (hi : i + 24 ≤ m.size)
    (hw : w < Word.limit) :
    ∃ m', m.setPriorLink i w = .ok m' ∧ m'.readWord (i + 16) = .ok w ∧
      Touches [i + 16] m m' := by
  rw [setPriorLink_eq (by omega)]
  exact exists_writeWord (by omega) hw

/-! ## Tags -/

theorem exists_setHeader {t : Tag} (hi : i + 8 ≤ m.size) (ht : t.size < Word.limit) :
    ∃ m', m.setHeader i t = .ok m' ∧ m'.readWord i = .ok t.pack ∧ Touches [i] m m' :=
  exists_writeWord hi (Tag.pack_lt_limit ht)

theorem exists_setFooter {t : Tag} (hlim : m.size < Word.limit) (hs : 8 ≤ t.size)
    (hi : i + t.size ≤ m.size) :
    ∃ m', m.setFooter i t = .ok m' ∧ m'.readWord (i + t.size - 8) = .ok t.pack ∧
      Touches [i + t.size - 8] m m' := by
  have hadd : Word.add i t.size = .ok (i + t.size) :=
    Word.add_eq_ok_iff.mpr ⟨rfl, by omega⟩
  have hsub : Word.sub (i + t.size) Block.footerBytes = .ok (i + t.size - 8) :=
    Word.sub_eq_ok_iff.mpr (by unfold Block.footerBytes; omega)
  obtain ⟨m', hm', hread, ht⟩ := exists_writeWord (m := m) (i := i + t.size - 8)
    (w := t.pack) (by omega) (Tag.pack_lt_limit (by omega))
  exact ⟨m', by simp only [setFooter, hadd, hsub, bind, Except.bind, hm'], hread, ht⟩

/-- Header and footer may be the same word: that of a block of eight bytes. -/
theorem exists_formatFree {size : Nat} {p : Bool} (hlim : m.size < Word.limit)
    (hs : 8 ≤ size) (hmod : size % 8 = 0) (hi : i + size ≤ m.size) :
    ∃ m', m.formatFree i size p = .ok m' ∧
      m'.readWord i = .ok (Tag.free size p).pack ∧
      m'.readWord (i + size - 8) = .ok (Tag.free size p).pack ∧
      Touches [i, i + size - 8] m m' := by
  have hfree : (Tag.free size p).size = size := rfl
  obtain ⟨m₁, h₁, hr₁, ht₁⟩ := exists_setHeader (m := m) (i := i)
    (t := Tag.free size p) (by omega) (by rw [hfree]; omega)
  have hi' : i + (Tag.free size p).size ≤ m₁.size := by rw [ht₁.size_eq, hfree]; exact hi
  obtain ⟨m₂, h₂, hr₂, ht₂⟩ := exists_setFooter (by rw [ht₁.size_eq]; exact hlim) hs hi'
  rw [hfree] at hr₂ ht₂
  refine ⟨m₂, by simp only [formatFree, bind, Except.bind, h₁, h₂], ?_, hr₂, ht₁.trans ht₂⟩
  obtain h8 | h16 : size = 8 ∨ 16 ≤ size := by omega
  · subst h8
    exact hr₂
  · rw [ht₂.readWord_eq (by simp only [List.forall_mem_singleton]; omega), hr₁]

theorem tagAt_of_readWord {t : Tag} (h : m.readWord i = .ok t.pack) (hmod : t.size % 8 = 0) :
    m.tagAt i = .ok t := by
  have hs : t.size / 8 * 8 = t.size := by omega
  refine tagAt_eq_ok_iff.mpr ⟨_, h, ?_⟩
  rw [Tag.unpack_pack, hs]

/-! ## Growing -/

theorem readWord_grow {n w : Nat} (h : m.readWord i = .ok w) : (m.grow n).readWord i = .ok w := by
  obtain ⟨hi, hw⟩ := readWord_eq_ok_iff.mp h
  refine readWord_eq_ok_iff.mpr ⟨?_, ?_⟩
  · rw [size_grow]
    omega
  · rw [← hw, load_congr (fun j _ _ => byte_grow m n j)]

end BoundaryTag.Memory
