import BoundaryTag.Proofs.Provider.Refines
import BoundaryTag.Provider.Stores

set_option autoImplicit false

/-! # Both kinds of storage are regions

Storage of words shows the bytes of a region if it has as many words as they need, and zero in the
bytes of the last word past the break (`WordStore.Shows`); a reservation shows them if its space past
the break is zero (`Reservation.Shows`). Both keep this up when they grow, whatever the number of
bytes, and when bytes are overwritten. -/

namespace BoundaryTag

namespace Region

/-- Rounding up to pages. -/
theorem alignTo_page {n m : Nat} (h : Word.alignTo n Region.pageBytes = .ok m) :
    m = (n + 4095) / 4096 * 4096 :=
  ((Word.alignTo_eq_ok_iff (k := 12) rfl).mp h).2

/-- Whole pages are reserved as they are. -/
theorem limit_of_reserve {grants : Nat → Bool} {capacity : Nat} {r : Region}
    (hpage : capacity % pageBytes = 0) (hr : reserve grants capacity = .ok (.ok r)) :
    r.limit = capacity := by
  have hbytes : pageBytes = 4096 := rfl
  rw [hbytes] at hpage
  rw [reserve] at hr
  split at hr
  · obtain ⟨size, hsize, hrest⟩ := bind_eq_ok_iff.mp hr
    have hround := alignTo_page hsize
    split at hrest
    · cases hrest
      show size = capacity
      omega
    · cases hrest
  · cases hr

/-- Storage that can be had for the limit can be had for less. -/
theorem ample_empty {backing : Backing} {limit : Nat}
    (hholds : Backing.owned.holds limit = true) :
    (⟨backing, limit, .zeroed 0⟩ : Region).Ample := by
  refine ⟨Nat.zero_le limit, fun n hn => ?_⟩
  have hle : n ≤ limit := hn
  simp only [Backing.holds, decide_eq_true_eq] at hholds ⊢
  omega

end Region

/-! ## Storage of words -/

namespace WordStore

variable {s : WordStore} {r : Region}

theorem spell_cons (w : UInt64) (ws : List UInt64) :
    spell (w :: ws) = LittleEndian.toBytes 8 w.toNat ++ spell ws :=
  List.flatMap_cons

theorem spell_append (ws vs : List UInt64) : spell (ws ++ vs) = spell ws ++ spell vs :=
  List.flatMap_append

theorem length_spell (ws : List UInt64) : (spell ws).length = 8 * ws.length := by
  induction ws with
  | nil => rfl
  | cons w ws ih =>
    rw [spell_cons, List.length_append, LittleEndian.length_toBytes, ih, List.length_cons]
    omega

theorem spell_zeros (n : Nat) : spell (List.replicate n 0) = List.replicate (8 * n) 0 := by
  induction n with
  | zero => rfl
  | succ n ih =>
    rw [List.replicate_succ, ← List.singleton_append, spell_append, ih, Nat.mul_succ, Nat.add_comm,
      ← List.replicate_append_replicate]
    rfl

/-- Packing loses nothing that whole words can hold. -/
theorem spell_pack (n : Nat) {bytes : List UInt8} (hlength : bytes.length = 8 * n) :
    spell (pack n bytes) = bytes := by
  induction n generalizing bytes with
  | zero =>
    rw [List.eq_nil_of_length_eq_zero hlength]
    rfl
  | succ n ih =>
    have htake : (bytes.take 8).length = 8 := by
      rw [List.length_take]
      omega
    have hword : LittleEndian.ofBytes (bytes.take 8) < 2 ^ 64 := by
      have hlt := LittleEndian.ofBytes_lt (bytes.take 8)
      rw [htake] at hlt
      exact hlt
    have hfirst : LittleEndian.toBytes 8
        (UInt64.ofNat (LittleEndian.ofBytes (bytes.take 8))).toNat = bytes.take 8 := by
      rw [UInt64.toNat_ofNat_of_lt' hword]
      have hspelled := LittleEndian.toBytes_ofBytes (bytes.take 8)
      rwa [htake] at hspelled
    have hrest : spell (pack n (bytes.drop 8)) = bytes.drop 8 := ih (by
      rw [List.length_drop]
      omega)
    rw [pack, spell_cons]
    show LittleEndian.toBytes 8 (UInt64.ofNat (LittleEndian.ofBytes (bytes.take 8))).toNat ++
      spell (pack n (bytes.drop 8)) = bytes
    rw [hfirst, hrest, List.take_append_drop]

/-- Words show the bytes of a region: there are as many words as the bytes need, and past the break
    they are zero, as the region is. -/
structure Shows (s : WordStore) (r : Region) : Prop where
  ample : r.Ample
  limit_eq : s.limit = r.limit
  top_eq : s.top = r.size
  spell_eq : spell s.words = r.memory.load 0 (8 * wordsFor r.size)

namespace Shows

theorem length_words (h : s.Shows r) : s.words.length = wordsFor r.size := by
  have hlength := length_spell s.words
  rw [h.spell_eq, Memory.length_load] at hlength
  omega

theorem bytes_eq (h : s.Shows r) : s.bytes = r.memory.load 0 r.size := by
  have hle : r.size ≤ 8 * wordsFor r.size := by
    unfold wordsFor Word.bytes
    omega
  rw [bytes, h.top_eq, h.spell_eq, Memory.take_load _ hle]

theorem setBytes (h : s.Shows r) {m : Memory} (hm : m.size = r.size) :
    (s.setBytes (m.load 0 m.size)).Shows { r with memory := m } := by
  have hsize : r.memory.size = m.size := hm.symm
  have hle : m.size ≤ 8 * wordsFor m.size := by
    unfold wordsFor Word.bytes
    omega
  have hspell : spell s.words = r.memory.load 0 (8 * wordsFor m.size) := by rw [h.spell_eq, ← hm]
  -- Past the break there are only zero bytes, in the words as in the memory.
  have hpast : (spell s.words).drop m.size =
      m.load (0 + m.size) (8 * wordsFor m.size - m.size) := by
    rw [hspell, Memory.drop_load _ hle, Memory.load_of_size_le _ (by omega),
      Memory.load_of_size_le _ (by omega)]
  have hall : m.load 0 m.size ++ (spell s.words).drop m.size =
      m.load 0 (8 * wordsFor m.size) := by
    rw [hpast, ← Memory.load_add, Nat.add_sub_cancel' hle]
  refine ⟨h.ample.withMemory hm, h.limit_eq, ?_, ?_⟩
  · rw [WordStore.setBytes, h.top_eq, ← hm]
    rfl
  · rw [WordStore.setBytes, Memory.length_load, hall]
    refine spell_pack _ ?_
    rw [Memory.length_load, h.length_words, ← hm]

theorem setMemory (h : s.Shows r) {m m' : Memory} (hm : Memory.Alike r.size m m') :
    (Provider.setMemory s m).Shows { r with memory := m' } := by
  have hset : (s.setBytes (m'.load 0 m'.size)).Shows { r with memory := m' } :=
    h.setBytes hm.size_right
  rwa [← hm.load, ← hm.size_eq] at hset

theorem extend_of_le (h : s.Shows r) {n : Nat} (hn : r.size + n ≤ r.limit) :
    ∃ t, (s.extend n).result = .ok (.ok r.size, t) ∧
      t.Shows { r with memory := r.memory.grow n } := by
  have hholds := h.ample.holds _ hn
  have hlimit := h.ample.lt_limit hn
  have hgrown : ∀ k, (r.memory.grow n).load 0 k = r.memory.load 0 k := fun k =>
    Memory.load_congr fun j _ _ => Memory.byte_grow _ _ _
  -- The words that there are reach past the old break, and those that are missing past the new one.
  have hwords : wordsFor (r.size + n) =
      wordsFor r.size + (wordsFor (r.size + n) - wordsFor r.size) := by
    unfold wordsFor Word.bytes
    omega
  have hreach : r.memory.size ≤ 8 * wordsFor r.size := by
    unfold wordsFor Word.bytes Region.size
    omega
  have hspell : spell (s.words ++ List.replicate (wordsFor (r.size + n) - wordsFor r.size) 0) =
      (r.memory.grow n).load 0 (8 * wordsFor (r.size + n)) := by
    rw [hgrown, hwords, Nat.mul_add, Memory.load_add, spell_append, spell_zeros, h.spell_eq,
      Nat.zero_add, Memory.load_of_size_le _ hreach, Nat.add_sub_cancel_left]
  refine ⟨⟨s.words ++ List.replicate (wordsFor (r.size + n) - wordsFor r.size) 0, r.size + n,
    s.limit⟩, ?_, ⟨h.ample.grow hn, h.limit_eq, rfl, hspell⟩⟩
  rw [WordStore.extend, h.top_eq, h.limit_eq, if_pos ⟨hlimit, hn⟩, if_pos hholds, h.length_words]
  rfl

theorem extend_of_lt (h : s.Shows r) {n : Nat} (hn : r.limit < r.size + n) :
    (s.extend n).result = .ok (.error (.outOfMemory n r.size r.limit), s) := by
  rw [extend, h.top_eq, h.limit_eq, if_neg fun hin => absurd hin.2 (Nat.not_le.mpr hn)]
  rfl

end Shows

theorem refines : Provider.Refines Shows where
  ample h := h.ample
  size_eq h := h.top_eq
  bytes_eq h := h.bytes_eq
  extend_of_le h hn := h.extend_of_le hn
  extend_of_lt h hn := h.extend_of_lt hn
  memory_alike h := .ofBytes h.bytes_eq
  setMemory h hm := h.setMemory hm

/-- New storage shows any region without bytes. -/
theorem shows_empty {backing : Backing} {limit : Nat} (hholds : Backing.owned.holds limit = true) :
    (empty limit).Shows ⟨backing, limit, .zeroed 0⟩ := by
  have hspell : spell [] = (Memory.zeroed 0).load 0 (8 * wordsFor 0) := rfl
  exact ⟨Region.ample_empty hholds, rfl, rfl, hspell⟩

end WordStore

/-! ## Reserved space -/

namespace Reservation

variable {s : Reservation} {r : Region}

/-- Reserved space shows the bytes of a region: past the break it is zero, as the region is. -/
structure Shows (s : Reservation) (r : Region) : Prop where
  ample : r.Ample
  capacity_eq : s.capacity = r.limit
  top_eq : s.top = r.size
  byte_eq : ∀ i, s.space.byte i = r.memory.byte i

namespace Shows

theorem bytes_eq (h : s.Shows r) : s.bytes = r.memory.load 0 r.size := by
  rw [bytes, h.top_eq]
  exact Memory.load_congr fun j _ _ => h.byte_eq j

theorem setBytes (h : s.Shows r) {m : Memory} (hm : m.size = r.size) :
    (s.setBytes (m.load 0 m.size)).Shows { r with memory := m } := by
  have hle : m.size ≤ s.space.size := by
    rw [hm]
    exact Nat.le_trans h.ample.size_le (Nat.le_of_eq h.capacity_eq.symm)
  refine ⟨h.ample.withMemory hm, ?_, ?_, fun i => ?_⟩
  · rw [capacity, Reservation.setBytes, Memory.size_store]
    exact h.capacity_eq
  · rw [Reservation.setBytes, h.top_eq, ← hm]
    rfl
  · rw [Reservation.setBytes, Memory.byte_store, Memory.getElem?_load, Nat.sub_zero, Nat.zero_add]
    by_cases hi : i < m.size
    · rw [if_pos ⟨Nat.zero_le i, Nat.lt_of_lt_of_le hi hle⟩, if_pos hi, Option.getD_some]
    · have hzero : s.space.byte i = 0 := by
        rw [h.byte_eq, Memory.byte_of_size_le]
        exact Nat.le_trans (Nat.le_of_eq hm.symm) (Nat.not_lt.mp hi)
      rw [if_neg hi, Option.getD_none, ite_self, hzero, m.byte_of_size_le (Nat.not_lt.mp hi)]

theorem setMemory (h : s.Shows r) {m m' : Memory} (hm : Memory.Alike r.size m m') :
    (Provider.setMemory s m).Shows { r with memory := m' } := by
  have hset : (s.setBytes (m'.load 0 m'.size)).Shows { r with memory := m' } :=
    h.setBytes hm.size_right
  rwa [← hm.load, ← hm.size_eq] at hset

theorem extend_of_le (h : s.Shows r) {n : Nat} (hn : r.size + n ≤ r.limit) :
    ∃ t, (s.extend n).result = .ok (.ok r.size, t) ∧
      t.Shows { r with memory := r.memory.grow n } := by
  refine ⟨{ s with top := r.size + n }, ?_, ⟨h.ample.grow hn, h.capacity_eq, rfl, h.byte_eq⟩⟩
  rw [extend, h.top_eq, h.capacity_eq, if_pos ⟨h.ample.lt_limit hn, hn⟩]
  rfl

theorem extend_of_lt (h : s.Shows r) {n : Nat} (hn : r.limit < r.size + n) :
    (s.extend n).result = .ok (.error (.outOfMemory n r.size r.limit), s) := by
  rw [extend, h.top_eq, h.capacity_eq, if_neg fun hin => absurd hin.2 (Nat.not_le.mpr hn)]
  rfl

end Shows

theorem refines : Provider.Refines Shows where
  ample h := h.ample
  size_eq h := h.top_eq
  bytes_eq h := h.bytes_eq
  extend_of_le h hn := h.extend_of_le hn
  extend_of_lt h hn := h.extend_of_lt hn
  memory_alike h := .ofBytes h.bytes_eq
  setMemory h hm := h.setMemory hm

/-- Whole pages are reserved as they are. -/
theorem reserve_eq {grants : Nat → Bool} {capacity : Nat}
    (hpage : capacity % Region.pageBytes = 0) (hs : reserve grants capacity = .ok (.ok s)) :
    s = ⟨.zeroed capacity, 0⟩ := by
  obtain ⟨region, hregion, hrest⟩ := bind_eq_ok_iff.mp hs
  cases region with
  | error refusal => cases hrest
  | ok region =>
    cases hrest
    rw [Region.limit_of_reserve hpage hregion]

/-- A new reservation shows any region without bytes. -/
theorem shows_new {backing : Backing} {capacity : Nat}
    (hholds : Backing.owned.holds capacity = true) :
    Shows ⟨.zeroed capacity, 0⟩ ⟨backing, capacity, .zeroed 0⟩ := by
  refine ⟨Region.ample_empty hholds, rfl, rfl, fun i => ?_⟩
  rw [Memory.byte_zeroed, Memory.byte_zeroed]

end Reservation

end BoundaryTag
