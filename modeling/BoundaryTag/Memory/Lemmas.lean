import BoundaryTag.Memory.Basic

set_option autoImplicit false

/-! # What memory operations do to bytes and words

The view of a memory is its size and its bytes; every operation has one equation for each. On top
of them: a word reads back as written (`readWord_writeWord_self`), writing a word leaves the words
beside it as they were (`readWord_writeWord_of_disjoint`), and a checked access succeeds exactly
when it is inside (`readWord_eq_ok_iff`, `writeWord_eq_ok_iff`). -/

namespace BoundaryTag.Memory

/-! ## Size and bytes -/

@[simp] theorem size_zeroed (n : Nat) : (zeroed n).size = n := rfl

@[simp] theorem byte_zeroed (n i : Nat) : (zeroed n).byte i = 0 :=
  Std.TreeMap.getD_emptyc

theorem byte_of_size_le (m : Memory) {i : Nat} (h : m.size ≤ i) : m.byte i = 0 :=
  m.zero_above i h

@[simp] theorem size_setByte (m : Memory) (i : Nat) (b : UInt8) :
    (m.setByte i b).size = m.size := by
  unfold setByte
  split <;> rfl

theorem byte_setByte (m : Memory) (i j : Nat) (b : UInt8) :
    (m.setByte i b).byte j = if i = j ∧ i < m.size then b else m.byte j := by
  unfold setByte
  split <;> rename_i h
  · simp only [byte, Std.TreeMap.getD_insert, Std.LawfulEqCmp.compare_eq_iff_eq, h, and_true]
  · simp [h]

@[simp] theorem size_store (m : Memory) (i : Nat) (bs : List UInt8) :
    (m.store i bs).size = m.size := by
  induction bs generalizing m i with
  | nil => rfl
  | cons b bs ih =>
    rw [store, ih]
    split <;> simp

/-- Storing bytes changes the bytes in their place, as far as it is inside, and no other. -/
theorem byte_store (m : Memory) (i j : Nat) (bs : List UInt8) :
    (m.store i bs).byte j =
      if i ≤ j ∧ j < m.size then (bs[j - i]?).getD (m.byte j) else m.byte j := by
  induction bs generalizing m i with
  | nil => simp [store]
  | cons b bs ih =>
    have hkeep : (if m.byte i = b then m else m.setByte i b).size = m.size := by
      split <;> simp
    have hbyte : (if m.byte i = b then m else m.setByte i b).byte j =
        if i = j ∧ i < m.size then b else m.byte j := by
      split
      · rename_i hb
        split
        · rename_i hj
          rw [← hj.1, hb]
        · rfl
      · exact byte_setByte m i j b
    rw [store, ih, hkeep, hbyte]
    by_cases hij : i = j
    · subst hij
      have : ¬ (i + 1 ≤ i ∧ i < m.size) := by omega
      simp only [this, if_false]
      by_cases hs : i < m.size <;> simp [hs]
    · have hne : ¬ (i = j ∧ i < m.size) := fun h => hij h.1
      simp only [hne, if_false]
      by_cases hlt : i + 1 ≤ j ∧ j < m.size
      · have hle : i ≤ j ∧ j < m.size := ⟨by omega, hlt.2⟩
        obtain ⟨k, rfl⟩ : ∃ k, j = i + 1 + k := ⟨j - (i + 1), by omega⟩
        have h1 : i + 1 + k - (i + 1) = k := by omega
        have h2 : i + 1 + k - i = k + 1 := by omega
        rw [if_pos hlt, if_pos hle, h1, h2, List.getElem?_cons_succ]
      · have hle : ¬ (i ≤ j ∧ j < m.size) := by omega
        rw [if_neg hlt, if_neg hle]

@[simp] theorem size_grow (m : Memory) (n : Nat) : (m.grow n).size = m.size + n := rfl

@[simp] theorem byte_grow (m : Memory) (n i : Nat) : (m.grow n).byte i = m.byte i := rfl

@[simp] theorem length_load (m : Memory) (i n : Nat) : (m.load i n).length = n := by
  simp [load]

theorem getElem?_load (m : Memory) (i n k : Nat) :
    (m.load i n)[k]? = if k < n then some (m.byte (i + k)) else none := by
  unfold load
  by_cases h : k < n <;> simp [h]

/-- What is loaded depends on the bytes in that place only. -/
theorem load_congr {m m' : Memory} {i n : Nat}
    (h : ∀ j, i ≤ j → j < i + n → m'.byte j = m.byte j) : m'.load i n = m.load i n := by
  apply List.map_congr_left
  intro j hj
  rw [List.mem_range'_1] at hj
  exact h j hj.1 hj.2

/-- The first bytes of what is loaded. -/
theorem take_load (m : Memory) {i n size : Nat} (h : n ≤ size) :
    (m.load i size).take n = m.load i n := by
  apply List.ext_getElem?
  intro k
  rw [List.getElem?_take, getElem?_load, getElem?_load]
  split
  · rw [if_pos (by omega)]
  · rfl

/-- What is loaded at once can be loaded in two parts. -/
theorem load_add (m : Memory) (i n k : Nat) :
    m.load i (n + k) = m.load i n ++ m.load (i + n) k := by
  rw [load, load, load, ← List.map_append, List.range'_append_1]

/-- The last bytes of what is loaded. -/
theorem drop_load (m : Memory) {i n size : Nat} (h : n ≤ size) :
    (m.load i size).drop n = m.load (i + n) (size - n) := by
  rw [show size = n + (size - n) by omega, load_add, List.drop_left' (length_load m i n),
    Nat.add_sub_cancel_left]

/-- Nothing but zero is above the size. -/
theorem load_of_size_le (m : Memory) {i n : Nat} (h : m.size ≤ i) :
    m.load i n = List.replicate n 0 := by
  refine List.eq_replicate_iff.mpr ⟨length_load m i n, fun b hb => ?_⟩
  obtain ⟨j, hj, rfl⟩ := List.mem_map.mp hb
  rw [List.mem_range'_1] at hj
  exact m.byte_of_size_le (by omega)

/-- What was stored inside is loaded again. -/
theorem load_store_self (m : Memory) (i : Nat) (bs : List UInt8) (h : i + bs.length ≤ m.size) :
    (m.store i bs).load i bs.length = bs := by
  apply List.ext_getElem?
  intro k
  rw [getElem?_load]
  split
  · rename_i hk
    have hin : i ≤ i + k ∧ i + k < m.size := by omega
    rw [byte_store, if_pos hin, Nat.add_sub_cancel_left, List.getElem?_eq_getElem hk]
    rfl
  · rename_i hk
    rw [List.getElem?_eq_none (Nat.not_lt.mp hk)]

/-- Storing keeps what is loaded from elsewhere. -/
theorem load_store_of_disjoint (m : Memory) (i j n : Nat) (bs : List UInt8)
    (h : j + n ≤ i ∨ i + bs.length ≤ j) : (m.store i bs).load j n = m.load j n := by
  apply load_congr
  intro k hk hkn
  rw [byte_store]
  split
  · rw [List.getElem?_eq_none (by omega)]
    rfl
  · rfl

/-- Overwriting replaces a stretch of the bytes. -/
theorem load_store (m : Memory) {i : Nat} (new : List UInt8) (hi : i + new.length ≤ m.size) :
    (m.store i new).load 0 m.size =
      (m.load 0 m.size).take i ++ new ++ (m.load 0 m.size).drop (i + new.length) := by
  have hbefore : (m.store i new).load 0 i = m.load 0 i :=
    load_store_of_disjoint m i 0 i new (.inl (by omega))
  have hafter := load_store_of_disjoint m i (i + new.length) (m.size - (i + new.length)) new
    (.inr (Nat.le_refl _))
  calc (m.store i new).load 0 m.size
    _ = (m.store i new).load 0 (i + new.length + (m.size - (i + new.length))) := by
      rw [Nat.add_sub_cancel' hi]
    _ = (m.store i new).load 0 i ++ (m.store i new).load i new.length ++
        (m.store i new).load (i + new.length) (m.size - (i + new.length)) := by
      rw [load_add, load_add, Nat.zero_add, Nat.zero_add]
    _ = m.load 0 i ++ new ++ m.load (i + new.length) (m.size - (i + new.length)) := by
      rw [hbefore, load_store_self m i new hi, hafter]
    _ = _ := by rw [take_load m (by omega), drop_load m hi, Nat.zero_add]

/-! ## Words -/

theorem word?_eq (m : Memory) (i : Nat) :
    m.word? i = if i + 8 ≤ m.size then some (LittleEndian.ofBytes (m.load i 8)) else none := by
  unfold word? slice? Word.bytes
  split <;> rfl

theorem readWord_eq_ok_iff {m : Memory} {i w : Nat} :
    m.readWord i = .ok w ↔ i + 8 ≤ m.size ∧ LittleEndian.ofBytes (m.load i 8) = w := by
  rw [readWord, word?_eq]
  by_cases h : i + 8 ≤ m.size <;> simp [h]

/-- Whatever is read is a word. -/
theorem lt_limit_of_readWord {m : Memory} {i w : Nat} (h : m.readWord i = .ok w) :
    w < Word.limit := by
  obtain ⟨-, rfl⟩ := readWord_eq_ok_iff.mp h
  have := LittleEndian.ofBytes_lt (m.load i 8)
  rw [length_load] at this
  exact this

theorem writeWord_eq (m : Memory) (i w : Nat) :
    m.writeWord i w = if i + 8 ≤ m.size then .ok (m.store i (LittleEndian.toBytes 8 w))
      else .error .outOfRange := by
  unfold writeWord overwrite? Word.bytes
  rw [LittleEndian.length_toBytes]
  split <;> rename_i h <;> split at h <;> simp_all

theorem writeWord_eq_ok_iff {m m' : Memory} {i w : Nat} :
    m.writeWord i w = .ok m' ↔
      i + 8 ≤ m.size ∧ m' = m.store i (LittleEndian.toBytes 8 w) := by
  rw [writeWord_eq]
  by_cases h : i + 8 ≤ m.size
  · simp only [h, if_true, true_and, Except.ok.injEq]
    exact eq_comm
  · simp [h]

theorem size_of_writeWord {m m' : Memory} {i w : Nat} (h : m.writeWord i w = .ok m') :
    m'.size = m.size := by
  rw [(writeWord_eq_ok_iff.mp h).2, size_store]

/-- Writing a word changes no byte outside its place. -/
theorem byte_of_writeWord {m m' : Memory} {i w j : Nat} (h : m.writeWord i w = .ok m')
    (hj : j < i ∨ i + 8 ≤ j) : m'.byte j = m.byte j := by
  rw [(writeWord_eq_ok_iff.mp h).2, byte_store]
  split
  · rw [List.getElem?_eq_none (by rw [LittleEndian.length_toBytes]; omega)]
    rfl
  · rfl

/-- A word reads back as it was written. -/
theorem readWord_writeWord_self {m m' : Memory} {i w : Nat} (h : m.writeWord i w = .ok m')
    (hw : w < Word.limit) : m'.readWord i = .ok w := by
  obtain ⟨hi, hm⟩ := writeWord_eq_ok_iff.mp h
  have hl := load_store_self m i (LittleEndian.toBytes 8 w)
    (by rw [LittleEndian.length_toBytes]; exact hi)
  rw [LittleEndian.length_toBytes] at hl
  rw [hm, readWord_eq_ok_iff, size_store, hl, LittleEndian.ofBytes_toBytes]
  exact ⟨hi, Nat.mod_eq_of_lt hw⟩

/-- Writing a word leaves the words beside it as they were. -/
theorem readWord_writeWord_of_disjoint {m m' : Memory} {i j w : Nat}
    (h : m.writeWord i w = .ok m') (hij : j + 8 ≤ i ∨ i + 8 ≤ j) :
    m'.readWord j = m.readWord j := by
  obtain ⟨-, hm⟩ := writeWord_eq_ok_iff.mp h
  have hl := load_store_of_disjoint m i j 8 (LittleEndian.toBytes 8 w)
    (by rw [LittleEndian.length_toBytes]; exact hij)
  rw [hm, readWord, readWord, word?_eq, word?_eq, hl, size_store]

end BoundaryTag.Memory
