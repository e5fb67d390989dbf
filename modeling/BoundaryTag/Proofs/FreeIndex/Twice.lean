import Mathlib.Tactic.IntervalCases
import BoundaryTag.Proofs.FreeIndex.Ring
import BoundaryTag.Proofs.Memory.Overlap

set_option autoImplicit false

/-! # Taking a node off twice

A node can be taken off its list only if its neighbours link to it, and then they do so no more. So
it can be taken off twice in a row only if it links to itself (`linked_of_unlink_twice`). The links
are whatever words stand there: a neighbour need not be aligned, and its link may share bytes with
the node's own. In a memory of at most `2 ^ 40` bytes, where the highest three bytes of a link are
zero, such links cannot be right twice behind a blank header, except for the node at `2 ^ 32`. -/

namespace BoundaryTag

namespace Memory

variable {m : Memory} {i w : Nat}

theorem readWord_of_nextLink (h : m.nextLink i = .ok w) : m.readWord (i + 8) = .ok w := by
  simp only [nextLink, bind_eq_ok_iff] at h
  obtain ⟨j, hj, h⟩ := h
  obtain ⟨rfl, -⟩ := Word.add_eq_ok_iff.mp hj
  exact h

theorem readWord_of_priorLink (h : m.priorLink i = .ok w) : m.readWord (i + 16) = .ok w := by
  simp only [priorLink, bind_eq_ok_iff] at h
  obtain ⟨j, hj, k, hk, h⟩ := h
  obtain ⟨rfl, -⟩ := Word.add_eq_ok_iff.mp hj
  obtain ⟨rfl, -⟩ := Word.add_eq_ok_iff.mp hk
  exact h

end Memory

namespace FreeIndex

variable {m m₁ m₂ m' : Memory} {o u v u' v' : Nat}

/-- The node `o` is taken off between `v` and `u`, by a write of the link of `v` to `u` and one of the
    link of `u` back to `v`. -/
structure Removes (m m₁ m' : Memory) (o u v : Nat) : Prop where
  next : m.readWord (o + 8) = .ok u
  prior : m.readWord (o + 16) = .ok v
  forth : m.readWord (v + 8) = .ok o
  back : m.readWord (u + 16) = .ok o
  write_next : m.writeWord (v + 8) u = .ok m₁
  write_prior : m₁.writeWord (u + 16) v = .ok m'

theorem exists_removes (h : unlink m o = .ok m') : ∃ m₁ u v, Removes m m₁ m' o u v := by
  simp only [unlink, isLinked, Memory.setNextLink, Memory.setPriorLink, bind_eq_ok_iff] at h
  obtain ⟨u, hu, v, hv, linked, ⟨a, ha, hlinked⟩, h⟩ := h
  split at h
  · rename_i htrue
    split at hlinked
    · rename_i hao
      simp only [bind_eq_ok_iff, pure_eq_ok_iff] at hlinked h
      obtain ⟨c, hc, hco⟩ := hlinked
      obtain ⟨m₁, ⟨j, hj, hm₁⟩, l, hl, k, hk, hm'⟩ := h
      rw [htrue, beq_iff_eq] at hco
      obtain ⟨rfl, -⟩ := Word.add_eq_ok_iff.mp hj
      obtain ⟨rfl, -⟩ := Word.add_eq_ok_iff.mp hl
      obtain ⟨rfl, -⟩ := Word.add_eq_ok_iff.mp hk
      exact ⟨m₁, u, v, Memory.readWord_of_nextLink hu, Memory.readWord_of_priorLink hv,
        hao ▸ Memory.readWord_of_nextLink ha, hco ▸ Memory.readWord_of_priorLink hc, hm₁, hm'⟩
    · rw [pure_eq_ok_iff] at hlinked
      rw [htrue] at hlinked
      cases hlinked
  · cases h

/-- A node that can be taken off its list has a list lead through it. -/
theorem leadsThrough_of_unlink (h : unlink m o = .ok m') : m.LeadsThrough o := by
  obtain ⟨m₁, u, v, hr⟩ := exists_removes h
  exact ⟨v, u, ⟨hr.forth, hr.prior⟩, hr.next, hr.back⟩

/-- A node can be taken off its list exactly if a list leads through it. -/
theorem exists_unlink_iff (hlim : m.size < Word.limit) :
    (∃ m', unlink m o = .ok m') ↔ m.LeadsThrough o := by
  refine ⟨fun ⟨m', hm'⟩ => leadsThrough_of_unlink hm', ?_⟩
  rintro ⟨v, u, ⟨hforth, hprior⟩, hnext, hback⟩
  have hv := Memory.le_size_of_readWord hforth
  have hu := Memory.le_size_of_readWord hback
  have ho := Memory.le_size_of_readWord hprior
  have hlinked : isLinked m o v u = .ok true := by
    rw [isLinked, Memory.nextLink_eq (by omega), hforth, Memory.priorLink_eq (by omega), hback]
    simp only [ok_bind, if_true, beq_self_eq_true]
    rfl
  obtain ⟨m₁, hm₁, -, ht⟩ := Memory.exists_setNextLink (m := m) (i := v) (w := u) hlim hv (by omega)
  obtain ⟨m₂, hm₂, -⟩ := Memory.exists_setPriorLink (m := m₁) (i := u) (w := v)
    (by rwa [ht.size_eq]) (by rwa [ht.size_eq]) (by omega)
  refine ⟨m₂, ?_⟩
  rw [unlink, Memory.nextLink_eq (by omega), hnext, Memory.priorLink_eq (by omega), hprior]
  simp only [ok_bind, hlinked, if_true, hm₁, hm₂]

/-! ## Links that share bytes -/

theorem div_mod_of_lt {x k : Nat} (hx : x < 2 ^ 40) (hk : 5 ≤ k) :
    x / 256 ^ k = 0 ∧ x % 256 ^ k = x := by
  have hlt : x < 256 ^ k := Nat.lt_of_lt_of_le hx
    (Nat.pow_le_pow_right (n := 256) (by decide) hk)
  exact ⟨Nat.div_eq_of_lt hlt, Nat.mod_eq_of_lt hlt⟩

/-- If the link of `u` back to `o` is the upper half of the link of `o` to `u`, then the halves of `o`
    are equal. -/
theorem halves_eq (hmod : o % 8 = 0) (ho : 24 ≤ o) (hne32 : o ≠ 2 ^ 32) (hlt : o < 2 ^ 40)
    (hu : u + 4 = o) (hshare : u / 256 ^ 4 = o % 256 ^ 4) :
    o / 256 ^ 4 = o % 256 ^ 4 ∧ u / 256 ^ 4 = o / 256 ^ 4 := by
  have hhalves : o / 256 ^ 4 = o % 256 ^ 4 := by omega
  exact ⟨hhalves, hshare.trans hhalves.symm⟩

/-- Then an offset with the same lower half is far away. -/
theorem far_of_halves (hhalves : o / 256 ^ 4 = o % 256 ^ 4) (hshare : o / 256 ^ 4 = v % 256 ^ 4)
    (hvo : v ≠ o) : v + 8 ≤ o ∨ o + 8 ≤ v := by
  have ho := Nat.div_add_mod o (256 ^ 4)
  have hv := Nat.div_add_mod v (256 ^ 4)
  rw [← hhalves] at ho
  rw [← hshare] at hv
  generalize o / 256 ^ 4 = h at ho hv
  generalize v / 256 ^ 4 = y at hv
  omega

/-- The link of `u` back to `o` does not reach into the link of `o` to `u` from below. -/
theorem not_near_next_below (hmod : o % 8 = 0) (ho : 24 ≤ o) (hlt : o < 2 ^ 40) (hu : u < 2 ^ 40)
    (hblank : m.readWord o = .ok 0) (hnext : m.readWord (o + 8) = .ok u)
    (hback : m.readWord (u + 16) = .ok o) : ¬ (o < u + 16 ∧ u + 8 < o) := by
  rintro ⟨hreach, hbelow⟩
  obtain ⟨e, he⟩ : ∃ e, u + 16 + e = o + 8 := ⟨o + 8 - (u + 16), by omega⟩
  rw [← he] at hnext
  have hshare := Memory.div_eq_mod_of_readWord (s := e) (by omega) hback hnext
  obtain hlow | rfl | hhigh := Nat.lt_trichotomy e 4
  · rw [(div_mod_of_lt hu (by omega)).2] at hshare
    interval_cases e <;> omega
  · -- the lower half is the upper half of the header
    obtain rfl : u + 12 = o := by omega
    have hzero := Memory.div_eq_mod_of_readWord (s := 4) (by omega) hblank hback
    omega
  · rw [(div_mod_of_lt hlt hhigh).1] at hshare
    have hlt8 : e < 8 := by omega
    interval_cases e <;> omega

/-- If the link of `u` back to `o` shares bytes with the link of `o` to `u`, then it starts in the
    upper half of the latter, and the link of `v` to `o` shares none with that one. If it starts in
    the middle, then that upper half is the lower half of the link of `o` to `v`. -/
theorem near_next (hmod : o % 8 = 0) (ho : 24 ≤ o) (hne32 : o ≠ 2 ^ 32) (hlt : o < 2 ^ 40)
    (hu : u < 2 ^ 40) (hv : v < 2 ^ 40) (hblank : m.readWord o = .ok 0)
    (hnext : m.readWord (o + 8) = .ok u) (hprior : m.readWord (o + 16) = .ok v)
    (hback : m.readWord (u + 16) = .ok o) (hne : u ≠ o) (hvo : v ≠ o)
    (hnear : o < u + 16 ∧ u < o) :
    ∃ d, 4 ≤ d ∧ d < 8 ∧ u + 16 = o + 8 + d ∧ (v + 8 ≤ o ∨ o + 8 ≤ v) ∧
      (d = 4 → v % 256 ^ 4 = u / 256 ^ 4) := by
  obtain hbelow | heq | habove : u + 8 < o ∨ u + 8 = o ∨ o < u + 8 := by omega
  · exact absurd ⟨hnear.1, hbelow⟩ (not_near_next_below hmod ho hlt hu hblank hnext hback)
  · have hword : u + 16 = o + 8 := by omega
    rw [hword, hnext] at hback
    exact absurd (Except.ok.inj hback) hne
  · obtain ⟨d, hd⟩ : ∃ d, u + 16 = o + 8 + d := ⟨u + 16 - (o + 8), by omega⟩
    have hprior' : m.readWord (o + 8 + d + (8 - d)) = .ok v := by
      have hword : o + 8 + d + (8 - d) = o + 16 := by omega
      rw [hword, hprior]
    rw [hd] at hback
    have hshare := Memory.div_eq_mod_of_readWord (s := d) (by omega) hnext hback
    have hshare' := Memory.div_eq_mod_of_readWord (s := 8 - d) (by omega) hback hprior'
    obtain hlow | rfl | hhigh := Nat.lt_trichotomy d 4
    · rw [(div_mod_of_lt hlt (by omega)).2] at hshare
      interval_cases d <;> omega
    · obtain ⟨hhalves, hupper⟩ := halves_eq hmod ho hne32 hlt (by omega) hshare
      exact ⟨4, by omega, by omega, hd, far_of_halves hhalves hshare' hvo,
        fun _ => hshare'.symm.trans hupper.symm⟩
    · have hlt8 : d < 8 := by omega
      rw [(div_mod_of_lt hv (by omega)).2] at hshare'
      refine ⟨d, by omega, hlt8, hd, .inl ?_, by omega⟩
      interval_cases d <;> omega

/-- If the link of `v` to `o` shares bytes with the link of `o` to another node and starts before it,
    then `v` is just below `o`; four bytes below only if the lower half of `o` is zero. -/
theorem near_below (hblank : m.readWord o = .ok 0) (hnext : m.readWord (o + 8) = .ok u)
    (hforth : m.readWord (v + 8) = .ok o) (hvo : v < o) (hnear : o < v + 8) :
    ∃ j, 0 < j ∧ j < 8 ∧ v + j = o ∧ o / 256 ^ j = u % 256 ^ (8 - j) ∧
      (j = 4 → o % 256 ^ 4 = 0) := by
  obtain ⟨j, hj⟩ : ∃ j, v + j = o := ⟨o - v, by omega⟩
  have hword : o + 8 = v + 8 + j := by omega
  rw [hword] at hnext
  refine ⟨j, by omega, by omega, hj,
    Memory.div_eq_mod_of_readWord (by omega) hforth hnext, fun hfour => ?_⟩
  -- the lower half is the upper half of the header
  have hword : v + 8 = o + 4 := by omega
  rw [hword] at hforth
  exact (Memory.div_eq_mod_of_readWord (s := 4) (by omega) hblank hforth).symm

theorem halves_of_above (hmod : o % 8 = 0) (hshare : o / 256 ^ 4 = (o + 4) % 256 ^ 4) :
    (o + 4) / 256 ^ 4 = o / 256 ^ 4 ∧ o % 256 ^ 4 + 4 = o / 256 ^ 4 := by
  omega

/-- If it starts after it, then it does so in the middle, and the other node is below `o`. -/
theorem near_above (hmod : o % 8 = 0) (hlt : o < 2 ^ 40) (hv : v < 2 ^ 40)
    (hnext : m.readWord (o + 8) = .ok u) (hprior : m.readWord (o + 16) = .ok v)
    (hforth : m.readWord (v + 8) = .ok o) (hov : o < v) (hnear : v < o + 8) :
    v = o + 4 ∧ u < o := by
  obtain ⟨k, rfl⟩ : ∃ k, v = o + k := ⟨v - o, by omega⟩
  have hprior' : m.readWord (o + 8 + k + (8 - k)) = .ok (o + k) := by
    have hword : o + 8 + k + (8 - k) = o + 16 := by omega
    rw [hword, hprior]
  rw [Nat.add_right_comm] at hforth
  have hshare := Memory.div_eq_mod_of_readWord (s := 8 - k) (by omega) hforth hprior'
  obtain hlow | rfl | hhigh := Nat.lt_trichotomy k 4
  · exfalso
    rw [(div_mod_of_lt hlt (by omega)).1] at hshare
    interval_cases k <;> omega
  · have hshare' := Memory.div_eq_mod_of_readWord (s := 4) (by omega) hnext hforth
    have hhalves := (halves_of_above hmod hshare).2
    refine ⟨rfl, Nat.lt_of_div_lt_div (c := 256 ^ 4) ?_⟩
    rw [hshare', ← hhalves]
    exact Nat.lt_add_of_pos_right (by decide)
  · exfalso
    have hlt8 : k < 8 := by omega
    rw [(div_mod_of_lt hv (by omega)).2] at hshare
    interval_cases k <;> omega

/-! ## Twice -/

theorem Removes.lt (hr : Removes m m₁ m' o u v) (hsize : m.size ≤ 2 ^ 40) :
    o < 2 ^ 40 ∧ u < 2 ^ 40 ∧ v < 2 ^ 40 := by
  have hnext := Memory.le_size_of_readWord hr.next
  have hforth := Memory.le_size_of_readWord hr.forth
  have hback := Memory.le_size_of_readWord hr.back
  omega

/-- The write of the link of `u` back to `v` does not change what `o` links to, even where it
    reaches. -/
theorem Removes.next_of_near (hr : Removes m m₁ m' o u v) (hsize : m.size ≤ 2 ^ 40)
    (hmod : o % 8 = 0) (ho : 24 ≤ o) (hne32 : o ≠ 2 ^ 32) (hblank : m.readWord o = .ok 0)
    (hne : u ≠ o) (hvo : v ≠ o) (hnear : o < u + 16 ∧ u < o)
    (hnext' : m'.readWord (o + 8) = .ok u') (hu' : u' < 2 ^ 40) : u' = u := by
  obtain ⟨hlt, hu, hv⟩ := hr.lt hsize
  have hlimit : (2 : Nat) ^ 40 < Word.limit := by decide
  obtain ⟨d, hd4, hd8, hd, hfar, hhalf⟩ := near_next hmod ho hne32 hlt hu hv hblank hr.next hr.prior
    hr.back hne hvo hnear
  have hnext : m₁.readWord (o + 8) = .ok u := by
    rw [(Memory.touches_of_writeWord hr.write_next).readWord_eq
      (by simp only [List.forall_mem_singleton]; omega), hr.next]
  have hself := Memory.readWord_writeWord_self hr.write_prior (by omega)
  have hwritten := hr.write_prior
  rw [hd] at hself hwritten
  have hlow := Memory.mod_eq_of_writeWord (by omega) hwritten hnext hnext'
  obtain rfl | hhigh := Nat.eq_or_lt_of_le hd4
  · have hshare := Memory.div_eq_mod_of_readWord (by omega) hnext' hself
    rw [← Nat.div_add_mod u' (256 ^ 4), ← Nat.div_add_mod u (256 ^ 4), hlow, hshare, hhalf rfl]
  · rwa [(div_mod_of_lt hu' hhigh).2, (div_mod_of_lt hu hhigh).2] at hlow

/-- The write of the link of `v` to `u` may change what `o` links to where it reaches. But then `v`
    is still the node before `o`, and links to `u`. -/
theorem Removes.next_or_prior (hr : Removes m m₁ m' o u v) (hsize : m.size ≤ 2 ^ 40)
    (ho : 24 ≤ o) (hblank : m.readWord o = .ok 0) (hvo : v < o) (hnear : o < v + 8)
    (hfar : ¬ (o < u + 16 ∧ u < o)) (hnext' : m'.readWord (o + 8) = .ok u') :
    u' = u ∨ (m'.readWord (o + 16) = .ok v ∧ m'.readWord (v + 8) = .ok u) := by
  obtain ⟨hlt, hu, hv⟩ := hr.lt hsize
  have hlimit : (2 : Nat) ^ 40 < Word.limit := by decide
  have hwrite := Memory.touches_of_writeWord hr.write_next
  have hwrite' := Memory.touches_of_writeWord hr.write_prior
  have hself := Memory.readWord_writeWord_self hr.write_next (by omega)
  obtain ⟨j, hj0, hj8, hj, hshare, hhalf⟩ := near_below hblank hr.next hr.forth hvo hnear
  by_cases hreach : u + 16 + j ≤ o ∨ o + 8 ≤ u
  · right
    constructor
    · rw [hwrite'.readWord_eq (by simp only [List.forall_mem_singleton]; omega),
        hwrite.readWord_eq (by simp only [List.forall_mem_singleton]; omega), hr.prior]
    · rw [hwrite'.readWord_eq (by simp only [List.forall_mem_singleton]; omega), hself]
  · left
    have hsame : u % 256 ^ (8 - j) = u / 256 ^ j := by
      obtain hlow | rfl | hhigh := Nat.lt_trichotomy j 4
      · rw [(div_mod_of_lt hu (by omega)).2] at hshare
        interval_cases j <;> omega
      · have hzero := hhalf rfl
        omega
      · rw [← hshare, (div_mod_of_lt hlt hhigh).1, (div_mod_of_lt hu hhigh).1]
    have hnext := hr.next
    have hnext₁ : m₁.readWord (o + 8) = .ok u' := by
      rw [← hwrite'.readWord_eq (by simp only [List.forall_mem_singleton]; omega), hnext']
    have hword : o + 8 = v + 8 + j := by omega
    rw [hword] at hnext hnext₁
    have hkept := Memory.div_eq_of_writeWord (by omega) hr.write_next hnext hnext₁
    have hwritten := Memory.div_eq_mod_of_readWord (by omega) hself hnext₁
    rw [← Nat.div_add_mod u' (256 ^ (8 - j)), ← Nat.div_add_mod u (256 ^ (8 - j)), hkept, hsame,
      ← hwritten]

/-- If that write reaches the middle of what `o` links to, then `o` comes to link back to itself, but
    not on to itself. -/
theorem Removes.prior_of_above (hr : Removes m m₁ m' o u v) (hsize : m.size ≤ 2 ^ 40)
    (hmod : o % 8 = 0) (hov : o < v) (hnear : v < o + 8) (hfar : ¬ (o < u + 16 ∧ u < o))
    (hnext' : m'.readWord (o + 8) = .ok u') (hprior' : m'.readWord (o + 16) = .ok v') :
    v' = o ∧ u' ≠ o := by
  obtain ⟨hlt, hu, hv⟩ := hr.lt hsize
  have hlimit : (2 : Nat) ^ 40 < Word.limit := by decide
  obtain ⟨rfl, huo⟩ := near_above hmod hlt hv hr.next hr.prior hr.forth hov hnear
  have hwrite' := Memory.touches_of_writeWord hr.write_prior
  rw [hwrite'.readWord_eq (by simp only [List.forall_mem_singleton]; omega)] at hnext' hprior'
  have hwritten := hr.write_next
  have hself := Memory.readWord_writeWord_self hwritten (by omega)
  have hmiddle : o + 4 + 8 = o + 8 + 4 := by omega
  have hforth := hr.forth
  rw [hmiddle] at hwritten hself hforth
  have hkept := Memory.mod_eq_of_writeWord (by omega) hwritten hr.next hnext'
  have hkept' := Memory.div_eq_of_writeWord (s := 4) (by omega) hwritten hr.prior hprior'
  have hnew := Memory.div_eq_mod_of_readWord (by omega) hnext' hself
  have hnew' := Memory.div_eq_mod_of_readWord (s := 4) (by omega) hself hprior'
  have hold := Memory.div_eq_mod_of_readWord (by omega) hr.next hforth
  obtain ⟨hcarry, hhalves⟩ := halves_of_above hmod
    (Memory.div_eq_mod_of_readWord (s := 4) (by omega) hforth hr.prior)
  constructor
  · calc v' = 256 ^ 4 * (v' / 256 ^ 4) + v' % 256 ^ 4 := (Nat.div_add_mod _ _).symm
      _ = 256 ^ 4 * (o / 256 ^ 4) + o % 256 ^ 4 := by rw [hkept', ← hnew', hold, hcarry]
      _ = o := Nat.div_add_mod _ _
  · rintro rfl
    rw [hkept, ← hnew] at hhalves
    exact absurd hhalves (Nat.ne_of_gt (Nat.lt_add_of_pos_right (by decide)))

/-- A node behind a blank header can be taken off twice in a row only if it links to itself. -/
theorem linked_of_unlink_twice (hsize : m.size ≤ 2 ^ 40) (hmod : o % 8 = 0) (ho : 24 ≤ o)
    (hne32 : o ≠ 2 ^ 32) (hblank : m.readWord o = .ok 0)
    (h : unlink m o = .ok m₁) (h' : unlink m₁ o = .ok m₂) : m.Linked o o := by
  obtain ⟨k, u, v, hr⟩ := exists_removes h
  obtain ⟨_, u', v', hr'⟩ := exists_removes h'
  have hwrite := Memory.touches_of_writeWord hr.write_next
  have hwrite' := Memory.touches_of_writeWord hr.write_prior
  obtain ⟨hlt, hu, hv⟩ := hr.lt hsize
  obtain ⟨-, hu', -⟩ := hr'.lt (by rwa [hwrite'.size_eq, hwrite.size_eq])
  have hlimit : (2 : Nat) ^ 40 < Word.limit := by decide
  by_cases hvo : v = o
  · subst hvo
    exact ⟨hr.forth, hr.prior⟩
  exfalso
  have huo : u ≠ o := by
    rintro rfl
    exact hvo (Except.ok.inj (hr.prior.symm.trans hr.back))
  -- the second time another word stands for the node after, as the first one now links back to `v`
  have hne : u' ≠ u := by
    rintro rfl
    have hback := Memory.readWord_writeWord_self hr.write_prior (by omega)
    exact hvo (Except.ok.inj (hback.symm.trans hr'.back))
  by_cases hnear : o < u + 16 ∧ u < o
  · exact hne (hr.next_of_near hsize hmod ho hne32 hblank huo hvo hnear hr'.next hu')
  obtain hfar | hbelow | habove : (v + 8 ≤ o ∨ o + 8 ≤ v) ∨ (v < o ∧ o < v + 8) ∨
    (o < v ∧ v < o + 8) := by omega
  · have hnext : m₁.readWord (o + 8) = .ok u := by
      rw [hwrite'.readWord_eq (by simp only [List.forall_mem_singleton]; omega),
        hwrite.readWord_eq (by simp only [List.forall_mem_singleton]; omega), hr.next]
    exact hne (Except.ok.inj (hr'.next.symm.trans hnext))
  · rcases hr.next_or_prior hsize ho hblank hbelow.1 hbelow.2 hnear hr'.next with
      hsame | ⟨hprior, hforth⟩
    · exact hne hsame
    · cases Except.ok.inj (hprior.symm.trans hr'.prior)
      exact huo (Except.ok.inj (hforth.symm.trans hr'.forth))
  · obtain ⟨rfl, hself⟩ := hr.prior_of_above hsize hmod habove.1 habove.2 hnear hr'.next hr'.prior
    exact hself (Except.ok.inj (hr'.next.symm.trans hr'.forth))

end FreeIndex

end BoundaryTag
