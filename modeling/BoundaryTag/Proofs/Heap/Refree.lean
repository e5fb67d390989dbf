import BoundaryTag.Proofs.Heap.Misled
import BoundaryTag.Proofs.Memory.Words

set_option autoImplicit false

/-! # Freeing what is not allocated

Freeing goes by the header that it finds, whatever that is. If the header has a size and says that
the block before is allocated, and the header after it is not that of a free block, then nothing is
merged, and seven words are written at most: the header and its footer, the header after it, and
four links (`words_of_refree`). If it has no size, two words and four links are
(`words_of_refree_blank`). -/

namespace BoundaryTag

open Function (update)

variable {m m₁ m₂ m' : Memory} {f : Nat → Nat} {n o size start next : Nat} {x : FreeIndex}
  {t : Tag}

/-- The tag, where it comes right after a free block. -/
def Tag.behindFree (t : Tag) : Tag :=
  { t with prevAllocated := false }

/-- The words after a free block of `size` bytes was formatted at `o`. -/
def formatted (f : Nat → Nat) (o size : Nat) : Nat → Nat :=
  update (update f o (Tag.free size true).pack) (o + size - 8) (Tag.free size true).pack

/-- The words after the header behind that block was told of it as well. -/
def struck (f : Nat → Nat) (o size : Nat) : Nat → Nat :=
  update (update (update f o (Tag.free size true).pack) (o + size - 8) (Tag.free size true).pack)
    (o + size) (Tag.unpack (f (o + size))).behindFree.pack

/-- The words after a node at `o` was pushed behind a head. -/
def relinked (f : Nat → Nat) (o head : Nat) : Nat → Nat :=
  update (update (update (update f (o + 16) head) (o + 8) (f (head + 8))) (f (head + 8) + 16) o)
    (head + 8) o

/-- The words after a header at `o` and a footer before it were blanked. -/
def blanked (f : Nat → Nat) (o : Nat) : Nat → Nat :=
  update (update f o 0) (o - 8) 0

theorem Tag.unpack_pack_of_mod {t : Tag} (h : t.size % 8 = 0) : Tag.unpack t.pack = t := by
  rw [Tag.unpack_pack]
  have hs : t.size / 8 * 8 = t.size := by omega
  rw [hs]

section Struck

variable (h0 : size ≠ 0) (hsize : size % 8 = 0)

theorem formatted_self : formatted f o size o = (Tag.free size true).pack := by
  rw [formatted]
  by_cases h8 : o = o + size - 8
  · rw [← h8, Function.update_self]
  · rw [Function.update_of_ne h8, Function.update_self]

include h0 hsize in
theorem formatted_next : formatted f o size (o + size) = f (o + size) := by
  rw [formatted, Function.update_of_ne (by omega), Function.update_of_ne (by omega)]

include h0 in
theorem struck_self : struck f o size o = (Tag.free size true).pack := by
  rw [struck, Function.update_of_ne (by omega)]
  exact formatted_self

theorem struck_next : struck f o size (o + size) = (Tag.unpack (f (o + size))).behindFree.pack :=
  Function.update_self _ _ _

include h0 hsize in
theorem struck_footer : struck f o size (o + size - 8) = (Tag.free size true).pack := by
  rw [struck, Function.update_of_ne (by omega), Function.update_self]

include h0 hsize in
theorem tag_struck_self : Tag.unpack (struck f o size o) = Tag.free size true := by
  rw [struck_self h0]
  exact Tag.unpack_pack_of_mod hsize

theorem tag_struck_next :
    Tag.unpack (struck f o size (o + size)) = (Tag.unpack (f (o + size))).behindFree := by
  rw [struck_next]
  exact Tag.unpack_pack_of_mod (Tag.size_unpack_mod _)

include h0 hsize in
/-- The header, the footer and the header behind are written a second time as they are. -/
theorem struck_struck : struck (struck f o size) o size = struck f o size := by
  have hself : update (struck f o size) o (Tag.free size true).pack = struck f o size :=
    Function.update_eq_self_iff.mpr (struck_self h0).symm
  have hfooter : update (struck f o size) (o + size - 8) (Tag.free size true).pack =
      struck f o size := Function.update_eq_self_iff.mpr (struck_footer h0 hsize).symm
  have hbehind : update (struck f o size) (o + size)
      (Tag.unpack (struck f o size (o + size))).behindFree.pack = struck f o size := by
    rw [Function.update_eq_self_iff, tag_struck_next, struck_next]
    rfl
  calc struck (struck f o size) o size
      = update (update (update (struck f o size) o (Tag.free size true).pack) (o + size - 8)
          (Tag.free size true).pack) (o + size)
          (Tag.unpack (struck f o size (o + size))).behindFree.pack := rfl
    _ = struck f o size := by rw [hself, hfooter, hbehind]

end Struck

namespace Heap

/-- A free block is formatted, and the header that it leads to, which is allocated, is told so. -/
theorem words_of_retagged (hw : m.Words n f) (ho : o % 8 = 0) (h0 : t.size ≠ 0)
    (hsize : t.size % 8 = 0) (hprev : t.prevAllocated = true)
    (hnext : (Tag.unpack (f (o + t.size))).allocated = true) (hm : retagged m o t = .ok m') :
    m'.Words n (struck f o t.size) := by
  simp only [retagged, bind_eq_ok_iff] at hm
  obtain ⟨m₁, hm₁, next, hsucc, hm⟩ := hm
  rw [hprev] at hm₁
  have hw₁ : m₁.Words n (formatted f o t.size) := (hw.formatFree ho hsize hm₁).1
  have htag := Memory.tagAt_formatFree_self hm₁ hsize
  simp only [Memory.successor, Memory.sizeAt_of_tagAt htag, ok_bind] at hsucc
  obtain ⟨rfl, -⟩ := Word.add_eq_ok_iff.mp hsucc
  change m₁.markPrevAllocated (o + t.size) false = .ok m' at hm
  have hkeep := formatted_next (f := f) (o := o) h0 hsize
  have hw' := (hw₁.markPrevAllocated (by omega) (.inl (by rw [hkeep]; exact hnext)) hm).1
  rwa [hkeep] at hw'

/-- A block between allocated neighbours, as the headers say, is merged with nothing. -/
theorem words_of_merge (hw : m.Words n (struck f o size)) (ho : o % 8 = 0) (h0 : size ≠ 0)
    (hsize : size % 8 = 0) (hnext : (Tag.unpack (f (o + size))).allocated = true)
    (hn : Neighbours m o next false false) (hm : (merge m o).result = .ok (start, m')) :
    start = o ∧ m'.Words n (struck f o size) := by
  obtain ⟨t, ht, -⟩ := bind_eq_ok_iff.mp hn.prev_eq
  obtain rfl : Tag.free size true = t := by
    rw [← ((hw.tagAt_iff ho).mp ht).2, tag_struck_self h0 hsize]
  obtain ⟨rfl, hagain⟩ := retagged_of_merge hn ht hm
  have hall : (Tag.unpack (struck f start size (start + size))).allocated = true := by
    rw [tag_struck_next]
    exact hnext
  have hw' : m'.Words n (struck (struck f start size) start size) :=
    words_of_retagged (t := Tag.free size true) hw ho h0 hsize rfl hall hagain
  rw [struck_struck h0 hsize] at hw'
  exact ⟨rfl, hw'⟩

/-- Pushing a block writes four links. -/
theorem words_of_push (hw : m.Words n f) (hlim : n < Word.limit) (ho : o % 8 = 0)
    (hbase : x.base % 8 = 0) (hsize : (Tag.unpack (f o)).size = size)
    (hfirst : f (x.headAt (x.classify size) + 8) % 8 = 0)
    (hm : x.push m o = .ok m') :
    m'.Words n (relinked f o (x.headAt (x.classify size))) := by
  simp only [FreeIndex.push, bind_eq_ok_iff] at hm
  obtain ⟨free, -, hm⟩ := hm
  split at hm
  · simp only [bind_eq_ok_iff, Memory.sizeAt, pure_eq_ok_iff] at hm
    obtain ⟨size', ⟨t, ht, hsize'⟩, head, hhead, first, hnode, m₁, hm₁, m₂, hm₂, m₃, hm₃, hm₄⟩ := hm
    obtain ⟨hle, rfl⟩ := (hw.tagAt_iff ho).mp ht
    rw [← hsize', hsize] at hhead
    obtain ⟨hheadAt, hheadlt⟩ := FreeIndex.head_eq_ok_iff.mp hhead
    have hhead8 : head % 8 = 0 := by omega
    change x.headAt (x.classify size) = head at hheadAt
    rw [hheadAt] at hfirst ⊢
    obtain ⟨hnodele, rfl⟩ := (hw.nextLink_iff hhead8 hlim).mp hnode
    have hfirstlt : f (head + 8) < Word.limit :=
      Memory.lt_limit_of_readWord (hw.readWord_eq (head + 8) (by omega) hnodele)
    obtain ⟨hw₁, hroom⟩ := hw.setPriorLink ho hheadlt hm₁
    have hw₂ := (hw₁.setNextLink ho hfirstlt hm₂).1
    have hw₃ := (hw₂.setPriorLink hfirst (by omega) hm₃).1
    exact (hw₃.setNextLink hhead8 (by omega) hm₄).1
  · cases hm

/-- What the words are after a header was freed that leads to no free neighbour. -/
theorem words_of_refree (hw : m.Words n f) (hlim : n < Word.limit) (ho : o % 8 = 0)
    (h0 : t.size ≠ 0) (hsize : t.size % 8 = 0) (hprev : t.prevAllocated = true)
    (hnext : (Tag.unpack (f (o + t.size))).allocated = true) (hbase : x.base % 8 = 0)
    (hheads : x.base + x.size * 24 ≤ o) (hfirst : f (x.headAt (x.classify t.size) + 8) % 8 = 0)
    (hm₁ : retagged m o t = .ok m₁) (hn : Neighbours m₁ o next false false)
    (hm₂ : (merge m₁ o).result = .ok (start, m₂)) (hm' : x.push m₂ start = .ok m') :
    m'.Words n (relinked (struck f o t.size) o (x.headAt (x.classify t.size))) := by
  have hw₁ := words_of_retagged hw ho h0 hsize hprev hnext hm₁
  obtain ⟨rfl, hw₂⟩ := words_of_merge hw₁ ho h0 hsize hnext hn hm₂
  have hhead : struck f start t.size (x.headAt (x.classify t.size) + 8) =
      f (x.headAt (x.classify t.size) + 8) := by
    have hclass := x.classify_lt_size t.size
    rw [struck, Function.update_of_ne, Function.update_of_ne, Function.update_of_ne]
    all_goals
      unfold FreeIndex.headAt
      omega
  have htag : (Tag.unpack (struck f start t.size start)).size = t.size := by
    rw [tag_struck_self h0 hsize]
    rfl
  exact words_of_push hw₂ hlim ho hbase htag (by rw [hhead]; exact hfirst) hm'

/-! ## A header without a size -/

/-- A node that links to itself is taken off to no effect. -/
theorem words_of_unlink_self (hw : m.Words n f) (hlim : n < Word.limit) (ho : o % 8 = 0)
    (hl : m.Linked o o) (hm : FreeIndex.unlink m o = .ok m') : m'.Words n f := by
  obtain ⟨k, u, v, hr⟩ := FreeIndex.exists_removes hm
  cases Except.ok.inj (hl.1.symm.trans hr.next)
  cases Except.ok.inj (hl.2.symm.trans hr.prior)
  have hle := Memory.le_size_of_readWord hl.2
  rw [hw.size_eq] at hle
  have hnext := ((hw.readWord_iff (i := o + 8) (by omega)).mp hl.1).2
  have hprior := ((hw.readWord_iff (i := o + 16) (by omega)).mp hl.2).2
  have hw₁ := hw.write (i := o + 8) (by omega) (by omega) hr.write_next
  rw [Function.update_eq_self_iff.mpr hnext.symm] at hw₁
  have hw₂ := hw₁.write (i := o + 16) (by omega) (by omega) hr.write_prior
  rwa [Function.update_eq_self_iff.mpr hprior.symm] at hw₂

theorem tag_of_blank {t : Tag} (hw : m.Words n f) (ho : o % 8 = 0) (hself : f o = 0)
    (ht : m.tagAt o = .ok t) : t = ⟨0, false, false⟩ := by
  rw [← ((hw.tagAt_iff ho).mp ht).2, hself]
  rfl

theorem blanked_self (h24 : 24 ≤ o) : blanked f o o = 0 := by
  rw [blanked, Function.update_of_ne (by omega), Function.update_self]

theorem blanked_update {w : Nat} (h24 : 24 ≤ o) :
    blanked (update (update f o 0) (o - 8) w) o = blanked f o := by
  have hne : o - 8 ≠ o := by omega
  rw [blanked, Function.update_comm hne, Function.update_idem, Function.update_idem, blanked]

/-- A block without a size is its own neighbour on both sides, and taken off a list twice. -/
theorem words_of_takeNeighbours_blank {merged : Nat} (hw : m.Words n f) (hlim : n ≤ 2 ^ 40)
    (hne : o ≠ 2 ^ 32) (ho : o % 8 = 0) (h24 : 24 ≤ o) (hself : f o = 0)
    (hfoot : (Tag.unpack (f (o - 8))).size = 0)
    (hm : takeNeighbours m o 0 o true true = .ok (start, merged, m')) :
    start = o ∧ merged = 0 ∧ m'.Words n f := by
  simp only [takeNeighbours, Memory.predecessor, Memory.sizeAt, bind_eq_ok_iff, pure_eq_ok_iff,
    Prod.mk.injEq] at hm
  obtain ⟨a, ⟨foot, hsub, t, ht, ha⟩, m₁, hm₁, m₂, hm₂, _, ⟨t', ht', rfl⟩, k, hk, _, ⟨t'', ht'', rfl⟩,
    l, hl, rfl, rfl, rfl⟩ := hm
  have h8 : Block.footerBytes = 8 := rfl
  rw [Word.sub_eq_ok_iff, h8] at hsub
  obtain rfl : foot = o - 8 := by omega
  rw [← ((hw.tagAt_iff (by omega)).mp ht).2, hfoot, Word.sub_eq_ok_iff] at ha
  obtain rfl : a = o := by omega
  have hlt : n < Word.limit := Nat.lt_of_le_of_lt hlim (by decide)
  have hblank : m.readWord a = .ok 0 := by
    obtain ⟨_, _, _, hr⟩ := FreeIndex.exists_removes hm₁
    have hroom := Memory.le_size_of_readWord hr.next
    rw [hw.size_eq] at hroom
    exact (hw.readWord_iff ho).mpr ⟨by omega, hself⟩
  have hlinked := FreeIndex.linked_of_unlink_twice (by rw [hw.size_eq]; exact hlim) ho h24 hne
    hblank hm₁ hm₂
  have hw₁ := words_of_unlink_self hw hlt ho hlinked hm₁
  have hnext := (hw.readWord_iff (i := a + 8) (by omega)).mp hlinked.1
  have hprior := (hw.readWord_iff (i := a + 16) (by omega)).mp hlinked.2
  have hlinked₁ : m₁.Linked a a :=
    ⟨(hw₁.readWord_iff (by omega)).mpr hnext, (hw₁.readWord_iff (by omega)).mpr hprior⟩
  have hw₂ := words_of_unlink_self hw₁ hlt ho hlinked₁ hm₂
  cases tag_of_blank hw₂ ho hself ht'
  cases tag_of_blank hw₂ ho hself ht''
  obtain ⟨rfl, -⟩ := Word.add_eq_ok_iff.mp hk
  obtain ⟨rfl, -⟩ := Word.add_eq_ok_iff.mp hl
  exact ⟨rfl, rfl, hw₂⟩

/-- A block without a size is its own successor, so it is told of itself. -/
theorem words_of_retagged_blank (hw : m.Words n f) (ho : o % 8 = 0) (h24 : 24 ≤ o)
    (h0 : t.size = 0) (hm : retagged m o t = .ok m') :
    m'.Words n (update (update f o 0) (o - 8) (Tag.free 0 t.prevAllocated).pack) := by
  simp only [retagged, bind_eq_ok_iff] at hm
  obtain ⟨m₁, hm₁, next, hsucc, hm⟩ := hm
  rw [h0] at hm₁
  have hne : o - 8 ≠ o := by omega
  have hfree : Tag.unpack (Tag.free 0 t.prevAllocated).pack = Tag.free 0 t.prevAllocated :=
    Tag.unpack_pack_of_mod rfl
  have hw₁ := (hw.formatFree ho rfl hm₁).1
  rw [Nat.add_zero] at hw₁
  have htag := Memory.tagAt_formatFree_self hm₁ rfl
  simp only [Memory.successor, Memory.sizeAt_of_tagAt htag, ok_bind] at hsucc
  obtain ⟨rfl, -⟩ := Word.add_eq_ok_iff.mp hsucc
  have hself : Tag.unpack (update (update f o (Tag.free 0 t.prevAllocated).pack) (o - 8)
      (Tag.free 0 t.prevAllocated).pack o) = Tag.free 0 t.prevAllocated := by
    rw [Function.update_of_ne hne.symm, Function.update_self, hfree]
  have hsmall : (Tag.free 0 t.prevAllocated).size < 32 := Nat.zero_lt_succ 31
  have hw' := (hw₁.markPrevAllocated ho (.inr (by rw [hself]; exact hsmall)) hm).1
  have hblank : { Tag.free 0 t.prevAllocated with prevAllocated := false }.pack = 0 := by
    simp [Tag.free, Tag.pack]
  rwa [hself, hblank, Function.update_comm hne, Function.update_idem] at hw'

theorem words_of_merge_blank (hw : m.Words n f) (hlim : n ≤ 2 ^ 40) (hne : o ≠ 2 ^ 32)
    (ho : o % 8 = 0) (h24 : 24 ≤ o) (hself : f o = 0)
    (hfoot : (Tag.unpack (f (o - 8))).size = 0) (hm : (merge m o).result = .ok (start, m')) :
    start = o ∧ m'.Words n (blanked f o) := by
  obtain ⟨size, next, prevFree, nextFree, merged, m₁, prev, hsize, hn, htake, hprev, hagain⟩ :=
    exists_of_merge hm
  obtain ⟨t, ht, -⟩ := bind_eq_ok_iff.mp hsize
  cases tag_of_blank hw ho hself ht
  obtain ⟨rfl, rfl, u, hu, rfl⟩ := hn.of_tag ht
  cases tag_of_blank hw ho hself hu
  cases (Memory.sizeAt_of_tagAt ht).symm.trans hsize
  obtain ⟨rfl, rfl, hw₁⟩ :=
    words_of_takeNeighbours_blank hw hlim hne ho h24 hself hfoot htake
  obtain ⟨t, ht, -⟩ := bind_eq_ok_iff.mp hprev
  cases tag_of_blank hw₁ ho hself ht
  cases (Memory.prevAllocatedAt_of_tagAt ht).symm.trans hprev
  exact ⟨rfl, words_of_retagged_blank hw₁ ho h24 rfl hagain⟩

/-- What the words are after a header without a size was freed. -/
theorem words_of_refree_blank (hw : m.Words n f) (hlim : n ≤ 2 ^ 40) (hne : o ≠ 2 ^ 32)
    (ho : o % 8 = 0) (h24 : 24 ≤ o) (h0 : t.size = 0) (hbase : x.base % 8 = 0)
    (hheads : x.base + x.size * 24 ≤ o) (hfirst : f (x.headAt (x.classify 0) + 8) % 8 = 0)
    (hm₁ : retagged m o t = .ok m₁) (hm₂ : (merge m₁ o).result = .ok (start, m₂))
    (hm' : x.push m₂ start = .ok m') :
    m'.Words n (relinked (blanked f o) o (x.headAt (x.classify 0))) := by
  have hw₁ := words_of_retagged_blank hw ho h24 h0 hm₁
  have hself : update (update f o 0) (o - 8) (Tag.free 0 t.prevAllocated).pack o = 0 := by
    rw [Function.update_of_ne (by omega), Function.update_self]
  have hfoot : (Tag.unpack (update (update f o 0) (o - 8)
      (Tag.free 0 t.prevAllocated).pack (o - 8))).size = 0 := by
    rw [Function.update_self, Tag.unpack_pack_of_mod rfl]
    rfl
  obtain ⟨rfl, hw₂⟩ := words_of_merge_blank hw₁ hlim hne ho h24 hself hfoot hm₂
  rw [blanked_update h24] at hw₂
  have hhead : blanked f start (x.headAt (x.classify 0) + 8) = f (x.headAt (x.classify 0) + 8) := by
    have hclass := x.classify_lt_size 0
    rw [blanked, Function.update_of_ne, Function.update_of_ne]
    all_goals
      unfold FreeIndex.headAt
      omega
  have htag : (Tag.unpack (blanked f start start)).size = 0 := by
    rw [blanked_self h24]
    rfl
  exact words_of_push hw₂ (Nat.lt_of_le_of_lt hlim (by decide)) ho hbase htag
    (by rw [hhead]; exact hfirst) hm'

end Heap

end BoundaryTag
