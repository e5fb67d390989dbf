import BoundaryTag.Heap.Reshape
import BoundaryTag.Proofs.Chart

set_option autoImplicit false

/-! # Merging and carving rows

What `merge` and `carve` do to a row of spans. Both start from a chart of the row with one block on
no list, and both have a result: `merge_eq` turns a free span and its free neighbours, each of which
may be missing, into one free span; `carve_eq` turns a span into an allocated one and, if enough is
left, a free rest. The lists change accordingly, and no word is written outside the span that
comes out, the tag after it, and the links of the lists. -/

open BoundaryTag.Span (total layout tags lastAllocated nextAllocated freeSpan tags_append
  layout_append)

namespace BoundaryTag.Heap

open Memory (Touches Within)
open FreeIndex (without pushed)

variable {x : FreeIndex} {start : Nat} {m : Memory} {lists : Nat → List Nat}
  {before after : List Span} {left right : Option Nat} {s o : Nat}

/-! ## Free neighbours -/

section Neighbours

variable {a : Bool}

theorem left_mem_tags (hstart : start + total before = o) (n : Nat) (ss : List Span) :
    ⟨o, ⟨n, false, lastAllocated true before⟩⟩ ∈
      tags start true (before ++ (freeSpan (some n) ++ ss)) := by
  simp [tags_append, hstart]

theorem middle_mem_tags (hstart : start + total before = o) :
    ⟨o + left.getD 0, ⟨s, a, lastAllocated true (before ++ freeSpan left)⟩⟩ ∈
      tags start true (before ++ (freeSpan left ++ ⟨s, a⟩ :: (freeSpan right ++ after))) := by
  simp [tags_append, hstart]

/-- The row up to the end of the block in the middle, and what comes after it. -/
theorem tags_eq_append_right (hstart : start + total before = o) :
    tags start true (before ++ (freeSpan left ++ ⟨s, a⟩ :: (freeSpan right ++ after))) =
      layout start true (before ++ (freeSpan left ++ [⟨s, a⟩])) ++
        tags (o + left.getD 0 + s) a (freeSpan right ++ after) := by
  simp [tags_append, layout_append, hstart, Nat.add_assoc]

theorem right_mem_tags (hstart : start + total before = o) (n : Nat) :
    ⟨o + left.getD 0 + s, ⟨n, false, a⟩⟩ ∈
      tags start true (before ++ (freeSpan left ++ ⟨s, a⟩ :: (freeSpan (some n) ++ after))) := by
  rw [tags_eq_append_right hstart]
  simp

end Neighbours

/-- The four cases of taking neighbours, as two steps that may each be missing. Both sizes are read
    after the last step. -/
theorem takeNeighbours_eq_ok {m₁ m₂ : Memory}
    (hm₁ : (if left.isSome then FreeIndex.unlink m o else .ok m) = .ok m₁)
    (hm₂ : (if right.isSome then FreeIndex.unlink m₁ (o + left.getD 0 + s) else .ok m₁) = .ok m₂)
    (hpred : ∀ l, left = some l → m.predecessor (o + l) = .ok o)
    (hleft : ∀ l, left = some l → m₂.sizeAt o = .ok l)
    (hright : ∀ r, right = some r → m₂.sizeAt (o + left.getD 0 + s) = .ok r)
    (hlim : left.getD 0 + s + right.getD 0 < Word.limit) :
    takeNeighbours m (o + left.getD 0) s (o + left.getD 0 + s) left.isSome right.isSome =
      .ok (o, left.getD 0 + s + right.getD 0, m₂) := by
  have hadd : Word.add (left.getD 0) s = .ok (left.getD 0 + s) :=
    Word.add_eq_ok_iff.mpr ⟨rfl, by omega⟩
  have hadd' : Word.add (left.getD 0 + s) (right.getD 0) =
      .ok (left.getD 0 + s + right.getD 0) := Word.add_eq_ok_iff.mpr ⟨rfl, hlim⟩
  cases left with
  | none =>
    obtain rfl : m = m₁ := Except.ok.inj hm₁
    cases right with
    | none =>
      obtain rfl : m = m₂ := Except.ok.inj hm₂
      simp [takeNeighbours, pure, Except.pure]
    | some r =>
      have hsize := hright r rfl
      simp only [Option.isSome, if_true, Option.getD, Nat.add_zero, Nat.zero_add]
        at hm₂ hsize hadd'
      simp only [takeNeighbours, Option.isSome, Option.getD, Nat.add_zero, Nat.zero_add, hm₂, hsize,
        hadd', bind, Except.bind, pure, Except.pure]
  | some l =>
    have hpred := hpred l rfl
    have hsize := hleft l rfl
    simp only [Option.isSome, if_true, Option.getD] at hm₁ hadd
    cases right with
    | none =>
      obtain rfl : m₁ = m₂ := Except.ok.inj hm₂
      simp only [takeNeighbours, Option.isSome, Option.getD, Nat.add_zero, hpred, hm₁, hsize, hadd,
        bind, Except.bind, pure, Except.pure]
    | some r =>
      have hsize' := hright r rfl
      simp only [Option.isSome, if_true, Option.getD] at hm₂ hsize' hadd'
      simp only [takeNeighbours, Option.isSome, Option.getD, hpred, hm₁, hm₂, hsize, hsize', hadd,
        hadd', bind, Except.bind, pure, Except.pure]

/-- The word is a link that leads to a free neighbour of the block of `s` bytes behind the left one. -/
def NeighbourLink (x : FreeIndex) (lists : Nat → List Nat) (m : Memory) (left right : Option Nat)
    (s o w : Nat) : Prop :=
  (left.isSome = true ∧ x.LinkTo lists m o w) ∨
    (right.isSome = true ∧ x.LinkTo lists m (o + left.getD 0 + s) w)

theorem NeighbourLink.linkWord {w : Nat} (h : NeighbourLink x lists m left right s o w) :
    x.LinkWord lists w :=
  h.elim (·.2.1) (·.2.1)

/-- With the left neighbour taken off, a link to the right one led to one of them before: only the
    links to the left one have changed. -/
theorem NeighbourLink.of_unlinked {m' : Memory} {w : Nat} (ht : x.Threaded m lists)
    (hm : Within (fun w => left.isSome = true ∧ x.LinkTo lists m o w) m m')
    (hright : right.isSome = true)
    (hw : x.LinkTo (without lists o) m' (o + left.getD 0 + s) w) :
    NeighbourLink x lists m left right s o w := by
  have hlink := hw.1.of_without
  by_cases hleft : left.isSome = true ∧ x.LinkTo lists m o w
  · exact .inl hleft
  · refine .inr ⟨hright, hlink, ?_⟩
    rw [← hw.2]
    refine (hm.readWord_eq fun v hv => ?_).symm
    rcases hlink.eq_or_apart ht hv.2.1 with rfl | happart
    · exact absurd hv hleft
    · exact happart

/-- The free neighbours of a block are taken off their lists. Without a left neighbour the node taken
    off is the block itself, and without a right one it is the block after, neither of which is on a
    list. -/
theorem takeNeighbours_eq (hstart : start + total before = o)
    (h : Charted x start m (tags start true
      (before ++ (freeSpan left ++ ⟨s, false⟩ :: (freeSpan right ++ after)))) lists)
    (hnext : nextAllocated after = true)
    (hleft : ∀ n, left = some n → o ∈ lists (x.classify n))
    (hright : ∀ n, right = some n → o + left.getD 0 + s ∈ lists (x.classify n))
    (hnot : ∀ c < x.size, o + left.getD 0 ∉ lists c) :
    ∃ m', takeNeighbours m (o + left.getD 0) s (o + left.getD 0 + s) left.isSome right.isSome =
        .ok (o, left.getD 0 + s + right.getD 0, m') ∧
      Charted x start m'
        (tags start true (before ++ (freeSpan left ++ ⟨s, false⟩ :: (freeSpan right ++ after))))
        (without (without lists o) (o + left.getD 0 + s)) ∧
      Within (NeighbourLink x lists m left right s o) m m' := by
  have hB : ⟨o + left.getD 0, ⟨s, false, lastAllocated true (before ++ freeSpan left)⟩⟩ ∈
      tags start true (before ++ (freeSpan left ++ ⟨s, false⟩ :: (freeSpan right ++ after))) :=
    middle_mem_tags hstart
  have hs := (h.proper _ hB).word_le
  have hstop := h.stop_lt hB
  simp only [Block.stop] at hs hstop
  obtain ⟨m₁, hm₁, h₁, hw₁⟩ := h.unlink_optional hleft (by
    rintro rfl
    exact hnot)
  have hright₁ : ∀ r, right = some r →
      o + left.getD 0 + s ∈ without lists o (x.classify r) := fun r hr =>
    (List.mem_erase_of_ne (by omega)).mpr (hright r hr)
  obtain ⟨m₂, hm₂, h₂, hw₂⟩ := h₁.unlink_optional hright₁ (by
    rintro rfl c hc
    rw [tags_eq_append_right hstart] at h₁
    exact h₁.not_mem_first hnext hc)
  refine ⟨m₂, takeNeighbours_eq_ok hm₁ hm₂ ?_ ?_ ?_ ?_, h₂, (hw₁.mono fun w => .inl).trans
    (hw₂.mono fun w hw => NeighbourLink.of_unlinked h.threaded hw₁ hw.1 hw.2)⟩
  · rintro l rfl
    exact h.predecessor (left_mem_tags hstart l _) rfl
  · rintro l rfl
    exact h₂.sizeAt (left_mem_tags hstart l _)
  · rintro r rfl
    exact h₂.sizeAt (right_mem_tags hstart r)
  · cases right with
    | none =>
      rw [Option.getD_none]
      omega
    | some r =>
      have hend := h.stop_lt (right_mem_tags hstart r)
      simp only [Block.stop] at hend
      rw [Option.getD_some]
      omega

/-! ## Merging -/

/-- The gap between two parts of a row becomes one free block, and the block after it is told. If
    that block is free, its footer is written as well. -/
theorem exists_formatGap (hstart : start + total before = o) {a : Bool} {n : Nat}
    (h : Charted x start m (layout start true before ++ tags (o + n) a after) lists)
    (hle : 32 ≤ n) (hmod : n % 8 = 0) :
    ∃ m₁ m₂, m.formatFree o n (lastAllocated true before) = .ok m₁ ∧
      m₁.successor o = .ok (o + n) ∧ m₁.markPrevAllocated (o + n) false = .ok m₂ ∧
      Charted x start m₂ (tags start true (before ++ ⟨n, false⟩ :: after)) lists ∧
      Within (fun w => (o ≤ w ∧ w ≤ o + n) ∨ ∃ k ts, after = ⟨k, false⟩ :: ts ∧ w = o + n + k - 8)
        m m₂ := by
  have hsize := h.tags_le_size
  have hbefore : ∀ b ∈ layout start true before, b.stop ≤ o := fun b hb => by
    rw [← hstart]
    exact (Span.le_of_mem_layout hb).2
  obtain ⟨m₁, hm₁, h₁, ht₁⟩ := h.formatFree (p := lastAllocated true before) hle hmod (by omega)
    hbefore (fun b hb => (Span.le_of_mem_tags hb).1) (by omega)
  have hsucc := h₁.successor (List.mem_append_right _ List.mem_cons_self)
  rw [List.append_cons] at h₁
  obtain ⟨m₂, hm₂, h₂, hw₂⟩ := h₁.markFirst false
  refine ⟨m₁, m₂, hm₁, hsucc, hm₂, ?_, (ht₁.within ?_).trans (hw₂.mono ?_)⟩
  · rw [tags_append, hstart, Span.tags_cons, List.append_cons]
    exact h₂
  · simp only [List.mem_cons, List.not_mem_nil, or_false, forall_eq_or_imp, forall_eq]
    omega
  · rintro w (rfl | hfooter)
    · exact .inl (by omega)
    · exact .inr hfooter

/-- What lies between two parts of a row becomes one free block, if no free block there is on a
    list. -/
theorem exists_formatRow (hstart : start + total before = o) {bs : List Block} {n : Nat}
    (h : Charted x start m (layout start true before ++ bs ++ tags (o + n) false after) lists)
    (hbs : ∀ b ∈ bs, b.tag.allocated = false → ∀ c < x.size, b.offset ∉ lists c)
    (hlast : lastAllocated true before = true) (hnext : nextAllocated after = true)
    (hle : 32 ≤ n) (hmod : n % 8 = 0) :
    ∃ m₁ m₂, m.formatFree o n true = .ok m₁ ∧ m₁.successor o = .ok (o + n) ∧
      m₁.markPrevAllocated (o + n) false = .ok m₂ ∧
      Charted x start m₂ (tags start true (before ++ ⟨n, false⟩ :: after)) lists ∧
      Within (fun w => o ≤ w ∧ w ≤ o + n) m m₂ := by
  obtain ⟨m₁, m₂, hm₁, hsucc, hm₂, h₂, hw⟩ := exists_formatGap hstart (h.drop hbs) hle hmod
  rw [hlast] at hm₁
  refine ⟨m₁, m₂, hm₁, hsucc, hm₂, h₂, hw.mono ?_⟩
  rintro w (hw | ⟨k, ts, rfl, -⟩)
  · exact hw
  · simp [nextAllocated] at hnext

/-- With the free neighbours of a block taken off, none of the three is on a list. -/
theorem not_mem_without_of_mem_layout {c : Nat} (hnodup : (lists c).Nodup)
    (hnot : o + left.getD 0 ∉ lists c) {b : Block}
    (hb : b ∈ layout o true (freeSpan left ++ ⟨s, false⟩ :: freeSpan right)) :
    b.offset ∉ without (without lists o) (o + left.getD 0 + s) c := by
  have hoffset : b.offset = o ∨ b.offset = o + left.getD 0 ∨
      b.offset = o + left.getD 0 + s := by
    cases left <;> cases right <;>
      simp only [Span.freeSpan_none, Span.freeSpan_some, List.nil_append, List.cons_append,
        Span.layout_cons, Span.layout_nil, List.mem_cons, List.not_mem_nil, or_false] at hb
    · simp [hb]
    · rcases hb with rfl | rfl <;> simp
    · rcases hb with rfl | rfl <;> simp
    · rcases hb with rfl | rfl | rfl <;> simp
  intro hmem
  have hmem' : b.offset ∈ without lists o c := List.mem_of_mem_erase hmem
  rcases hoffset with hoffset | hoffset | hoffset <;> rw [hoffset] at hmem hmem'
  · exact hnodup.not_mem_erase hmem'
  · exact hnot (List.mem_of_mem_erase hmem')
  · exact (hnodup.erase o).not_mem_erase hmem

/-- A free block that is on no list is merged with its free neighbours. The block before them, and
    the block after them, have to be allocated. -/
theorem merge_eq (hstart : start + total before = o)
    (h : Charted x start m (tags start true
      (before ++ (freeSpan left ++ ⟨s, false⟩ :: (freeSpan right ++ after)))) lists)
    (hlast : lastAllocated true before = true) (hnext : nextAllocated after = true)
    (hleft : ∀ n, left = some n → o ∈ lists (x.classify n))
    (hright : ∀ n, right = some n → o + left.getD 0 + s ∈ lists (x.classify n))
    (hnot : ∀ c < x.size, o + left.getD 0 ∉ lists c) :
    ∃ m', (merge m (o + left.getD 0)).result = .ok (o, m') ∧
      Charted x start m'
        (tags start true (before ++ ⟨left.getD 0 + s + right.getD 0, false⟩ :: after))
        (without (without lists o) (o + left.getD 0 + s)) ∧
      Within (fun w => NeighbourLink x lists m left right s o w ∨
        (o ≤ w ∧ w ≤ o + (left.getD 0 + s + right.getD 0))) m m' := by
  obtain ⟨m₁, hm₁, h₁, hw₁⟩ := takeNeighbours_eq hstart h hnext hleft hright hnot
  have hB := h.proper _ (middle_mem_tags hstart)
  have hsize := h.sizeAt (middle_mem_tags hstart)
  have hprev := h.prevAllocatedAt (middle_mem_tags hstart)
  have hsucc := h.successor (middle_mem_tags hstart)
  have hnextFree : m.freeAt (o + left.getD 0 + s) = .ok right.isSome := by
    rw [tags_eq_append_right hstart] at h
    have hfree := h.freeAt_first
    rw [Span.nextAllocated_freeSpan_append right hnext] at hfree
    cases right <;> exact hfree
  have hrow : tags start true
      (before ++ (freeSpan left ++ ⟨s, false⟩ :: (freeSpan right ++ after))) =
      layout start true before ++
        layout o true (freeSpan left ++ ⟨s, false⟩ :: freeSpan right) ++
        tags (o + (left.getD 0 + s + right.getD 0)) false after := by
    simp [tags_append, layout_append, hstart, hlast, Nat.add_assoc]
  have hprev₁ : m₁.prevAllocatedAt o = .ok true := by
    rw [tags_append, hstart, hlast] at h₁
    exact h₁.prevAllocatedAt_first
  have hleftMod : left.getD 0 % 8 = 0 := by
    cases left with
    | none => rfl
    | some n => exact (h.proper _ (left_mem_tags hstart n _)).size_mod
  have hrightMod : right.getD 0 % 8 = 0 := by
    cases right with
    | none => rfl
    | some n => exact (h.proper _ (right_mem_tags hstart n)).size_mod
  have hmod := hB.size_mod
  have hle := hB.least_le rfl
  dsimp only at hmod hle
  have hunlisted : ∀ b ∈ layout o true (freeSpan left ++ ⟨s, false⟩ :: freeSpan right),
      b.tag.allocated = false → ∀ c < x.size,
        b.offset ∉ without (without lists o) (o + left.getD 0 + s) c := fun b hb _ c hc =>
    not_mem_without_of_mem_layout (List.nodup_cons.mp (h.threaded.nodup c hc)).2 (hnot c hc) hb
  rw [hrow] at h₁
  obtain ⟨m₂, m₃, hm₂, hsucc₂, hm₃, h₃, hw₃⟩ := exists_formatRow hstart h₁ hunlisted hlast hnext
    (by omega) (by omega)
  refine ⟨m₃, ?_, h₃, (hw₁.mono fun w => .inl).trans (hw₃.mono fun w => .inr)⟩
  have hleftFree : (!lastAllocated true (before ++ freeSpan left)) = left.isSome := by
    rw [Span.lastAllocated_append, hlast, Span.lastAllocated_freeSpan]
    cases left <;> rfl
  simp only [Block.stop] at hsize hprev hsucc
  simp only [merge, Traced.result_bind, Traced.result_lift, Traced.result_pure,
    Traced.result_recordIf, hsize, hprev, hsucc, hnextFree, hleftFree, hm₁, hprev₁, hm₂, hsucc₂,
    hm₃, ok_bind]

/-! ## Carving -/

/-- What becomes of a span of `n` bytes that has to hold `needed`, if a rest above `t` is worth
    splitting off. -/
def carved (t n needed : Nat) : List Span :=
  if t < n - needed then [⟨needed, true⟩, ⟨n - needed, false⟩] else [⟨n, true⟩]

/-- The lists after the span at `o` was carved: the rest, if there is one, is on its list. -/
def carvedLists (x : FreeIndex) (lists : Nat → List Nat) (t o n needed : Nat) : Nat → List Nat :=
  if t < n - needed then pushed lists (x.classify (n - needed)) (o + needed) else lists

section Carving

variable {settings : Settings} {a : Bool} {t n needed : Nat}

/-- The gap that a block of `n` bytes left is filled with an allocated block and a free one. -/
theorem exists_split (hstart : start + total before = o)
    (h : Charted x start m (layout start true before ++ tags (o + n) false after) lists)
    (hneeded : Span.Proper ⟨needed, true⟩) (hmod : n % 8 = 0) (hrest : 32 ≤ n - needed) :
    ∃ m₁ m₂, m.setHeader o (Tag.inUse needed (lastAllocated true before)) = .ok m₁ ∧
      m₁.formatFree (o + needed) (n - needed) true = .ok m₂ ∧
      Charted x start m₂ (tags start true ((before ++ [⟨needed, true⟩]) ++
        (freeSpan none ++ ⟨n - needed, false⟩ :: (freeSpan none ++ after)))) lists ∧
      Touches [o, o + needed, o + n - 8] m m₂ := by
  obtain ⟨h32, hmod'⟩ := hneeded
  dsimp only at h32 hmod'
  have hsize := h.tags_le_size
  have hbefore : ∀ b ∈ layout start true before, b.stop ≤ o := fun b hb => by
    rw [← hstart]
    exact (Span.le_of_mem_layout hb).2
  have hafter : ∀ b ∈ tags (o + n) false after, o + n ≤ b.offset := fun b hb =>
    (Span.le_of_mem_tags hb).1
  have hon : o + needed + (n - needed) = o + n := by omega
  obtain ⟨m₁, hm₁, h₁, ht₁⟩ := h.setHeader (p := lastAllocated true before) (n := needed)
    (by omega) hmod' (by omega) hbefore (fun b hb => by have := hafter b hb; omega) (by omega)
  rw [List.append_cons] at h₁
  have hbefore₁ : ∀ b ∈ layout start true before ++
      [⟨o, ⟨needed, true, lastAllocated true before⟩⟩], b.stop ≤ o + needed := by
    intro b hb
    rw [List.mem_append, List.mem_singleton] at hb
    rcases hb with hb | rfl
    · exact (hbefore b hb).trans (Nat.le_add_right o needed)
    · exact Nat.le_refl _
  obtain ⟨m₂, hm₂, h₂, ht₂⟩ := h₁.formatFree (p := true) hrest (by omega) (by omega) hbefore₁
    (by rw [hon]; exact hafter) (by rw [hon, ht₁.size_eq]; omega)
  rw [hon] at ht₂
  refine ⟨m₁, m₂, hm₁, hm₂, ?_, ht₁.trans ht₂⟩
  have hrow : tags start true ((before ++ [⟨needed, true⟩]) ++
      (freeSpan none ++ ⟨n - needed, false⟩ :: (freeSpan none ++ after))) =
      (layout start true before ++ [⟨o, ⟨needed, true, lastAllocated true before⟩⟩]) ++
        ⟨o + needed, ⟨n - needed, false, true⟩⟩ :: tags (o + n) false after := by
    simp [tags_append, hstart, hon]
  rw [hrow]
  exact h₂

/-- A block that is on no list, with the tag after it, before it is carved. It may have been
    allocated before. -/
structure Uncarved (x : FreeIndex) (start : Nat) (m : Memory) (lists : Nat → List Nat)
    (before after : List Span) (o n : Nat) (a : Bool) : Prop where
  start_eq : start + total before = o
  charted : Charted x start m (layout start true before ++
    ⟨o, ⟨n, a, lastAllocated true before⟩⟩ :: tags (o + n) false after) lists
  not_mem : a = false → ∀ c < x.size, o ∉ lists c
  next_allocated : nextAllocated after = true

namespace Uncarved

/-- The row without the block. -/
theorem gap (h : Uncarved x start m lists before after o n a) :
    Charted x start m (layout start true before ++ tags (o + n) false after) lists := by
  have hchart := h.charted
  rw [List.append_cons] at hchart
  refine hchart.drop ?_
  rw [List.forall_mem_singleton]
  exact h.not_mem

/-- With enough left the rest becomes a free block, which is put on its list. -/
theorem carve_split (h : Uncarved x start m lists before after o n a)
    (ht : settings.splitThreshold = .ok t) (ht32 : 32 ≤ t) (hneeded : Span.Proper ⟨needed, true⟩)
    (hsplit : t < n - needed) :
    ∃ m', (carve x settings m o needed).result = .ok m' ∧
      Charted x start m'
        (tags start true (before ++ [⟨needed, true⟩, ⟨n - needed, false⟩] ++ after))
        (pushed lists (x.classify (n - needed)) (o + needed)) ∧
      Within (fun w => x.LinkWord lists w ∨ w = o ∨ (o + needed ≤ w ∧ w ≤ o + n)) m m' := by
  have hstart := h.start_eq
  have hB : ⟨o, ⟨n, a, lastAllocated true before⟩⟩ ∈ layout start true before ++
      ⟨o, ⟨n, a, lastAllocated true before⟩⟩ :: tags (o + n) false after :=
    List.mem_append_right _ List.mem_cons_self
  have htag := h.charted.tagAt hB
  have hstop := h.charted.stop_lt hB
  have h32 := hneeded.1
  simp only [Block.stop] at htag hstop h32
  have hsub : Word.sub n needed = .ok (n - needed) := Word.sub_eq_ok_iff.mpr (by omega)
  have hadd : Word.add o needed = .ok (o + needed) := Word.add_eq_ok_iff.mpr ⟨rfl, by omega⟩
  have hon : o + needed + (n - needed) = o + n := by omega
  have hinside : ∀ c < x.size, o + needed ∉ lists c := fun c hc =>
    h.charted.not_mem_inside hB (by dsimp only; omega) (by simp only [Block.stop]; omega) hc
  obtain ⟨m₁, m₂, hm₁, hm₂, h₂, ht₂⟩ := exists_split hstart h.gap hneeded
    (h.charted.proper _ hB).size_mod (by omega)
  obtain ⟨m₃, hm₃, h₃, hw₃⟩ := merge_eq (o := o + needed) (by simp [← hstart, Nat.add_assoc]) h₂
    (by simp) h.next_allocated (by simp) (by simp) hinside
  simp only [Option.getD, Nat.add_zero, Nat.zero_add, hon] at hm₃ h₃ hw₃
  -- neither the rest nor the block after it was listed, so the merge left the lists as they were
  have h₄ : Charted x start m₃ _ lists := h₃.congr_lists fun c hc => by
    rw [without, without, List.erase_of_not_mem (hinside c hc),
      List.erase_of_not_mem (h.gap.not_mem_first h.next_allocated hc)]
  have htail : ⟨o + needed, ⟨n - needed, false, true⟩⟩ ∈ tags start true
      ((before ++ [⟨needed, true⟩]) ++ ⟨n - needed, false⟩ :: after) := by
    simp [tags_append, ← hstart, Nat.add_assoc]
  obtain ⟨m₄, hm₄, h₅, hw₄⟩ := h₄.push htail rfl hinside
  refine ⟨m₄, ?_, by simpa using h₅, ((ht₂.within ?_).trans (hw₃.mono ?_)).trans (hw₄.mono ?_)⟩
  · simp only [carve, Traced.result_bind, Traced.result_lift, Traced.result_record, htag, hsub, ht,
      hm₁, hadd, hm₂, hm₃, hm₄, ok_bind, if_pos hsplit]
  · intro w hw
    simp only [List.mem_cons, List.not_mem_nil, or_false] at hw
    omega
  · exact fun w hw => hw.imp (·.linkWord) .inr
  · rintro w (hw | hw | hw)
    · exact .inl hw.1
    · exact .inr (.inr (by dsimp only at hw; omega))
    · exact .inr (.inr (by dsimp only at hw; omega))

/-- With too little left the whole block becomes allocated. -/
theorem carve_whole (h : Uncarved x start m lists before after o n a)
    (ht : settings.splitThreshold = .ok t) (hle : needed ≤ n) (hwhole : ¬ t < n - needed) :
    ∃ m', (carve x settings m o needed).result = .ok m' ∧
      Charted x start m' (tags start true (before ++ [⟨n, true⟩] ++ after)) lists ∧
      Within (fun w => w = o ∨ w = o + n) m m' := by
  have hstart := h.start_eq
  have hB : ⟨o, ⟨n, a, lastAllocated true before⟩⟩ ∈ layout start true before ++
      ⟨o, ⟨n, a, lastAllocated true before⟩⟩ :: tags (o + n) false after :=
    List.mem_append_right _ List.mem_cons_self
  have htag := h.charted.tagAt hB
  have hproper := h.charted.proper _ hB
  have hsize := h.gap.tags_le_size
  dsimp only at htag
  have hsub : Word.sub n needed = .ok (n - needed) := Word.sub_eq_ok_iff.mpr (by omega)
  obtain ⟨m₁, hm₁, h₁, ht₁⟩ := h.gap.setHeader (p := lastAllocated true before) (n := n)
    hproper.word_le hproper.size_mod (by omega)
    (fun b hb => by rw [← hstart]; exact (Span.le_of_mem_layout hb).2)
    (fun b hb => (Span.le_of_mem_tags hb).1) (by omega)
  have hsucc := h₁.successor (List.mem_append_right _ List.mem_cons_self)
  rw [List.append_cons] at h₁
  obtain ⟨m₂, hm₂, h₂, hw₂⟩ := h₁.markFirst true
  refine ⟨m₂, ?_, ?_, (ht₁.within ?_).trans (hw₂.mono ?_)⟩
  · simp only [Block.stop] at hsucc
    simp only [carve, Traced.result_bind, Traced.result_lift, htag, hsub, ht, hm₁, hsucc, hm₂,
      ok_bind, if_neg hwhole]
  · rw [List.append_assoc, tags_append, hstart, List.singleton_append, Span.tags_cons,
      List.append_cons]
    exact h₂
  · rw [List.forall_mem_singleton]
    exact .inl rfl
  · rintro w (rfl | ⟨k, ts, hts, -⟩)
    · exact .inr rfl
    · have := h.next_allocated
      simp [hts, nextAllocated] at this

/-- A block that is on no list is made allocated. What is written lies in its header, behind the
    bytes that are needed, and in the tag after it. -/
theorem carve_eq (h : Uncarved x start m lists before after o n a)
    (ht : settings.splitThreshold = .ok t) (ht32 : 32 ≤ t) (hneeded : Span.Proper ⟨needed, true⟩)
    (hle : needed ≤ n) :
    ∃ m', (carve x settings m o needed).result = .ok m' ∧
      Charted x start m' (tags start true (before ++ (carved t n needed ++ after)))
        (carvedLists x lists t o n needed) ∧
      Within (fun w => x.LinkWord lists w ∨ w = o ∨ (o + needed ≤ w ∧ w ≤ o + n)) m m' := by
  rw [carved, carvedLists, ← List.append_assoc]
  by_cases hsplit : t < n - needed
  · rw [if_pos hsplit, if_pos hsplit]
    exact h.carve_split ht ht32 hneeded hsplit
  · rw [if_neg hsplit, if_neg hsplit]
    obtain ⟨m', hm', h', hw⟩ := h.carve_whole ht hle hsplit
    refine ⟨m', hm', h', hw.mono ?_⟩
    rintro w (rfl | rfl)
    · exact .inr (.inl rfl)
    · exact .inr (.inr (by omega))

end Uncarved

end Carving

end BoundaryTag.Heap
