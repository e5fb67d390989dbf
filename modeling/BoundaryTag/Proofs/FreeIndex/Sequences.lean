import BoundaryTag.Proofs.FreeIndex.Search

set_option autoImplicit false

/-! # The lists of an index as sequences

An index whose lists are rings of nodes that lie apart stands for one sequence of blocks for each
class, the one that following the list reads. Putting a block on and taking one off do to these
sequences what they should, keep them rings that lie apart, and write no byte beside the links of
the block and its two neighbours (`PutsFirst`, `TakesOff`). Taking a block off right after it was
put on brings every byte back but those of its own links, and a block that was just taken off cannot
be taken off again (`Threaded.implements_sequences`). -/

namespace BoundaryTag

open Memory (Touches Linked)

/-- Bytes that spell the same number are the same, if there are as many of them. -/
theorem LittleEndian.eq_of_ofBytes_eq {as bs : List UInt8} (h : ofBytes as = ofBytes bs)
    (hlength : as.length = bs.length) : as = bs :=
  calc as = toBytes as.length (ofBytes as) := (toBytes_ofBytes as).symm
    _ = toBytes bs.length (ofBytes bs) := by rw [h, hlength]
    _ = bs := toBytes_ofBytes bs

namespace Memory

variable {m m' : Memory} {i w h p n u v : Nat} {ws ws' as bs nodes : List Nat}

/-! ## Words that come back -/

/-- The bytes of a word are the same where the word is. -/
theorem byte_eq_of_readWord (hw : m.readWord i = .ok w) (hw' : m'.readWord i = .ok w) {j : Nat}
    (hj : i ≤ j ∧ j < i + 8) : m'.byte j = m.byte j := by
  have hload : m'.load i 8 = m.load i 8 := by
    refine LittleEndian.eq_of_ofBytes_eq ?_ ?_
    · rw [(readWord_eq_ok_iff.mp hw).2, (readWord_eq_ok_iff.mp hw').2]
    · rw [length_load, length_load]
  have hbyte := congrArg (·[j - i]?) hload
  have hlt : j - i < 8 := by omega
  simp only [getElem?_load, hlt, if_true, Nat.add_sub_cancel' hj.1, Option.some.injEq] at hbyte
  exact hbyte

/-- Touched words that read again as before do not count. -/
theorem Touches.of_restored (h : Touches ws m m')
    (hws : ∀ i ∈ ws, i ∈ ws' ∨ ∃ w, m.readWord i = .ok w ∧ m'.readWord i = .ok w) :
    Touches ws' m m' := by
  refine ⟨h.size_eq, fun j hj => ?_⟩
  by_cases hin : ∃ i ∈ ws, i ≤ j ∧ j < i + 8
  · obtain ⟨i, hi, hij⟩ := hin
    rcases hws i hi with hi' | ⟨w, hw, hw'⟩
    · have := hj i hi'
      omega
    · exact byte_eq_of_readWord hw hw' hij
  · refine h.byte_eq j fun i hi => ?_
    have : ¬ (i ≤ j ∧ j < i + 8) := fun hij => hin ⟨i, hi, hij⟩
    omega

/-! ## Neighbours -/

theorem Linked.next_unique (hv : m.Linked u v) (hw : m.Linked u w) : v = w :=
  Except.ok.inj (hv.1.symm.trans hw.1)

theorem Linked.prior_unique (hu : m.Linked u v) (hw : m.Linked w v) : u = w :=
  Except.ok.inj (hu.2.symm.trans hw.2)

/-- Wherever a ring is cut, the last node before the cut links to the first one after it. -/
theorem Ring.linked (hr : m.Ring h (as ++ bs)) (hp : (h :: as).getLast? = some p)
    (hn : (bs ++ [h]).head? = some n) : m.Linked p n := by
  rw [Ring, ← List.cons_append, List.append_assoc, List.isChain_append] at hr
  exact hr.2.2 p hp n hn

end Memory

namespace FreeIndex

variable {x : FreeIndex} {m m' : Memory} {lists : Nat → List Nat} {c b : Nat} {as bs : List Nat}

/-- From `m` to `m'` a block has come to the front of the list of a class. The links that were
    written are its own, and those of the head and of the node that was first to it. -/
structure PutsFirst (x : FreeIndex) (m m' : Memory) (lists : Nat → List Nat) (c b : Nat) :
    Prop where
  threaded : x.Threaded m' (pushed lists c b)
  members_eq : x.members m' c = .ok (b :: lists c)
  others_eq : ∀ d < x.size, d ≠ c → x.members m' d = .ok (lists d)
  frame : ∃ n, m'.Linked (x.headAt c) b ∧ m'.Linked b n ∧
    Touches [b + 16, b + 8, n + 16, x.headAt c + 8] m m'

/-- From `m` to `m'` a block has gone from its place between `as` and `bs` on the list of a class.
    The links that were written are those of its two neighbours to each other. -/
structure TakesOff (x : FreeIndex) (m m' : Memory) (lists : Nat → List Nat) (c : Nat)
    (as : List Nat) (b : Nat) (bs : List Nat) : Prop where
  threaded : x.Threaded m' (without lists b)
  members_eq : x.members m' c = .ok (as ++ bs)
  others_eq : ∀ d < x.size, d ≠ c → x.members m' d = .ok (lists d)
  frame : ∃ p n, m.Linked p b ∧ m.Linked b n ∧ Touches [p + 8, n + 16] m m'

namespace Threaded

theorem without_eq (h : x.Threaded m lists) (hc : c < x.size) (hlist : lists c = as ++ b :: bs) :
    without lists b c = as ++ bs ∧ ∀ d < x.size, d ≠ c → without lists b d = lists d := by
  have hmem : b ∈ lists c := by simp [hlist]
  constructor
  · have hnodup := (List.nodup_cons.mp (h.nodup c hc)).2
    rw [hlist, List.nodup_append] at hnodup
    have hnot : b ∉ as := fun ha => hnodup.2.2 b ha b List.mem_cons_self rfl
    rw [without, hlist, List.erase_append_right _ hnot, List.erase_cons_head]
  · intro d hd hne
    exact List.erase_of_not_mem fun hmem' => hne (h.class_unique hd hc hmem' hmem)

/-- A block on a list has two neighbours, and neither is the block itself. -/
theorem exists_neighbours (h : x.Threaded m lists) (hc : c < x.size)
    (hlist : lists c = as ++ b :: bs) :
    ∃ p n, (x.headAt c :: as).getLast? = some p ∧ (bs ++ [x.headAt c]).head? = some n ∧
      (p ∈ x.cycle lists c ∧ p ≠ b) ∧ (n ∈ x.cycle lists c ∧ n ≠ b) ∧
      m.Linked p b ∧ m.Linked b n := by
  have hring := h.ring c hc
  have hnodup := h.nodup c hc
  rw [cycle, hlist] at hnodup
  rw [hlist] at hring
  obtain ⟨p, n, hp, hn, hpb, hbn⟩ := hring.exists_neighbours
  have hp' := List.mem_of_getLast? hp
  have hn' := List.mem_of_head? hn
  rw [List.mem_append, List.mem_singleton] at hn'
  rw [← List.cons_append, List.nodup_append, List.nodup_cons (l := bs)] at hnodup
  obtain ⟨-, ⟨hb, -⟩, hapart⟩ := hnodup
  refine ⟨p, n, hp, hn, ⟨?_, hapart p hp' b List.mem_cons_self⟩, ⟨?_, ?_⟩, hpb, hbn⟩
  · rw [cycle, hlist, ← List.cons_append]
    exact List.mem_append_left _ hp'
  · rw [cycle, hlist]
    rcases hn' with hn' | rfl
    · simp [hn']
    · exact List.mem_cons_self
  · rcases hn' with hn' | rfl
    · exact fun he => hb (he ▸ hn')
    · exact hapart _ List.mem_cons_self b List.mem_cons_self

/-! ## Taking a block off -/

theorem exists_takesOff (h : x.Threaded m lists) (hc : c < x.size)
    (hlist : lists c = as ++ b :: bs) :
    ∃ m', FreeIndex.unlink m b = .ok m' ∧ x.TakesOff m m' lists c as b bs := by
  have hmem : b ∈ lists c := by simp [hlist]
  obtain ⟨m', p, n, hm', hthreaded, ⟨-, hpb⟩, ⟨-, hbn⟩, ht⟩ := h.unlink hc hmem
  obtain ⟨hsame, hothers⟩ := h.without_eq hc hlist
  refine ⟨m', hm', hthreaded, ?_, fun d hd hne => ?_, p, n, hpb, hbn, ht⟩
  · rw [hthreaded.members_eq hc, hsame]
  · rw [hthreaded.members_eq hd, hothers d hd hne]

/-- A block that was taken off keeps its links, but the node before it no longer links to it. -/
theorem unlink_eq_error (h : x.Threaded m lists) (hc : c < x.size)
    (hlist : lists c = as ++ b :: bs) (ho : x.TakesOff m m' lists c as b bs) :
    FreeIndex.unlink m' b = .error (.unlinkingUnlisted b) := by
  obtain ⟨p, n, hp, hn, ⟨hpm, hpb⟩, ⟨hnm, hnb⟩, hlp, hln⟩ := h.exists_neighbours hc hlist
  obtain ⟨p', n', hlp', hln', ht⟩ := ho.frame
  obtain rfl := hlp.prior_unique hlp'
  obtain rfl := hln.next_unique hln'
  have hring := ho.threaded.ring c hc
  rw [(h.without_eq hc hlist).1] at hring
  have hpn : m'.Linked p n := hring.linked hp hn
  have hbm : b ∈ x.cycle lists c := mem_cycle_of_mem x (by simp [hlist])
  have hpapart := h.apart c hc c hc b hbm p hpm
  have hnapart := h.apart c hc c hc b hbm n hnm
  have hin := h.node_le hc hbm
  have hlim := h.addressable
  have hnext : m'.nextLink b = .ok n := by
    rw [Memory.nextLink_eq (by omega), ht.readWord_eq ?_, hln.1]
    simp only [List.mem_cons, List.not_mem_nil, or_false]
    rintro w (rfl | rfl) <;> omega
  have hprior : m'.priorLink b = .ok p := by
    rw [Memory.priorLink_eq (by omega), ht.readWord_eq ?_, hlp.2]
    simp only [List.mem_cons, List.not_mem_nil, or_false]
    rintro w (rfl | rfl) <;> omega
  have hlinked : isLinked m' b p n = .ok false := by
    rw [isLinked, ho.threaded.nextLink_eq hpn, ok_bind, if_neg hnb]
    rfl
  rw [FreeIndex.unlink, hnext, ok_bind, hprior, ok_bind, hlinked, ok_bind]
  rfl

/-! ## Putting a block on -/

theorem exists_putsFirst (h : x.Threaded m lists) {t : Tag} (ht : m.tagAt b = .ok t)
    (hfree : t.allocated = false) (hin : b + 24 ≤ m.size)
    (hapart : ∀ c < x.size, ∀ v ∈ x.cycle lists c, b + 24 ≤ v ∨ v + 24 ≤ b) :
    ∃ m', x.push m b = .ok m' ∧ x.PutsFirst m m' lists (x.classify t.size) b := by
  have hfreeAt : m.freeAt b = .ok true := by
    rw [Memory.freeAt_of_tagAt ht, hfree]
    rfl
  obtain ⟨m', n, hm', hthreaded, hhead, ⟨-, hfirst⟩, htouch⟩ :=
    h.push hfreeAt (Memory.sizeAt_of_tagAt ht) hin hapart
  refine ⟨m', hm', hthreaded, ?_, fun d hd hne => ?_, n, hhead, hfirst, htouch⟩
  · rw [hthreaded.members_eq (x.classify_lt_size _), pushed, if_pos rfl]
  · rw [hthreaded.members_eq hd, pushed, if_neg hne]

/-- Taking a block off right after it was put on links the head and the node that was first to each
    other again. -/
theorem exists_unlink_of_putsFirst (h : x.Threaded m lists) (hc : c < x.size)
    (hnew : ∀ d < x.size, b ∉ lists d) (hp : x.PutsFirst m m' lists c b) :
    ∃ m'', FreeIndex.unlink m' b = .ok m'' ∧ x.Threaded m'' lists ∧
      Touches [b + 8, b + 16] m m'' := by
  have hlist : pushed lists c b c = [] ++ b :: lists c := by simp [pushed]
  obtain ⟨m'', hm'', ho⟩ := hp.threaded.exists_takesOff hc hlist
  have hthreaded : x.Threaded m'' lists := by
    refine ho.threaded.congr_lists fun d hd => ?_
    rw [without, pushed]
    split
    · exact (List.erase_cons_head ..).symm
    · exact (List.erase_of_not_mem (hnew d hd)).symm
  refine ⟨m'', hm'', hthreaded, ?_⟩
  obtain ⟨n, hhead, hfirst, ht⟩ := hp.frame
  obtain ⟨p', n', hlp', hln', ht'⟩ := ho.frame
  obtain rfl := hhead.prior_unique hlp'
  obtain rfl := hfirst.next_unique hln'
  obtain ⟨-, n', -, hn, -, -, -, hln⟩ := hp.threaded.exists_neighbours hc hlist
  obtain rfl := hfirst.next_unique hln
  have hring : m.Ring (x.headAt c) ([] ++ lists c) := h.ring c hc
  have hring' : m''.Ring (x.headAt c) ([] ++ lists c) := hthreaded.ring c hc
  have hwas : m.Linked (x.headAt c) n := hring.linked rfl hn
  have his : m''.Linked (x.headAt c) n := hring'.linked rfl hn
  -- six writes: the two links of the block, and twice those of the head and `n` to each other
  refine (ht.trans ht').of_restored fun w hw => ?_
  simp only [List.cons_append, List.nil_append, List.mem_cons, List.not_mem_nil, or_false] at hw ⊢
  rcases hw with rfl | rfl | rfl | rfl | rfl | rfl
  · exact .inl (.inr rfl)
  · exact .inl (.inl rfl)
  · exact .inr ⟨_, hwas.2, his.2⟩
  · exact .inr ⟨_, hwas.1, his.1⟩
  · exact .inr ⟨_, hwas.1, his.1⟩
  · exact .inr ⟨_, hwas.2, his.2⟩

/-! ## Both -/

/-- An index of rings that lie apart implements sequences. Following the list of a class reads its
    sequence. A free block that lies apart from all nodes is put in front of the sequence of its
    class, and taking it off again brings back every byte but those of its own links. A block is
    taken off wherever it stands on its sequence, and cannot be taken off a second time. -/
theorem implements_sequences (h : x.Threaded m lists) :
    (∀ c < x.size, x.members m c = .ok (lists c)) ∧
    (∀ (b : Nat) (t : Tag), m.tagAt b = .ok t → t.allocated = false → b + 24 ≤ m.size →
      (∀ c < x.size, ∀ v ∈ x.cycle lists c, b + 24 ≤ v ∨ v + 24 ≤ b) →
      ∃ m' m'', x.push m b = .ok m' ∧ x.PutsFirst m m' lists (x.classify t.size) b ∧
        FreeIndex.unlink m' b = .ok m'' ∧ x.Threaded m'' lists ∧
        Touches [b + 8, b + 16] m m'') ∧
    ∀ (c : Nat) (as : List Nat) (b : Nat) (bs : List Nat), c < x.size → lists c = as ++ b :: bs →
      ∃ m', FreeIndex.unlink m b = .ok m' ∧ x.TakesOff m m' lists c as b bs ∧
        FreeIndex.unlink m' b = .error (.unlinkingUnlisted b) := by
  refine ⟨fun c hc => h.members_eq hc, fun b t ht hfree hin hapart => ?_,
    fun c as b bs hc hlist => ?_⟩
  · obtain ⟨m', hm', hp⟩ := h.exists_putsFirst ht hfree hin hapart
    have hnew : ∀ d < x.size, b ∉ lists d := fun d hd hmem => by
      have := hapart d hd b (mem_cycle_of_mem x hmem)
      omega
    obtain ⟨m'', hm'', hback, htouch⟩ :=
      h.exists_unlink_of_putsFirst (x.classify_lt_size t.size) hnew hp
    exact ⟨m', m'', hm', hp, hm'', hback, htouch⟩
  · obtain ⟨m', hm', ho⟩ := h.exists_takesOff hc hlist
    exact ⟨m', hm', ho, h.unlink_eq_error hc hlist ho⟩

/-- Three free blocks of a class in a fresh memory, of which two are put on its list. -/
def twoOfThree (x : FreeIndex) : Except Fault Memory := do
  let m ← x.reset (Memory.zeroed 256)
  let m ← m.formatFree 48 32 true
  let m ← m.formatFree 80 32 true
  let m ← m.formatFree 112 32 true
  let m ← x.push m 48
  x.push m 80

/-- The third block comes to the front of the list and goes again, and the first one goes from its
    end. -/
theorem implements_sequences_of_pushes :
    ∃ (x : FreeIndex) (m : Memory) (lists : Nat → List Nat), twoOfThree x = .ok m ∧
      x.Threaded m lists ∧ lists 0 = [80, 48] ∧ x.classify 32 = 0 ∧
      (∃ m' m'', x.push m 112 = .ok m' ∧ x.PutsFirst m m' lists 0 112 ∧
        FreeIndex.unlink m' 112 = .ok m'' ∧ x.Threaded m'' lists ∧ Touches [120, 128] m m'') ∧
      ∃ m', FreeIndex.unlink m 48 = .ok m' ∧ x.TakesOff m m' lists 0 [80] 48 [] ∧
        FreeIndex.unlink m' 48 = .error (.unlinkingUnlisted 48) := by
  let x : FreeIndex := ⟨⟨[64], by decide⟩, 0⟩
  let lists : Nat → List Nat := fun c => if c = 0 then [80, 48] else []
  have hrun : (twoOfThree x).toOption.map (fun m => decide (m.size = 256 ∧
      m.tagAt 112 = .ok (Tag.free 32 true) ∧
      (m.readWord 8 = .ok 80 ∧ m.readWord 96 = .ok 0) ∧
      (m.readWord 88 = .ok 48 ∧ m.readWord 64 = .ok 80) ∧
      (m.readWord 56 = .ok 0 ∧ m.readWord 16 = .ok 48) ∧
      m.readWord 32 = .ok 24 ∧ m.readWord 40 = .ok 24)) = some true := by
    decide +kernel
  obtain ⟨m, hm, hshape⟩ := Option.map_eq_some_iff.mp hrun
  obtain ⟨hsize, htag, h0, h80, h48, h24⟩ := of_decide_eq_true hshape
  have hthreaded : x.Threaded m lists := by
    refine ⟨by rw [hsize]; decide, fun c hc => ?_, by decide, by decide⟩
    obtain rfl | rfl : c = 0 ∨ c = 1 := Nat.le_one_iff_eq_zero_or_eq_one.mp (Nat.le_of_lt_succ hc)
    · exact .cons_cons h0 (.cons_cons h80 (.cons_cons h48 (.singleton 0)))
    · exact .cons_cons h24 (.singleton 24)
  obtain ⟨-, hpush, hunlink⟩ := implements_sequences hthreaded
  refine ⟨x, m, lists, ?_, hthreaded, rfl, rfl, ?_, ?_⟩
  · cases hx : twoOfThree x <;> simp_all [Except.toOption]
  · exact hpush 112 (Tag.free 32 true) htag rfl (by rw [hsize]; decide) (by decide)
  · exact hunlink 0 [80] 48 [] (by decide) rfl

end Threaded

end FreeIndex

end BoundaryTag
