import Mathlib.Order.Bounds.Basic
import BoundaryTag.Proofs.Session.Effect

set_option autoImplicit false

/-! # Rounding of requests

The block that serves a request has the least size that the data model has for it
(`Request.isLeast_rounded`), and a request is turned down as too large exactly if that size is no
word. So it is for every request but one (`Reachable.rounds`): the payload of `Word.limit - 24`
bytes needs the last multiple of eight that is a word, which passes the check of the request, but
rounding adds the alignment before it takes one off, and that sum is no word any more
(`Request.overflows_at_edge`). -/

namespace BoundaryTag

namespace Request

variable {request : Nat}

/-- The sizes of blocks that can serve the request: multiples of the alignment that are not below
    the least block and leave room for two tags beside the payload. -/
def serving (request : Nat) : Set Nat :=
  {n | Block.alignment ∣ n ∧ max Block.least (request + Block.overhead) ≤ n}

/-- The least of them, be it a word or not. -/
def rounded (request : Nat) : Nat :=
  max ((request + 23) / 8 * 8) 32

theorem isLeast_rounded (request : Nat) : IsLeast (serving request) (rounded request) := by
  have h8 : Block.alignment = 8 := rfl
  have h16 : Block.overhead = 16 := rfl
  have h32 : Block.least = 32 := rfl
  simp only [serving, rounded, h8, h16, h32]
  constructor
  · exact ⟨by omega, by omega⟩
  · rintro n ⟨hdvd, hle⟩
    omega

/-- A request is found to be too large if its sum with the overhead and the slack of the alignment
    is no word. -/
theorem blockSize_eq_none_iff : Request.blockSize request = .ok none ↔
    Word.limit ≤ request + 23 := by
  have hslack : Block.overhead + Block.alignment - 1 = 23 := rfl
  rw [blockSize, hslack]
  split <;> rename_i hlt
  · simp only [bind_eq_ok_iff, pure_eq_ok_iff, reduceCtorEq, and_false, exists_false, false_iff]
    exact Nat.not_le.mpr hlt
  · simpa [pure_eq_ok_iff] using hlt

/-- But for one request the block size is the least one that serves it, if that is a word. -/
theorem blockSize_eq (hne : request ≠ Word.limit - 24) : Request.blockSize request =
    .ok (if rounded request < Word.limit then some (rounded request) else none) := by
  have hlimit : Word.limit = 18446744073709551616 := rfl
  by_cases hlt : request + 24 < Word.limit
  · have hword : rounded request < Word.limit := by
      rw [rounded, hlimit]
      omega
    rw [if_pos hword]
    exact blockSize_eq_some_iff.mpr ⟨hlt, rfl⟩
  · have hlarge : Word.limit ≤ request + 23 := by
      rw [hlimit] at hne hlt ⊢
      omega
    -- the limit is a multiple of eight, so rounding does not take the sum below it
    have hword : ¬ rounded request < Word.limit := by
      rw [rounded, hlimit]
      rw [hlimit] at hlarge
      omega
    rw [if_neg hword]
    exact blockSize_eq_none_iff.mpr hlarge

end Request

namespace Heap

variable {h : Heap} {P : Plan} {size n o k : Nat} {p : Handle}
  {answer : Except Fault (Outcome (Option Handle))} {Q : Outcome (Option Handle) → Prop}

/-- How the heap answers a request of `size` bytes, as far as their rounding to `n` decides. -/
structure Rounds (h : Heap) (size n : Nat) (answer : Except Fault (Outcome (Option Handle))) :
    Prop where
  tooLarge_iff : (∃ k h', answer = .ok (.error (.requestTooLarge k), h')) ↔ Word.limit ≤ n
  /-- The refusal names the size, and the heap stays as it was. -/
  refuses : Word.limit ≤ n → answer = .ok (.error (.requestTooLarge size), h)
  /-- A split threshold or storage may be missing, but the rounding is no cause of a fault. -/
  faults : ∀ f, answer = .error f → h.Lacks f

/-- Answers whose refusals and faults have the causes that they should have go by the rounding. -/
theorem rounds_of_ends (hne : size ≠ Word.limit - 24) (hends : Ends (h.Falters size) Q answer)
    (hcause : ∀ e h', Q (.error e, h') → h.Refuses size e)
    (hnone : Request.blockSize size = .ok none →
      answer = .ok (.error (.requestTooLarge size), h)) :
    h.Rounds size (Request.rounded size) answer := by
  have hsize := Request.blockSize_eq hne
  have hrefuses : Word.limit ≤ Request.rounded size →
      answer = .ok (.error (.requestTooLarge size), h) := by
    intro hle
    rw [if_neg (Nat.not_lt.mpr hle)] at hsize
    exact hnone hsize
  refine ⟨⟨?_, fun hle => ⟨_, _, hrefuses hle⟩⟩, hrefuses, fun f hf => ?_⟩
  · rintro ⟨k, h', hres⟩
    cases hcause _ _ (hends.of_ok hres) with
    | outOfRoom hroom =>
      obtain ⟨m, heq, -⟩ := hroom
      cases heq
    | tooLarge hb =>
      rw [hsize, Except.ok.injEq] at hb
      by_contra hlt
      rw [if_pos (Nat.not_le.mp hlt)] at hb
      cases hb
  · rw [hf] at hends
    rcases hends with hlacks | hfault
    · exact hlacks
    · rw [hsize] at hfault
      cases hfault

theorem Realizes.allocate_rounds (hr : h.Realizes P) (hne : size ≠ Word.limit - 24)
    (h0 : size ≠ 0) : h.Rounds size (Request.rounded size) (h.allocate size).result := by
  refine rounds_of_ends hne (allocate_ends hr size) (fun e h' hres => ?_) fun hb => ?_
  · cases hres with
    | refused he => exact he
  · rw [allocate, if_neg h0, Traced.result_bind, Traced.result_lift, hb]
    rfl

theorem Realizes.resize_rounds (hr : h.Realizes P) (hne : size ≠ Word.limit - 24)
    (h0 : size ≠ 0) (hp : p.offset = o + 8) (hk : (o, k) ∈ Span.places true h.start P.spans) :
    h.Rounds size (Request.rounded size) (h.resize (some p) size).result := by
  refine rounds_of_ends hne (resize_ends hr hp hk h0) (fun e h' hres => ?_) fun hb => ?_
  · cases hres with
    | refused he => exact he
  · rw [resize, if_neg h0, Traced.result_bind, Traced.result_lift, hb]
    rfl

end Heap

namespace Session

variable {size : Nat}

/-- A request of any size but one is rounded without a fault, to the least size that serves it. In
    every reachable session it is turned down as too large exactly if that size is no word. -/
theorem Reachable.rounds (hne : size ≠ Word.limit - 24) :
    ∃ n, IsLeast (Request.serving size) n ∧
      Request.blockSize size = .ok (if n < Word.limit then some n else none) ∧
      ∀ region settings s, Reachable region settings s → size ≠ 0 →
        s.heap.Rounds size n (s.heap.allocate size).result ∧
        ∀ p, s.Permits (.resize p size) → s.heap.Rounds size n (s.heap.resize p size).result := by
  refine ⟨_, Request.isLeast_rounded size, Request.blockSize_eq hne, ?_⟩
  intro region settings s hs h0
  obtain ⟨P, hP⟩ := hs.exists_sound
  have hallocate := hP.realizes.allocate_rounds hne h0
  refine ⟨hallocate, fun p hpermits => ?_⟩
  cases p with
  | none => rwa [Heap.resize, if_neg h0]
  | some q =>
    obtain ⟨o, k, ho, hk⟩ := hP.place_of_live (hpermits q rfl)
    exact hP.realizes.resize_rounds hne h0 ho hk

/-- The largest request whose block size is found, and the least one that is turned down. -/
theorem Reachable.rounds_of_run : ∃ s, (start? (Region.empty 4096) {}).bind (fun t => t.run?
      [.allocate 16, .allocate 40]) = some s ∧ s.IsLive ⟨104, by decide⟩ ∧
    Request.blockSize (Word.limit - 25) = .ok (some (Word.limit - 8)) ∧
    ¬ (∃ k h', (s.heap.allocate (Word.limit - 25)).result =
      .ok (.error (.requestTooLarge k), h')) ∧
    Request.blockSize (Word.limit - 23) = .ok none ∧
    (s.heap.resize (some ⟨104, by decide⟩) (Word.limit - 23)).result =
      .ok (.error (.requestTooLarge (Word.limit - 23)), s.heap) := by
  have hrun : ((start? (Region.empty 4096) {}).bind (fun t => t.run?
      [.allocate 16, .allocate 40])).map (fun s => decide (s.IsLive ⟨104, by decide⟩)) =
        some true := by
    decide +kernel
  obtain ⟨s, hs, hlive⟩ := Option.map_eq_some_iff.mp hrun
  replace hlive := of_decide_eq_true hlive
  have hreach : Reachable (Region.empty 4096) {} s := reachable_iff.mpr ⟨_, hs⟩
  obtain ⟨n, hn, hword, hlow⟩ := Reachable.rounds (by decide : Word.limit - 25 ≠ Word.limit - 24)
  obtain ⟨n', hn', hnone, hhigh⟩ := Reachable.rounds (by decide : Word.limit - 23 ≠ Word.limit - 24)
  obtain rfl : n = Word.limit - 8 := hn.unique (Request.isLeast_rounded _)
  obtain rfl : n' = Word.limit := hn'.unique (Request.isLeast_rounded _)
  refine ⟨s, hs, hlive, hword, fun hlarge => ?_, hnone, ?_⟩
  · have hle := (hlow _ _ s hreach (by decide)).1.tooLarge_iff.mp hlarge
    exact absurd hle (by decide)
  · refine ((hhigh _ _ s hreach (by decide)).2 _ fun q hq => ?_).refuses (Nat.le_refl _)
    cases hq
    exact hlive

end Session

/-- The least block that serves this request has a size that is a word, but rounding faults, and
    with it whatever the request is for. -/
theorem Request.overflows_at_edge : IsLeast (Request.serving (Word.limit - 24)) (Word.limit - 8) ∧
    Word.limit - 8 < Word.limit ∧ Request.blockSize (Word.limit - 24) = .error .overflow ∧
    ∃ s, (Session.start? (Region.empty 4096) {}).bind (fun t => t.run? [.allocate 16]) = some s ∧
      s.IsLive ⟨104, by decide⟩ ∧
      (s.heap.allocate (Word.limit - 24)).result = .error .overflow ∧
      (s.heap.resize (some ⟨104, by decide⟩) (Word.limit - 24)).result = .error .overflow := by
  have hfault : Request.blockSize (Word.limit - 24) = .error .overflow := rfl
  have hrun : ((Session.start? (Region.empty 4096) {}).bind (fun t => t.run?
      [.allocate 16])).map (fun s => decide (s.IsLive ⟨104, by decide⟩)) = some true := by
    decide +kernel
  obtain ⟨s, hs, hlive⟩ := Option.map_eq_some_iff.mp hrun
  refine ⟨Request.isLeast_rounded _, by decide, hfault, s, hs, of_decide_eq_true hlive, ?_, ?_⟩
  · rw [Heap.allocate, if_neg (by decide), Traced.result_bind, Traced.result_lift, hfault]
    rfl
  · rw [Heap.resize, if_neg (by decide), Traced.result_bind, Traced.result_lift, hfault]
    rfl

end BoundaryTag
