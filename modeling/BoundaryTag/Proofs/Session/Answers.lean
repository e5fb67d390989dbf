import BoundaryTag.Proofs.Heap.Contents
import BoundaryTag.Proofs.Heap.Reports
import BoundaryTag.Proofs.Session.Effect

set_option autoImplicit false

/-! # Every command has an answer

A client that keeps to the rules and asks for sizes that can be rounded (`Session.Abides`) never
brings a heap to a fault, unless the host runs out of storage within the limit of the region
(`Session.Starves`): every command of its runs has an answer, and so has every question in between
(`Session.Answers`). The step is `Sound.exec_ends`, and `Sound.exists_run` goes on from it along the
run. -/

namespace BoundaryTag

/-- The size of a request can be rounded to a block size, or found to be too large. -/
def Command.Sized : Command → Prop
  | .allocate size | .resize _ size => ∃ r, Request.blockSize size = .ok r
  | .free _ | .write _ _ _ => True

instance (size : Nat) : Decidable (∃ r, Request.blockSize size = .ok r) :=
  match Request.blockSize size with
  | .ok r => isTrue ⟨r, rfl⟩
  | .error _ => isFalse nofun

instance : (c : Command) → Decidable c.Sized
  | .allocate size | .resize _ size =>
    inferInstanceAs (Decidable (∃ r, Request.blockSize size = .ok r))
  | .free _ | .write _ _ _ => isTrue trivial

/-- The host has no storage for some size within the limit of the region. -/
def Heap.Starved (h : Heap) : Prop :=
  ∃ n ≤ h.region.limit, h.region.backing.holds n = false

/-- A fault for lack of storage. -/
def Heap.Wants (h : Heap) (f : Fault) : Prop :=
  f = .storageTooLarge ∧ h.Starved

namespace Session

/-- A client keeps to the rules: as each command comes, it is permitted and its size can be
    rounded. -/
def Abides : Session → List Command → Prop
  | _, [] => True
  | s, c :: cs => s.Permits c ∧ c.Sized ∧ ∀ t, s.exec c = .ok t → t.Abides cs

/-- The commands lead to one for which the host has no storage, though the limit allows for it. -/
def Starves (s : Session) (cs : List Command) : Prop :=
  ∃ ds c es t, cs = ds ++ c :: es ∧ s.run? ds = some t ∧ t.exec c = .error .storageTooLarge ∧
    t.heap.Starved

/-- Whatever can be asked of the session has an answer, and following a list ends after at most as
    many nodes as there is room for blocks. -/
structure Answers (s : Session) : Prop where
  usableSize : ∀ p, s.IsLive p → ∃ n, s.heap.usableSize p = .ok n
  payload : ∀ p, s.IsLive p → ∃ bytes, s.heap.payload p = .ok bytes
  writePayload : ∀ p skip bytes, s.IsLive p → ∃ h, s.heap.writePayload? p skip bytes = .ok h
  check : s.heap.check = .ok (.ok ())
  census : ∃ c, s.heap.census = .ok c
  freeEntries : ∃ es, s.heap.freeEntries = .ok es
  lists : ∀ k < s.heap.index.size, s.heap.index.EndsWithin s.heap.memory k
    ((s.heap.memory.size - 8 - s.heap.start) / 32)

variable {s s₀ t : Session} {P : Plan} {c : Command} {cs : List Command} {r : Nat}
  {region : Region} {settings : Settings}

instance : (s : Session) → (cs : List Command) → Decidable (s.Abides cs)
  | _, [] => isTrue trivial
  | s, c :: cs =>
    have : Decidable (∀ t, s.exec c = .ok t → t.Abides cs) :=
      match s.exec c with
      | .ok t =>
        have := instDecidableAbides t cs
        decidable_of_iff (t.Abides cs) (by simp)
      | .error _ => isTrue nofun
    inferInstanceAs (Decidable (s.Permits c ∧ c.Sized ∧ ∀ t, s.exec c = .ok t → t.Abides cs))

namespace Sound

theorem answers (hs : s.Sound P) : s.Answers := by
  have hr := hs.realizes
  refine ⟨fun p hp => ?_, fun p hp => ?_, fun p skip bytes hp => ?_, hr.check_eq, ⟨_, hr.census_eq⟩,
    ⟨_, hr.freeEntries_eq⟩, fun k hk => hr.endsWithin hk⟩
  all_goals obtain ⟨o, k, ho, hk⟩ := hs.place_of_live hp
  · exact ⟨_, hr.usableSize_eq ho hk⟩
  · exact ⟨_, hr.payload_eq ho hk⟩
  · rw [Heap.writePayload?, hr.payloadSize_eq ho hk, ok_bind]
    split
    · exact ⟨_, rfl⟩
    · exact ⟨_, rfl⟩

/-- The faults of a request that can be rounded, in a heap with a proper split threshold, are those
    of the host. -/
theorem wants_of_falters {size : Nat} {f : Fault} {h : Heap} (hf : h.Falters size f)
    (ht : h.settings.splitThreshold = .ok r) (hsized : ∃ r, Request.blockSize size = .ok r) :
    h.Wants f := by
  rcases hf with hlacks | hsize
  · cases hlacks with
    | threshold hf =>
      rw [ht] at hf
      cases hf
    | storage _ hle hholds => exact ⟨rfl, _, hle, hholds⟩
  · obtain ⟨needed, hneeded⟩ := hsized
    rw [hneeded] at hsize
    cases hsize

theorem free_ends (hs : s.Sound P) {q : Option Handle} (hlive : ∀ p, q = some p → s.IsLive p) :
    ∃ h', (s.heap.free q).result = .ok h' := by
  cases q with
  | none => exact ⟨_, rfl⟩
  | some p =>
    obtain ⟨o, k, ho, hk⟩ := hs.place_of_live (hlive p rfl)
    obtain ⟨m', -, hres, -⟩ := Heap.exists_free hs.realizes ho hk
    exact ⟨_, hres⟩

theorem allocate_ends (hs : s.Sound P) (ht : s.heap.settings.splitThreshold = .ok r) {size : Nat}
    (hsized : ∃ r, Request.blockSize size = .ok r) :
    Ends s.heap.Wants (fun _ => True) (s.heap.allocate size).result :=
  ((Heap.allocate_ends hs.realizes size).mono fun _ hf => wants_of_falters hf ht hsized).imp
    fun _ _ => trivial

theorem resize_ends (hs : s.Sound P) (ht : s.heap.settings.splitThreshold = .ok r)
    {q : Option Handle} {size : Nat} (hlive : ∀ p, q = some p → s.IsLive p)
    (hsized : ∃ r, Request.blockSize size = .ok r) :
    Ends s.heap.Wants (fun _ => True) (s.heap.resize q size).result := by
  by_cases h0 : size = 0
  · obtain ⟨h', hfree⟩ := hs.free_ends hlive
    rw [Heap.resize.eq_def, if_pos h0, Traced.result_bind, hfree]
    trivial
  · cases q with
    | none =>
      rw [Heap.resize, if_neg h0]
      exact hs.allocate_ends ht hsized
    | some p =>
      obtain ⟨o, k, ho, hk⟩ := hs.place_of_live (hlive p rfl)
      exact ((Heap.resize_ends hs.realizes ho hk h0).mono fun _ hf =>
        wants_of_falters hf ht hsized).imp fun _ _ => trivial

/-- A permitted command has an answer, unless the host lacks storage. -/
theorem exec_ends (hs : s.Sound P) (ht : s.heap.settings.splitThreshold = .ok r)
    (hpermits : s.Permits c) (hsized : c.Sized) :
    Ends s.heap.Wants (fun _ => True) (s.exec c) := by
  cases c with
  | allocate size => exact (hs.allocate_ends ht hsized).bind fun _ _ => trivial
  | free q =>
    obtain ⟨h', hfree⟩ := hs.free_ends hpermits
    rw [exec, hfree]
    trivial
  | resize q size => exact (hs.resize_ends ht hpermits hsized).bind fun _ _ => trivial
  | write p skip bytes =>
    obtain ⟨h, hwrite⟩ := hs.answers.writePayload p skip bytes hpermits
    rw [exec, hwrite, ok_bind]
    cases h <;> trivial

theorem exists_run (hs : s.Sound P) (ht : s.heap.settings.splitThreshold = .ok r)
    (habides : s.Abides cs) (hfed : ¬ s.Starves cs) :
    ∃ t P', s.run? cs = some t ∧ t.Sound P' := by
  induction cs generalizing s P with
  | nil => exact ⟨s, P, rfl, hs⟩
  | cons c cs ih =>
    obtain ⟨hpermits, hsized, hrest⟩ := habides
    have hends := hs.exec_ends ht hpermits hsized
    cases hexec : s.exec c with
    | error f =>
      rw [hexec] at hends
      obtain ⟨rfl, hstarved⟩ := hends
      exact absurd ⟨[], c, cs, s, rfl, rfl, hexec, hstarved⟩ hfed
    | ok t =>
      obtain ⟨P', he⟩ := exec_effect hs hpermits hexec
      have ht' : t.heap.settings.splitThreshold = .ok r := by
        rw [he.heap_eq]
        exact ht
      obtain ⟨u, P'', hrun, hu⟩ := ih (he.sound hs) ht' (hrest t hexec) fun ⟨ds, d, es, v, hcs, hv,
        hfault, hstarved⟩ => hfed ⟨c :: ds, d, es, v, by rw [hcs]; rfl,
          run?_cons.mpr ⟨hpermits, t, hexec, hv⟩, hfault, hstarved⟩
      exact ⟨u, P'', run?_cons.mpr ⟨hpermits, t, hexec, hrun⟩, hu⟩

end Sound

/-- Storage that the host has for every size within the limit is enough. -/
theorem not_starves (hstart : start? region settings = some s)
    (hhost : ∀ n ≤ region.limit, region.backing.holds n = true) : ¬ s.Starves cs := by
  rintro ⟨ds, c, es, t, -, hrun, -, n, hle, hholds⟩
  have hreach : Reachable region settings t := reachable_iff.mpr ⟨ds, by rw [hstart]; exact hrun⟩
  rw [hreach.region_eq] at hle hholds
  rw [hhost n hle] at hholds
  cases hholds

/-- In a heap whose split threshold is a word, all commands of a client that keeps to the rules have
    an answer, and so has every question at the end of the run, as long as the host has storage. The
    same holds for every beginning of the run. -/
theorem Abides.exists_answers (hstart : start? region settings = some s₀)
    (hthreshold : settings.splitThreshold = .ok r) (habides : s₀.Abides cs)
    (hfed : ¬ s₀.Starves cs) : ∃ s, s₀.run? cs = some s ∧ s.Answers := by
  have hreach := reachable_of_start hstart
  obtain ⟨P, hs⟩ := hreach.exists_sound
  rw [← hreach.settings_eq] at hthreshold
  obtain ⟨s, P', hrun, hsound⟩ := hs.exists_run hthreshold habides hfed
  exact ⟨s, hrun, hsound.answers⟩

/-- A run with a refused request, a free block between others, and a payload that is moved. -/
theorem Abides.exists_answers_of_run : ∃ s₀ s, start? (Region.empty 600) {} = some s₀ ∧
    s₀.run? [.allocate 16, .allocate 100, .allocate 1000, .free (some ⟨104, by decide⟩),
      .allocate 40, .write ⟨136, by decide⟩ 90 [255, 255, 255, 255, 255, 255],
      .resize (some ⟨136, by decide⟩) 160] = some s ∧ s.Answers := by
  have hrun : (start? (Region.empty 600) {}).map (fun s => decide (s.Abides
      [.allocate 16, .allocate 100, .allocate 1000, .free (some ⟨104, by decide⟩),
        .allocate 40, .write ⟨136, by decide⟩ 90 [255, 255, 255, 255, 255, 255],
        .resize (some ⟨136, by decide⟩) 160])) = some true := by
    decide +kernel
  obtain ⟨s₀, hstart, habides⟩ := Option.map_eq_some_iff.mp hrun
  have hhost : ∀ n ≤ 600, Backing.holds .owned n = true := by
    intro n hn
    simp only [Backing.holds, decide_eq_true_eq]
    omega
  obtain ⟨s, hs, hanswers⟩ := Abides.exists_answers hstart rfl (of_decide_eq_true habides)
    (not_starves hstart hhost)
  exact ⟨s₀, s, hstart, hs, hanswers⟩

end Session

end BoundaryTag
