import BoundaryTag.Heap.Operations

set_option autoImplicit false

/-! # Sessions

A session is a heap together with what its client knows: the handles that are live, each with the
number of bytes last requested for it, and the handles that were given back and not handed out
again. A client that keeps to the rules gives back, resizes and writes through live handles only
(`Session.Permits`); `Session.Reachable` are the sessions that such a client can bring about. -/

namespace BoundaryTag

/-- What a client can ask of a heap. -/
inductive Command where
  | allocate (size : Nat)
  | free (p : Option Handle)
  | resize (p : Option Handle) (size : Nat)
  /-- Overwrite payload bytes, after the first `skip`. -/
  | write (p : Handle) (skip : Nat) (bytes : List UInt8)

/-- A heap, its live handles with the sizes last requested, and the handles given back since they
    were last handed out. -/
structure Session where
  heap : Heap
  live : List (Handle × Nat)
  spent : List Handle

namespace Session

/-- The session with another heap. -/
def withHeap (s : Session) (h : Heap) : Session :=
  { s with heap := h }

/-- A handle becomes live. -/
def grant (s : Session) (p : Handle) (size : Nat) : Session :=
  { s with live := (p, size) :: s.live, spent := s.spent.filter (· ≠ p) }

/-- A handle is given back. -/
def retire (s : Session) : Option Handle → Session
  | none => s
  | some p => { s with live := s.live.filter (·.1 ≠ p), spent := p :: s.spent }

/-- The session after a request of `size` bytes in exchange for the handle `old` was answered. A
    refusal changes nothing for the client. -/
def settle (s : Session) (old : Option Handle) (size : Nat) :
    Heap.Outcome (Option Handle) → Session
  | (.error _, h) => s.withHeap h
  | (.ok none, h) => (s.retire old).withHeap h
  | (.ok (some p), h) => ((s.retire old).grant p size).withHeap h

/-- Carries out a command. A write that does not fit its payload is not made. -/
def exec (s : Session) : Command → Except Fault Session
  | .allocate size => do
    return s.settle none size (← (s.heap.allocate size).result)
  | .free p => do
    return s.settle p 0 (.ok none, ← (s.heap.free p).result)
  | .resize p size => do
    return s.settle p size (← (s.heap.resize p size).result)
  | .write p skip bytes => do
    match ← s.heap.writePayload? p skip bytes with
    | some h => return s.withHeap h
    | none => return s

/-- The handle is live. -/
def IsLive (s : Session) (p : Handle) : Prop :=
  ∃ n, (p, n) ∈ s.live

/-- A client that keeps to the rules names live handles only. -/
def Permits (s : Session) : Command → Prop
  | .allocate _ => True
  | .free p | .resize p _ => ∀ q, p = some q → s.IsLive q
  | .write p _ _ => s.IsLive p

/-- The sessions that start with a new heap in the region and go on with permitted commands. -/
inductive Reachable (region : Region) (settings : Settings) : Session → Prop where
  | init {h : Heap} : (Heap.init region settings).result = .ok (.ok h) →
      Reachable region settings ⟨h, [], []⟩
  | step {s s' : Session} {c : Command} : Reachable region settings s → s.Permits c →
      s.exec c = .ok s' → Reachable region settings s'

/-! ## Runs -/

instance (s : Session) (p : Handle) : Decidable (s.IsLive p) :=
  decidable_of_iff (p ∈ s.live.map Prod.fst) (by simp [IsLive])

instance (s : Session) : (p : Option Handle) → Decidable (∀ q, p = some q → s.IsLive q)
  | none => isTrue fun _ h => nomatch h
  | some p => decidable_of_iff (s.IsLive p) (by simp)

instance (s : Session) : (c : Command) → Decidable (s.Permits c)
  | .allocate _ => isTrue trivial
  | .free p | .resize p _ => inferInstanceAs (Decidable (∀ q, p = some q → s.IsLive q))
  | .write p _ _ => inferInstanceAs (Decidable (s.IsLive p))

/-- The session with a new heap in the given region, if there is one. -/
def start? (region : Region) (settings : Settings) : Option Session :=
  match (Heap.init region settings).result with
  | .ok (.ok h) => some ⟨h, [], []⟩
  | _ => none

/-- The session after the commands, if all of them are permitted and have a result. -/
def run? (s : Session) : List Command → Option Session
  | [] => some s
  | c :: cs =>
    if s.Permits c then
      match s.exec c with
      | .ok s' => s'.run? cs
      | .error _ => none
    else none

variable {region : Region} {settings : Settings} {s s' : Session} {c : Command} {cs : List Command}

theorem run?_cons : s.run? (c :: cs) = some s' ↔
    s.Permits c ∧ ∃ t, s.exec c = .ok t ∧ t.run? cs = some s' := by
  rw [run?]
  split <;> rename_i hp
  · cases s.exec c <;> simp [hp]
  · simp [hp]

/-- A run goes on where another one ended. -/
theorem run?_append {ds : List Command} :
    s.run? (cs ++ ds) = (s.run? cs).bind fun t => t.run? ds := by
  induction cs generalizing s with
  | nil => rfl
  | cons c cs ih =>
    rw [List.cons_append, run?, run?]
    split
    · cases s.exec c with
      | ok t => exact ih
      | error f => rfl
    · rfl

theorem start?_eq_some_iff : start? region settings = some s ↔
    ∃ h, (Heap.init region settings).result = .ok (.ok h) ∧ s = ⟨h, [], []⟩ := by
  rw [start?]
  split
  · rename_i h hinit
    simp [hinit, eq_comm]
  · rename_i hnot
    simp only [reduceCtorEq, false_iff, not_exists, not_and]
    exact fun h hinit => absurd hinit (hnot h)

/-- The reachable sessions are those at the end of some run. -/
theorem reachable_iff : Reachable region settings s ↔
    ∃ cs, (start? region settings).bind (fun t => t.run? cs) = some s := by
  constructor
  · intro hs
    induction hs with
    | init hinit => exact ⟨[], by rw [start?_eq_some_iff.mpr ⟨_, hinit, rfl⟩]; rfl⟩
    | @step _ _ c _ hpermits hexec ih =>
      obtain ⟨cs, hcs⟩ := ih
      obtain ⟨t, ht, hrun⟩ := Option.bind_eq_some_iff.mp hcs
      refine ⟨cs ++ [c], ?_⟩
      rw [ht, Option.bind_some, run?_append, hrun, Option.bind_some]
      exact run?_cons.mpr ⟨hpermits, _, hexec, rfl⟩
  · rintro ⟨cs, hcs⟩
    obtain ⟨t, ht, hrun⟩ := Option.bind_eq_some_iff.mp hcs
    have hreach : Reachable region settings t := by
      obtain ⟨h, hinit, rfl⟩ := start?_eq_some_iff.mp ht
      exact .init hinit
    clear hcs ht
    induction cs generalizing t with
    | nil =>
      cases hrun
      exact hreach
    | cons c cs ih =>
      obtain ⟨hpermits, u, hexec, hrun⟩ := run?_cons.mp hrun
      exact ih u hrun (hreach.step hpermits hexec)

theorem reachable_of_start (hstart : start? region settings = some s) :
    Reachable region settings s :=
  reachable_iff.mpr ⟨[], by rw [hstart]; rfl⟩

end Session

end BoundaryTag
