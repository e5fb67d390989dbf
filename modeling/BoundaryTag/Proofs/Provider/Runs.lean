import BoundaryTag.Proofs.Provider.Heap
import BoundaryTag.Proofs.Session.Basic

set_option autoImplicit false

/-! # Runs over what refines a region

A heap is laid out and then carries out commands, whatever they are: what the client is told and what
the bytes are after each command (`Heap.play`) is the same over a provider that refines a region and
in the region itself (`Provider.Refines.play_eq`). A fault ends a run on both at the same command. -/

namespace BoundaryTag

open Provider (Pairs Refines)

/-- What a client is told about a command: the handle or the refusal, nothing after a handle was
    given back, or whether the bytes were written. -/
inductive Reply where
  | handle (answer : Except Refusal (Option Handle))
  | freed
  | written (done : Bool)

namespace Heap

variable {σ : Type} [Provider σ]

/-- Carries out a command. A write that does not fit its payload is not made. -/
def exec (h : Heap σ) : Command → Except Fault (Reply × Heap σ)
  | .allocate size => do
    let (answer, h) ← (h.allocate size).result
    return (.handle answer, h)
  | .free p => do
    return (.freed, ← (h.free p).result)
  | .resize p size => do
    let (answer, h) ← (h.resize p size).result
    return (.handle answer, h)
  | .write p skip bytes => do
    match ← h.writePayload? p skip bytes with
    | some h => return (.written true, h)
    | none => return (.written false, h)

/-- The replies to commands, each with the bytes after it, up to the first fault. -/
def trace (h : Heap σ) : List Command → List (Except Fault (Reply × List UInt8))
  | [] => []
  | c :: cs =>
    match h.exec c with
    | .ok (reply, h) => .ok (reply, Provider.bytes h.region) :: h.trace cs
    | .error fault => [.error fault]

/-- The bytes of a new heap and what comes of the commands. -/
def play (s : σ) (settings : Settings) (cs : List Command) :
    Except Fault (Except Refusal (List UInt8 × List (Except Fault (Reply × List UInt8)))) := do
  match ← (init s settings).result with
  | .error refusal => return .error refusal
  | .ok h => return .ok (Provider.bytes h.region, h.trace cs)

end Heap

variable {σ : Type} [Provider σ] {R : σ → Region → Prop} {h : Heap σ} {k : Heap} {s : σ}
  {r : Region}

namespace Heap.Over

theorem bytes_eq (hR : Refines R) (ho : Over R h k) :
    Provider.bytes h.region = Provider.bytes k.region :=
  hR.bytes_eq ho.region

theorem exec (hR : Refines R) (ho : Over R h k) (c : Command) :
    Matches (Pairs (Over R)) (h.exec c) (k.exec c) := by
  cases c with
  | allocate size =>
    refine (ho.allocate hR size).bind ?_
    rintro ⟨answer, h'⟩ ⟨_, k'⟩ ⟨rfl, ho'⟩
    exact .ok ⟨rfl, ho'⟩
  | free p => exact (ho.free hR p).bind fun _ _ ho' => .ok ⟨rfl, ho'⟩
  | resize p size =>
    refine (ho.resize hR p size).bind ?_
    rintro ⟨answer, h'⟩ ⟨_, k'⟩ ⟨rfl, ho'⟩
    exact .ok ⟨rfl, ho'⟩
  | write p skip bytes =>
    refine (ho.writePayload? hR p skip bytes).bind ?_
    rintro _ _ (⟨rfl, rfl⟩ | ⟨h', k', rfl, rfl, ho'⟩)
    · exact .ok ⟨rfl, ho⟩
    · exact .ok ⟨rfl, ho'⟩

/-- What comes of commands is the same over the provider and in the region. -/
theorem trace_eq (hR : Refines R) (ho : Over R h k) (cs : List Command) :
    h.trace cs = k.trace cs := by
  induction cs generalizing h k with
  | nil => rfl
  | cons c cs ih =>
    rw [trace, trace]
    have hexec := ho.exec hR c
    generalize h.exec c = x at hexec
    generalize k.exec c = y at hexec
    cases hexec with
    | error => rfl
    | @ok a b hab =>
      obtain ⟨reply, h'⟩ := a
      obtain ⟨_, k'⟩ := b
      obtain ⟨rfl, ho'⟩ := hab
      dsimp only
      rw [ho'.bytes_eq hR, ih ho']

end Heap.Over

/-- A run over a provider that refines a region is the run in the region. -/
theorem Provider.Refines.play_eq (hR : Refines R) (hs : R s r) (settings : Settings)
    (cs : List Command) : Heap.play s settings cs = Heap.play r settings cs := by
  rw [Heap.play, Heap.play]
  have hinit := Heap.init_matches hR hs settings
  generalize (Heap.init s settings).result = x at hinit
  generalize (Heap.init r settings).result = y at hinit
  cases hinit with
  | error => rfl
  | ok hab =>
    rcases hab with ⟨refusal, rfl, rfl⟩ | ⟨h, k, rfl, rfl, ho⟩
    · rfl
    · simp only [ok_bind, ho.bytes_eq hR, ho.trace_eq hR]

/-- The same holds after calls of the provider's own. -/
theorem Provider.Refines.run_play_eq (hR : Refines R) (hs : R s r) (calls : List Provider.Call)
    (settings : Settings) (cs : List Command) :
    (Provider.run s calls >>= fun x => Heap.play x.2 settings cs) =
      (Provider.run r calls >>= fun x => Heap.play x.2 settings cs) := by
  have hrun := hR.run hs calls
  generalize Provider.run s calls = x at hrun
  generalize Provider.run r calls = y at hrun
  cases hrun with
  | error => rfl
  | ok hab => exact hR.play_eq hab.2 settings cs

end BoundaryTag
