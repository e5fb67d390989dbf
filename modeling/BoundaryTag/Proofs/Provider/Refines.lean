import BoundaryTag.Proofs.Memory.Alike
import BoundaryTag.Provider.Basic
import BoundaryTag.Region

set_option autoImplicit false

/-! # Providers that behave like a region

A region says what a provider has to do: keep the old bytes, add zero bytes, refuse what passes the
limit. A relation `R` between the states of a provider and regions is a refinement if each call
keeps it (`Provider.Refines`). Calls then have the same answers on both, one after the other
(`Refines.run`), and the provider grows as promised (`Refines.grows`). -/

namespace BoundaryTag

/-- Storage for every size within the limit of the region can be had. -/
structure Region.Ample (r : Region) : Prop where
  size_le : r.size ≤ r.limit
  holds : ∀ n ≤ r.limit, Backing.owned.holds n = true

namespace Region

variable {r : Region} {n : Nat}

theorem Ample.lt_limit (ha : r.Ample) (hn : n ≤ r.limit) : n < Word.limit := by
  have hholds := ha.holds n hn
  simp only [Backing.holds, decide_eq_true_eq] at hholds
  unfold Word.limit
  omega

theorem Ample.backing_holds (ha : r.Ample) (hn : n ≤ r.limit) : r.backing.holds n = true := by
  cases r.backing with
  | owned => exact ha.holds n hn
  | reserved => rfl

theorem Ample.withMemory (ha : r.Ample) {m : Memory} (hm : m.size = r.size) :
    ({ r with memory := m } : Region).Ample :=
  ⟨Nat.le_trans (Nat.le_of_eq hm) ha.size_le, ha.holds⟩

theorem Ample.grow (ha : r.Ample) (hn : r.size + n ≤ r.limit) :
    ({ r with memory := r.memory.grow n } : Region).Ample :=
  ⟨hn, ha.holds⟩

/-- Growth within the limit is granted. -/
theorem Ample.result_extend (ha : r.Ample) (hn : r.size + n ≤ r.limit) :
    (r.extend n).result = .ok (.ok r.size, { r with memory := r.memory.grow n }) :=
  result_extend_of_le hn (ha.lt_limit hn) (ha.backing_holds hn)

theorem limit_call {c : Provider.Call} {a : Provider.Answer} {r' : Region}
    (hcall : Provider.call r c = .ok (a, r')) : r'.limit = r.limit := by
  cases c with
  | extend n =>
    rw [Provider.call, provider_extend] at hcall
    obtain ⟨⟨base, r₁⟩, hext, hrest⟩ := bind_eq_ok_iff.mp hcall
    cases hrest
    rcases r.result_extend_cases n with ⟨-, -, -, heq⟩ | ⟨-, -, -, heq⟩ | ⟨-, heq⟩
    · cases heq.symm.trans hext
      rfl
    · cases heq.symm.trans hext
    · cases heq.symm.trans hext
      rfl
  | write offset new =>
    rw [Provider.call, provider_memory] at hcall
    cases hwrite : r.memory.overwrite? offset new with
    | none =>
      rw [hwrite] at hcall
      cases hcall
    | some m =>
      rw [hwrite] at hcall
      cases hcall
      rfl

/-- Calls do not change the limit. -/
theorem limit_run {cs : List Provider.Call} {answers : List Provider.Answer} {r' : Region}
    (hrun : Provider.run r cs = .ok (answers, r')) : r'.limit = r.limit := by
  induction cs generalizing r answers with
  | nil =>
    cases hrun
    rfl
  | cons c cs ih =>
    rw [Provider.run] at hrun
    obtain ⟨⟨a, r₁⟩, hcall, hrest⟩ := bind_eq_ok_iff.mp hrun
    obtain ⟨⟨as, r₂⟩, hcalls, heq⟩ := bind_eq_ok_iff.mp hrest
    cases heq
    rw [ih hcalls, limit_call hcall]

end Region

namespace Memory

/-- A memory made of the bytes of another one is like it. -/
theorem Alike.ofBytes {bytes : List UInt8} {m : Memory} (hbytes : bytes = m.load 0 m.size) :
    Alike m.size (.ofBytes bytes) m := by
  have hlength : bytes.length = m.size := by rw [hbytes, length_load]
  have hsize : (Memory.ofBytes bytes).size = m.size := by
    rw [Memory.ofBytes, size_store, size_zeroed, hlength]
  refine ⟨hsize, rfl, fun j => ?_⟩
  by_cases hj : j < m.size
  · rw [Memory.ofBytes, byte_store, size_zeroed, hlength, if_pos ⟨Nat.zero_le j, hj⟩, hbytes,
      getElem?_load, Nat.sub_zero, if_pos hj, Option.getD_some, Nat.zero_add]
  · rw [byte_of_size_le _ (by omega), byte_of_size_le _ (by omega)]

end Memory

namespace Provider

variable {σ : Type} [Provider σ] {R : σ → Region → Prop} {s : σ} {r : Region} {n : Nat}

/-- Two answers are the same, and what is left after them goes together. -/
def Pairs {α β γ : Type} (R : β → γ → Prop) : α × β → α × γ → Prop :=
  fun x y => x.1 = y.1 ∧ R x.2 y.2

/-- A provider does what a region does. -/
structure Refines (R : σ → Region → Prop) : Prop where
  ample : ∀ {s r}, R s r → r.Ample
  size_eq : ∀ {s r}, R s r → size s = r.size
  bytes_eq : ∀ {s r}, R s r → bytes s = r.memory.load 0 r.size
  extend_of_le : ∀ {s r n}, R s r → r.size + n ≤ r.limit → ∃ t,
    (extend s n).result = .ok (.ok r.size, t) ∧ R t { r with memory := r.memory.grow n }
  extend_of_lt : ∀ {s r n}, R s r → r.limit < r.size + n →
    (extend s n).result = .ok (.error (.outOfMemory n r.size r.limit), s)
  memory_alike : ∀ {s r}, R s r → Memory.Alike r.size (memory s) r.memory
  setMemory : ∀ {s r m m'}, R s r → Memory.Alike r.size m m' →
    R (setMemory s m) { r with memory := m' }

/-- A provider with a limit of `limit` bytes grows as it should: by whole requests, each of which
    adds zero bytes at the end, and by nothing else. -/
structure Grows (limit : Nat) (s : σ) : Prop where
  length_bytes : (bytes s).length = size s
  size_le : size s ≤ limit
  granted : ∀ n, size s + n ≤ limit → ∃ t, (extend s n).result = .ok (.ok (size s), t) ∧
    size t = size s + n ∧ bytes t = bytes s ++ List.replicate n 0
  refused : ∀ n, limit < size s + n →
    (extend s n).result = .ok (.error (.outOfMemory n (size s) limit), s)
  written : ∀ offset new, offset + new.length ≤ size s → ∃ t,
    call s (.write offset new) = .ok (.ok none, t) ∧ size t = size s ∧
      bytes t = (bytes s).take offset ++ new ++ (bytes s).drop (offset + new.length)

namespace Refines

theorem sight_eq (hR : Refines R) (h : R s r) : sight s = sight r := by
  rw [sight, isEmpty, low, high, hR.size_eq h, hR.bytes_eq h]
  rfl

/-! ## Calls -/

theorem extend (hR : Refines R) (h : R s r) (n : Nat) :
    Matches (Pairs R) (Provider.extend s n).result (Provider.extend r n).result := by
  rw [Region.provider_extend]
  by_cases hn : r.size + n ≤ r.limit
  · obtain ⟨t, hext, ht⟩ := hR.extend_of_le h hn
    rw [hext, (hR.ample h).result_extend hn]
    exact .ok ⟨rfl, ht⟩
  · rw [hR.extend_of_lt h (Nat.not_le.mp hn), Region.result_extend_of_lt (Nat.not_le.mp hn)]
    exact .ok ⟨rfl, h⟩

/-- A call has the same answer on both, and keeps the relation. -/
theorem call (hR : Refines R) (h : R s r) (c : Call) :
    Matches (Pairs R) (Provider.call s c) (Provider.call r c) := by
  cases c with
  | extend n =>
    refine (hR.extend h n).bind ?_
    rintro ⟨base, t⟩ ⟨_, r'⟩ ⟨rfl, ht⟩
    exact .ok ⟨rfl, ht⟩
  | write offset new =>
    have hm := hR.memory_alike h
    rw [Provider.call, Provider.call, Region.provider_memory]
    rcases hm.overwrite? offset new with ⟨heq, heq'⟩ | ⟨heq, heq'⟩
    · simp only [heq, heq']
      exact .ok ⟨rfl, hR.setMemory h (hm.store _ _)⟩
    · simp only [heq, heq']
      exact .error

theorem run (hR : Refines R) (h : R s r) (cs : List Call) :
    Matches (Pairs R) (Provider.run s cs) (Provider.run r cs) := by
  induction cs generalizing s r with
  | nil => exact .ok ⟨rfl, h⟩
  | cons c cs ih =>
    refine (hR.call h c).bind ?_
    rintro ⟨answer, t⟩ ⟨_, r'⟩ ⟨rfl, ht⟩
    refine (ih ht).bind ?_
    rintro ⟨answers, u⟩ ⟨_, r''⟩ ⟨rfl, hu⟩
    exact .ok ⟨rfl, hu⟩

/-- Calls have the same answers on both, and both look the same after them. -/
theorem run_sight_eq (hR : Refines R) (h : R s r) (cs : List Call) :
    (Provider.run s cs).map (fun x => (x.1, sight x.2)) =
      (Provider.run r cs).map fun x => (x.1, sight x.2) := by
  have hrun := hR.run h cs
  generalize Provider.run s cs = x at hrun
  generalize Provider.run r cs = y at hrun
  cases hrun with
  | error => rfl
  | ok hab =>
    rw [Except.map, Except.map, hab.1, hR.sight_eq hab.2]

/-- What refines a region grows as promised. -/
theorem grows (hR : Refines R) (h : R s r) : Grows r.limit s where
  length_bytes := by rw [hR.bytes_eq h, Memory.length_load, hR.size_eq h]
  size_le := by
    rw [hR.size_eq h]
    exact (hR.ample h).size_le
  granted n hn := by
    rw [hR.size_eq h] at hn ⊢
    obtain ⟨t, hext, ht⟩ := hR.extend_of_le h hn
    refine ⟨t, hext, hR.size_eq ht, ?_⟩
    have hgrown : (r.memory.grow n).load 0 (r.memory.size + n) =
        r.memory.load 0 (r.memory.size + n) :=
      Memory.load_congr fun j _ _ => Memory.byte_grow _ _ _
    rw [hR.bytes_eq ht, hR.bytes_eq h]
    show (r.memory.grow n).load 0 (r.memory.size + n) = _
    rw [hgrown, Memory.load_add, Nat.zero_add, Memory.load_of_size_le _ (Nat.le_refl _)]
    rfl
  refused n hn := by
    rw [hR.size_eq h] at hn ⊢
    exact hR.extend_of_lt h hn
  written offset new hin := by
    have hm := hR.memory_alike h
    rw [hR.size_eq h] at hin ⊢
    have hset : R (Provider.setMemory s ((memory s).store offset new))
        { r with memory := r.memory.store offset new } := hR.setMemory h (hm.store _ _)
    have hinside : offset + new.length ≤ (memory s).size := by rwa [hm.size_left]
    refine ⟨Provider.setMemory s ((memory s).store offset new), ?_, ?_, ?_⟩
    · rw [Provider.call, Memory.overwrite?, if_pos hinside]
    · rw [hR.size_eq hset]
      exact Memory.size_store _ _ _
    · rw [hR.bytes_eq hset, hR.bytes_eq h]
      show (r.memory.store offset new).load 0 (r.memory.store offset new).size = _
      rw [Memory.size_store]
      exact Memory.load_store _ _ hin

theorem grows_run (hR : Refines R) (h : R s r) {cs : List Call} {answers : List Answer} {t : σ}
    (ht : Provider.run s cs = .ok (answers, t)) : Grows r.limit t := by
  have hrun := hR.run h cs
  rw [ht] at hrun
  generalize hr : Provider.run r cs = y at hrun
  cases hrun with
  | ok hab =>
    rw [← Region.limit_run hr]
    exact hR.grows hab.2

end Refines

end Provider

end BoundaryTag
