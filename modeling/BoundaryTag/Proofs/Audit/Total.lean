import BoundaryTag.Proofs.Audit.Blocks
import BoundaryTag.Proofs.Audit.Rings

set_option autoImplicit false

/-! # The audit never faults

Whatever the bytes are, an audit has a verdict (`exists_run_eq`). A word that is not there is a
violation, so only sums of offsets could fault: those of a head, which lies below the blocks, those
of a node, which are taken after the node was found to lie inside the heap, and those of a block,
after it was found to end there. -/

namespace BoundaryTag.Audit

/-- The check has a result or finds a violation, but does not fault. -/
def Decides {α : Type} (x : Except Finding α) : Prop :=
  ∀ f, x ≠ .error (.fault f)

namespace Decides

variable {α β : Type} {x : Except Finding α} {f : α → Except Finding β} {v : α}

theorem ok : Decides (.ok v : Except Finding α) :=
  nofun

theorem violated {o : Nat} {k : Violation.Kind} :
    Decides (violated o k : Except Finding α) :=
  nofun

theorem bind (hx : Decides x) (hf : ∀ v, x = .ok v → Decides (f v)) : Decides (x >>= f) := by
  cases x with
  | ok v => exact hf v rfl
  | error e =>
    intro fault heq
    cases heq
    exact hx fault rfl

theorem require {ok : Bool} {o : Nat} {k : Violation.Kind} : Decides (require ok o k) := by
  unfold Audit.require
  split
  · exact Decides.ok
  · exact violated

end Decides

variable {a : Audit} {c head prior cursor node room o : Nat} {t : Tag} {prevFree : Bool}

theorem decides_lift {x : Except Fault Nat} {v : Nat} (hx : x = .ok v) :
    Decides (liftM x : Except Finding Nat) := by
  rw [hx]
  exact Decides.ok

theorem decides_word : Decides (a.word o) := by
  unfold word
  split
  · exact .ok
  · exact .violated

theorem decides_tag : Decides (a.tag o) :=
  decides_word.bind fun _ _ => .ok

theorem decides_nextLink (ho : o + 8 < Word.limit) : Decides (a.nextLink o) :=
  (decides_lift (Word.add_eq_ok_iff.mpr ⟨rfl, ho⟩)).bind fun _ _ => decides_word

theorem decides_priorLink (ho : o + 16 < Word.limit) : Decides (a.priorLink o) := by
  have hadd : Word.add o Block.headerBytes = .ok (o + 8) :=
    Word.add_eq_ok_iff.mpr ⟨rfl, by omega⟩
  refine (decides_lift hadd).bind fun w hw => ?_
  rw [lift_eq_ok_iff, hadd] at hw
  cases hw
  exact (decides_lift (Word.add_eq_ok_iff.mpr ⟨rfl, ho⟩)).bind fun _ _ => decides_word

/-! ## The lists -/

theorem decides_checkNode (ha : a.Fits) : Decides (a.checkNode c prior node) := by
  refine Decides.require.bind fun _ hin => ?_
  rw [require_eq_ok_iff, inHeap_eq_true_iff] at hin
  have hepilogue : a.epilogue = a.memory.size - 8 := rfl
  have hsize := ha.size_le
  refine decides_tag.bind fun _ _ => Decides.require.bind fun _ _ => ?_
  exact (decides_priorLink (by omega)).bind fun _ _ => Decides.require.bind fun _ _ => .require

theorem decides_checkReturn (hhead : head + 16 < Word.limit) :
    Decides (a.checkReturn head prior) :=
  (decides_priorLink hhead).bind fun _ _ => .require

theorem decides_countList (ha : a.Fits) (hhead : head + 16 < Word.limit) :
    Decides (a.countList c head room prior cursor) := by
  induction room generalizing prior cursor with
  | zero =>
    unfold countList
    split
    · exact (decides_checkReturn hhead).bind fun _ _ => .ok
    · exact .violated
  | succ room ih =>
    unfold countList
    split
    · exact (decides_checkReturn hhead).bind fun _ _ => .ok
    · refine (decides_checkNode ha).bind fun _ hnode => ?_
      have hlt := (checkNode_eq_ok_iff.mp hnode).lt_epilogue
      have hepilogue : a.epilogue = a.memory.size - 8 := rfl
      have hsize := ha.size_le
      exact (decides_nextLink (by omega)).bind fun _ _ => ih.bind fun _ _ => .ok

theorem decides_countClass (ha : a.Fits) (hc : c < a.index.size) : Decides (a.countClass c) := by
  obtain ⟨hhead, hlt⟩ := ha.head_eq hc
  refine (decides_lift hhead).bind fun head heq => ?_
  rw [lift_eq_ok_iff, hhead] at heq
  cases heq
  exact (decides_nextLink (by omega)).bind fun _ _ => decides_countList ha (by omega)

theorem decides_countListed (ha : a.Fits) : Decides a.countListed := by
  have hall : ∀ c ∈ List.range a.index.size, c < a.index.size := fun _ => List.mem_range.mp
  unfold countListed
  generalize List.range a.index.size = cs at hall ⊢
  generalize 0 = n
  induction cs generalizing n with
  | nil => exact .ok
  | cons c cs ih =>
    rw [List.forall_mem_cons] at hall
    rw [List.foldlM_cons]
    refine Decides.bind ?_ fun n _ => ih hall.2 n
    exact (decides_countClass ha hall.1).bind fun _ _ => .ok

/-! ## The blocks -/

theorem decides_checkBlock (hlim : o + t.size < Word.limit) (h8 : 8 ≤ t.size) :
    Decides (a.checkBlock o t prevFree) := by
  rw [checkBlock_eq hlim h8]
  refine Decides.require.bind fun _ _ => ?_
  split
  · exact .ok
  · exact decides_word.bind fun _ _ => Decides.require.bind fun _ _ => .require

theorem decides_checkEpilogue : Decides (a.checkEpilogue o prevFree) :=
  decides_tag.bind fun _ _ => Decides.require.bind fun _ _ => .require

theorem decides_countWalked (ha : a.Fits) : Decides (a.countWalked o prevFree) := by
  -- the walk goes on where the block stops, nearer to the epilogue
  induction hk : a.epilogue - o using Nat.strongRecOn generalizing o prevFree with
  | ind k ih =>
  rw [countWalked]
  split
  · refine decides_tag.bind fun t _ => ?_
    split
    · exact .violated
    rename_i hsize
    have h32 : Block.least = 32 := rfl
    split
    · exact .violated
    rename_i hfits
    have hepilogue : a.epilogue = a.memory.size - 8 := rfl
    have hlimit := ha.size_le
    refine (decides_checkBlock (by omega) (by omega)).bind fun _ _ => ?_
    exact (ih _ (by omega) rfl).bind fun _ _ => .ok
  · exact decides_checkEpilogue.bind fun _ _ => .ok

/-! ## The whole audit -/

theorem decides_inspect (ha : a.Fits) : Decides a.inspect :=
  (decides_countListed ha).bind fun _ _ =>
    (decides_countWalked ha).bind fun _ _ => .require

/-- An audit has a verdict, whatever the bytes are. -/
theorem exists_run_eq (ha : a.Fits) : ∃ verdict, a.run = .ok verdict := by
  have hdecides := decides_inspect ha
  unfold run
  split
  · exact ⟨_, rfl⟩
  · exact ⟨_, rfl⟩
  · rename_i f heq
    exact absurd heq (hdecides f)

end BoundaryTag.Audit
