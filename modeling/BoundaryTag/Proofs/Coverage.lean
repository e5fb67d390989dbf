import BoundaryTag.Proofs.FreeIndex.Threaded
import BoundaryTag.Proofs.Span

set_option autoImplicit false

/-! # Free spans that are on the lists

`x.Covers lists o ss` says that each free span of the row `ss`, laid out from `o` on, is on the list
of its class. Lists that hold the same blocks of the row cover it alike (`Covers.congr`). -/

open BoundaryTag.Span (total layout)

namespace BoundaryTag.FreeIndex

variable {x : FreeIndex} {lists lists' : Nat → List Nat} {o u c : Nat} {p : Bool} {s : Span}
  {ss ts : List Span} {b : Block}

/-- The free spans of a row are on the lists of their classes. -/
def Covers (x : FreeIndex) (lists : Nat → List Nat) : Nat → List Span → Prop
  | _, [] => True
  | o, s :: ss => (s.allocated = false → o ∈ lists (x.classify s.size)) ∧
      Covers x lists (o + s.size) ss

@[simp] theorem covers_nil : x.Covers lists o [] :=
  trivial

@[simp] theorem covers_cons : x.Covers lists o (s :: ss) ↔
    (s.allocated = false → o ∈ lists (x.classify s.size)) ∧ x.Covers lists (o + s.size) ss :=
  Iff.rfl

theorem covers_append : x.Covers lists o (ss ++ ts) ↔
    x.Covers lists o ss ∧ x.Covers lists (o + total ss) ts := by
  induction ss generalizing o with
  | nil => simp
  | cons s ss ih => simp [ih, and_assoc, Nat.add_assoc]

theorem Covers.mem (h : x.Covers lists o ss) (hb : b ∈ layout o p ss)
    (hfree : b.tag.allocated = false) : b.offset ∈ lists (x.classify b.tag.size) := by
  induction ss generalizing o p with
  | nil => simp at hb
  | cons s ss ih =>
    rw [Span.layout_cons, List.mem_cons] at hb
    rcases hb with rfl | hb
    · exact h.1 hfree
    · exact ih h.2 hb

theorem Covers.congr (h : x.Covers lists o ss)
    (hl : ∀ b ∈ layout o p ss, ∀ c < x.size, b.offset ∈ lists c → b.offset ∈ lists' c) :
    x.Covers lists' o ss := by
  induction ss generalizing o p with
  | nil => trivial
  | cons s ss ih =>
    rw [Span.layout_cons, List.forall_mem_cons] at hl
    refine ⟨fun hfree => ?_, ih h.2 hl.2⟩
    exact hl.1 _ (x.classify_lt_size _) (h.1 hfree)

theorem mem_pushed_self (lists : Nat → List Nat) (c u : Nat) : u ∈ pushed lists c u c := by
  simp [pushed]

end BoundaryTag.FreeIndex
