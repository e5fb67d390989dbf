import Mathlib.Data.List.Chain
import BoundaryTag.Proofs.Span

set_option autoImplicit false

/-! # Rows of blocks

Blocks that lie side by side, each with a true flag for the block before it (`Block.Row`), are what
a row of spans looks like when it is laid out: the blocks of a layout and its epilogue are a row
(`Span.row_tags`), and a row that ends in an epilogue is the layout of the spans of its blocks
(`Block.Row.tags_eq`). -/

open BoundaryTag.Span (layout tags Coalesced)

namespace BoundaryTag

variable {bs : List Block} {last : Tag} {o e : Nat} {prev : Bool} {ss : List Span}

/-- The blocks lie side by side from `o` on, and each tells whether the block before it is
    allocated; `prev` tells it for what comes before the first one. -/
def Block.Row : Nat → Bool → List Block → Prop
  | _, _, [] => True
  | o, prev, b :: bs =>
    b.offset = o ∧ b.tag.prevAllocated = prev ∧ Row (o + b.tag.size) b.tag.allocated bs

/-- The block without its place. -/
def Block.span (b : Block) : Span :=
  ⟨b.tag.size, b.tag.allocated⟩

namespace Span

theorem row_tags : Block.Row o prev (tags o prev ss) := by
  induction ss generalizing o prev with
  | nil => simp [Block.Row, Span.epilogue]
  | cons s ss ih =>
    rw [tags_cons]
    exact ⟨rfl, rfl, ih⟩

theorem isChain_layout (h : Coalesced prev ss) :
    (layout o prev ss).IsChain fun a b => a.tag.allocated = true ∨ b.tag.allocated = true := by
  induction ss generalizing o prev with
  | nil => exact List.isChain_nil
  | cons s ss ih =>
    cases ss with
    | nil => exact List.isChain_singleton _
    | cons t ss =>
      rw [layout_cons, layout_cons, List.isChain_cons_cons]
      exact ⟨h.2.1, ih h.2⟩

end Span

namespace Block

theorem Row.tags_eq (h : Row o prev (bs ++ [⟨e, last⟩])) (hlast : last.size = 8)
    (hall : last.allocated = true) : tags o prev (bs.map span) = bs ++ [⟨e, last⟩] := by
  induction bs generalizing o prev with
  | nil =>
    obtain ⟨rfl, rfl, -⟩ := h
    rw [List.map_nil, Span.tags_nil, Span.epilogue, ← hlast, ← hall]
    rfl
  | cons b bs ih =>
    obtain ⟨rfl, rfl, hrest⟩ := h
    rw [List.map_cons, Span.tags_cons, List.cons_append, span, ih hrest]

theorem Row.layout_eq (h : Row o prev (bs ++ [⟨e, last⟩])) (hlast : last.size = 8)
    (hall : last.allocated = true) : layout o prev (bs.map span) = bs :=
  (List.append_inj' (h.tags_eq hlast hall) rfl).1

/-- No two free blocks touch, so no two free spans do. -/
theorem coalesced_span
    (h : bs.IsChain fun a b => a.tag.allocated = true ∨ b.tag.allocated = true)
    (hfirst : prev = true ∨ ∀ b ∈ bs.head?, b.tag.allocated = true) :
    Coalesced prev (bs.map span) := by
  induction bs generalizing prev with
  | nil => trivial
  | cons b bs ih =>
    rw [List.isChain_cons] at h
    rw [List.head?_cons] at hfirst
    refine ⟨hfirst.imp_right fun hb => hb b rfl, ih h.2 ?_⟩
    cases hb : b.tag.allocated with
    | true => exact .inl hb
    | false => exact .inr fun b' hb' => (h.1 b' hb').resolve_left (by simp [hb])

end Block

end BoundaryTag
