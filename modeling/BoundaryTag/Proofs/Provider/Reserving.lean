import Mathlib.Order.Bounds.Basic
import BoundaryTag.Provider.Stores

set_option autoImplicit false

/-! # Reserving address space

The host is asked for the least number of whole pages that holds the capacity
(`Region.isLeast_pages`), and space of that size is handed out with no byte in use; without a
capacity, or if that number is no word, the host is not asked (`Region.reserve_eq`). So it is for
every capacity but one (`Reservation.reserves`): the last multiple of a page that is a word passes
the check of the capacity, but rounding adds a page before it takes one byte off, and that sum is no
word any more (`Reservation.overflows_at_last_page`). -/

namespace BoundaryTag

namespace Region

variable {capacity : Nat}

/-- The sizes that hold so many bytes in whole pages. -/
def paged (capacity : Nat) : Set Nat :=
  {n | pageBytes ∣ n ∧ capacity ≤ n}

/-- The least of them, be it a word or not. -/
def pages (capacity : Nat) : Nat :=
  (capacity + 4095) / 4096 * 4096

theorem isLeast_pages (capacity : Nat) : IsLeast (paged capacity) (pages capacity) := by
  have hpage : pageBytes = 4096 := rfl
  simp only [paged, pages, hpage]
  constructor
  · exact ⟨by omega, by omega⟩
  · intro n hn
    obtain ⟨hdvd, hle⟩ := hn
    omega

/-- A capacity passes the check of its slack exactly if its pages are a word. -/
theorem pages_lt_limit_iff :
    pages capacity < Word.limit ↔ capacity + (pageBytes - 1) < Word.limit := by
  have hpage : pageBytes = 4096 := rfl
  have hlimit : Word.limit = 18446744073709551616 := rfl
  simp only [pages, hpage, hlimit]
  omega

/-- Rounding needs more room than the check leaves: by one byte, so for one capacity. -/
theorem alignTo_pages (hne : capacity ≠ Word.limit - pageBytes) (hlt : pages capacity < Word.limit) :
    Word.alignTo capacity pageBytes = .ok (pages capacity) := by
  have hpage : pageBytes = 4096 := rfl
  have hslack := pages_lt_limit_iff.mp hlt
  exact (Word.alignTo_eq_ok_iff (k := 12) rfl).mpr ⟨by omega, rfl⟩

/-- What a reservation answers, by what the host says to the size that it is asked for. -/
theorem reserve_eq {grants : Nat → Bool} (hne : capacity ≠ Word.limit - pageBytes) :
    reserve grants capacity =
      .ok (if capacity = 0 ∨ Word.limit ≤ pages capacity then
          .error (.invalidSettings (.badCapacity capacity))
        else if grants (pages capacity) then
          .ok ⟨.reserved, pages capacity, .zeroed 0⟩
        else
          .error (.notReserved (pages capacity))) := by
  have hcheck : (0 < capacity ∧ capacity + (pageBytes - 1) < Word.limit) ↔
      ¬ (capacity = 0 ∨ Word.limit ≤ pages capacity) := by
    rw [← pages_lt_limit_iff]
    omega
  by_cases hbad : capacity = 0 ∨ Word.limit ≤ pages capacity
  · rw [reserve, if_neg (by rwa [hcheck, not_not]), if_pos hbad]
    rfl
  · have hround := alignTo_pages hne (by omega)
    rw [reserve, if_pos (hcheck.mpr hbad), if_neg hbad, hround, ok_bind]
    split <;> rfl

end Region

namespace Reservation

variable {α : Type} {capacity size : Nat}

/-- How space for `capacity` bytes is asked for, as `size` bytes, and what comes of the answer. -/
structure Asks (reserve : (Nat → Bool) → Except Fault (Except Refusal α)) (capacity size : Nat)
    (fresh : α) : Prop where
  /-- The host is not asked for no bytes, nor for more than a word can say. -/
  invalid : capacity = 0 ∨ Word.limit ≤ size → ∀ grants,
    reserve grants = .ok (.error (.invalidSettings (.badCapacity capacity)))
  refused : capacity ≠ 0 → size < Word.limit → ∀ grants, grants size = false →
    reserve grants = .ok (.error (.notReserved size))
  granted : capacity ≠ 0 → size < Word.limit → ∀ grants, grants size = true →
    reserve grants = .ok (.ok fresh)

theorem asks_region (hne : capacity ≠ Word.limit - Region.pageBytes) :
    Asks (Region.reserve · capacity) capacity (Region.pages capacity)
      ⟨.reserved, Region.pages capacity, .zeroed 0⟩ where
  invalid hbad grants := by
    show Region.reserve grants capacity = _
    rw [Region.reserve_eq hne, if_pos hbad]
  refused h0 hlt grants hgrants := by
    show Region.reserve grants capacity = _
    rw [Region.reserve_eq hne, if_neg (by omega), if_neg (by simp [hgrants])]
  granted h0 hlt grants hgrants := by
    show Region.reserve grants capacity = _
    rw [Region.reserve_eq hne, if_neg (by omega), if_pos hgrants]

theorem Asks.reservation {fresh : Region} (h : Asks (Region.reserve · capacity) capacity size fresh) :
    Asks (reserve · capacity) capacity size ⟨.zeroed fresh.limit, 0⟩ where
  invalid hbad grants := by
    show reserve grants capacity = _
    rw [reserve, h.invalid hbad grants, ok_bind]
    rfl
  refused h0 hlt grants hgrants := by
    show reserve grants capacity = _
    rw [reserve, h.refused h0 hlt grants hgrants, ok_bind]
    rfl
  granted h0 hlt grants hgrants := by
    show reserve grants capacity = _
    rw [reserve, h.granted h0 hlt grants hgrants, ok_bind]
    rfl

/-- For every capacity but one, space is reserved without a fault: the host is asked for the least
    size in whole pages that holds the capacity, if that is a word and not zero, and what it grants
    is handed out as it is, with no byte in use. -/
theorem reserves (hne : capacity ≠ Word.limit - Region.pageBytes) :
    ∃ size, IsLeast (Region.paged capacity) size ∧
      Asks (Region.reserve · capacity) capacity size ⟨.reserved, size, .zeroed 0⟩ ∧
      Asks (reserve · capacity) capacity size ⟨.zeroed size, 0⟩ :=
  ⟨_, Region.isLeast_pages capacity, asks_region hne, (asks_region hne).reservation⟩

/-- A capacity that is rounded up, the largest one that is asked for, and the least one that is
    not. -/
theorem reserves_of_bounds :
    Region.reserve Region.hostGrants 5000 = .ok (.ok ⟨.reserved, 8192, .zeroed 0⟩) ∧
    reserve Region.hostGrants 5000 = .ok (.ok ⟨.zeroed 8192, 0⟩) ∧
    reserve Region.hostGrants (Word.limit - 4097) =
      .ok (.error (.notReserved (Word.limit - 4096))) ∧
    reserve Region.hostGrants (Word.limit - 4095) =
      .ok (.error (.invalidSettings (.badCapacity (Word.limit - 4095)))) := by
  obtain ⟨n, hn, hregion, hspace⟩ := reserves (by decide : 5000 ≠ Word.limit - Region.pageBytes)
  obtain ⟨n', hn', -, hlast⟩ :=
    reserves (by decide : Word.limit - 4097 ≠ Word.limit - Region.pageBytes)
  obtain ⟨n'', hn'', -, hnone⟩ :=
    reserves (by decide : Word.limit - 4095 ≠ Word.limit - Region.pageBytes)
  obtain rfl : n = 8192 := hn.unique (Region.isLeast_pages _)
  obtain rfl : n' = Word.limit - 4096 := hn'.unique (Region.isLeast_pages _)
  obtain rfl : n'' = Word.limit := hn''.unique (Region.isLeast_pages _)
  refine ⟨hregion.granted (by decide) (by decide) _ (by decide),
    hspace.granted (by decide) (by decide) _ (by decide),
    hlast.refused (by decide) (by decide) _ (by decide), hnone.invalid (.inr (by decide)) _⟩

/-- The last whole number of pages that is a word could be asked for as it is, but reserving it
    faults, whatever the host grants. -/
theorem overflows_at_last_page :
    IsLeast (Region.paged (Word.limit - 4096)) (Word.limit - 4096) ∧
    Word.limit - 4096 < Word.limit ∧
    ∀ grants, Region.reserve grants (Word.limit - 4096) = .error .overflow ∧
      reserve grants (Word.limit - 4096) = .error .overflow :=
  ⟨Region.isLeast_pages _, by decide, fun _ => ⟨rfl, rfl⟩⟩

end Reservation

end BoundaryTag
