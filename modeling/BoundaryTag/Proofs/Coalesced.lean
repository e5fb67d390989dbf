import BoundaryTag.Proofs.Heap.Plan

set_option autoImplicit false

/-! # Coalesced rows

In a row without adjacent free spans the free spans are the gaps between the allocated ones, so the
row is determined by where its allocated spans lie and how long it is (`Span.eq_of_places_eq`). A
row without allocated spans is one free span or nothing (`Span.eq_of_places_eq_nil`). -/

namespace BoundaryTag.Span

variable {o u k : Nat} {prev : Bool} {s t : Span} {ss ts : List Span} {a : Bool}

theorem places_cons_self (hs : s.allocated = a) :
    places a o (s :: ss) = (o, s.size) :: places a (o + s.size) ss := by
  rw [places, if_pos hs]

theorem places_cons_of_ne (hs : s.allocated ≠ a) :
    places a o (s :: ss) = places a (o + s.size) ss := by
  rw [places, if_neg hs]

theorem le_of_mem_places (hu : (u, k) ∈ places a o ss) : o ≤ u := by
  obtain ⟨b, hb, -, rfl, -⟩ := (mem_places_iff (p := true)).mp hu
  exact (le_of_mem_layout hb).1

/-- After a free span the row ends or goes on with an allocated one. -/
theorem Coalesced.next_allocated (h : Coalesced prev (s :: ss)) (hs : s.allocated = false) :
    nextAllocated ss = true := by
  have hnext := (coalesced_iff.mp h.2).1
  rw [hs] at hnext
  exact hnext.resolve_left Bool.false_ne_true

/-- Two rows that are the same up to the end of a first free span have it of one size, if what comes
    after it is allocated or the end. -/
theorem size_eq_of_next (hss : nextAllocated ss = true) (hts : nextAllocated ts = true)
    (htotal : total (s :: ss) = total (t :: ts))
    (hplaces : places true (o + s.size) ss = places true (o + t.size) ts) : s.size = t.size := by
  cases ss with
  | nil =>
    cases ts with
    | nil => simpa using htotal
    | cons t' ts =>
      rw [places_nil, places_cons_self hts] at hplaces
      cases hplaces
  | cons s' ss =>
    cases ts with
    | nil =>
      rw [places_nil, places_cons_self hss] at hplaces
      cases hplaces
    | cons t' ts =>
      rw [places_cons_self hss, places_cons_self hts] at hplaces
      have hhead := congrArg Prod.fst (List.cons.inj hplaces).1
      exact Nat.add_left_cancel hhead

/-- Rows with the same allocated spans start alike. -/
theorem head_eq_of_places_eq (hs : s.Proper) (ht : t.Proper) (hcs : Coalesced prev (s :: ss))
    (hct : Coalesced prev (t :: ts)) (htotal : total (s :: ss) = total (t :: ts))
    (hplaces : places true o (s :: ss) = places true o (t :: ts)) : s = t := by
  have hs32 := hs.1
  have ht32 := ht.1
  obtain ⟨m, a⟩ := s
  obtain ⟨n, b⟩ := t
  cases a with
  | true =>
    cases b with
    | true =>
      rw [places_cons_self (s := ⟨m, true⟩) rfl, places_cons_self (s := ⟨n, true⟩) rfl] at hplaces
      cases congrArg Prod.snd (List.cons.inj hplaces).1
      rfl
    | false =>
      -- the first allocated span of one row would lie behind the start of the other
      rw [places_cons_self (s := ⟨m, true⟩) rfl, places_cons_of_ne Bool.false_ne_true] at hplaces
      have hle := le_of_mem_places (hplaces ▸ List.mem_cons_self)
      dsimp only at ht32 hle
      omega
  | false =>
    cases b with
    | true =>
      rw [places_cons_of_ne Bool.false_ne_true, places_cons_self (s := ⟨n, true⟩) rfl] at hplaces
      have hle := le_of_mem_places (hplaces.symm ▸ List.mem_cons_self)
      dsimp only at hs32 hle
      omega
    | false =>
      rw [places_cons_of_ne Bool.false_ne_true, places_cons_of_ne Bool.false_ne_true] at hplaces
      cases size_eq_of_next (hcs.next_allocated rfl) (hct.next_allocated rfl) htotal hplaces
      rfl

/-- The free spans of a coalesced row are what is left between the allocated ones. -/
theorem eq_of_places_eq (hss : ∀ s ∈ ss, s.Proper) (hts : ∀ t ∈ ts, t.Proper)
    (hcs : Coalesced prev ss) (hct : Coalesced prev ts) (htotal : total ss = total ts)
    (hplaces : places true o ss = places true o ts) : ss = ts := by
  induction ss generalizing o prev ts with
  | nil =>
    cases ts with
    | nil => rfl
    | cons t ts =>
      have ht := (hts t List.mem_cons_self).1
      rw [total_nil, total_cons] at htotal
      omega
  | cons s ss ih =>
    cases ts with
    | nil =>
      have hs := (hss s List.mem_cons_self).1
      rw [total_nil, total_cons] at htotal
      omega
    | cons t ts =>
      rw [List.forall_mem_cons] at hss hts
      obtain rfl := head_eq_of_places_eq hss.1 hts.1 hcs hct htotal hplaces
      have hrest : places true (o + s.size) ss = places true (o + s.size) ts := by
        by_cases hall : s.allocated = true
        · rw [places_cons_self hall, places_cons_self hall] at hplaces
          exact (List.cons.inj hplaces).2
        · rwa [places_cons_of_ne hall, places_cons_of_ne hall] at hplaces
      rw [ih hss.2 hts.2 hcs.2 hct.2 (Nat.add_left_cancel htotal) hrest]

/-- Nothing is allocated in a row: it is one free span, or empty. -/
theorem eq_of_places_eq_nil (hss : ∀ s ∈ ss, s.Proper) (hcs : Coalesced true ss)
    (hplaces : places true o ss = []) :
    ss = if total ss = 0 then [] else [⟨total ss, false⟩] := by
  obtain ⟨right, after, rfl, hnext⟩ := hcs.exists_freeSpan_first
  have hafter : after = [] := by
    cases after with
    | nil => rfl
    | cons s after =>
      rw [places_append, places_cons_self hnext] at hplaces
      simp at hplaces
  subst hafter
  cases right with
  | none => rfl
  | some n =>
    have hn := (hss ⟨n, false⟩ (by simp)).1
    dsimp only at hn
    simp only [freeSpan_some, List.append_nil, total_cons, total_nil, Nat.add_zero]
    rw [if_neg (by omega)]

end BoundaryTag.Span
