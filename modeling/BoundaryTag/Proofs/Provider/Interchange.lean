import BoundaryTag.Proofs.Provider.Runs
import BoundaryTag.Proofs.Provider.Stores

set_option autoImplicit false

/-! # Both kinds of storage are interchangeable

Storage of words and reserved space, of the same whole pages, answer the same to every sequence of
calls and look the same after it; heaps on them answer the same to every command and have the same
bytes. Both are told apart from a region by nothing, so they cannot be told apart. -/

namespace BoundaryTag.Provider

variable {grants : Nat → Bool} {capacity : Nat} {s : Reservation}

/-- Where whole pages are reserved and owned storage can grow as far, the two kinds of storage are
    interchangeable, with each other and with a region of that limit: after any calls they have given
    the same answers and look the same, each grows by whole requests of zero bytes up to the
    capacity, and any run of a heap on top of them has the same replies and the same bytes. -/
theorem interchangeable (hpage : capacity % Region.pageBytes = 0)
    (hs : Reservation.reserve grants capacity = .ok (.ok s))
    (hholds : Backing.owned.holds capacity = true) (calls : List Call) :
    (run (WordStore.empty capacity) calls).map (fun x => (x.1, sight x.2)) =
        (run s calls).map (fun x => (x.1, sight x.2)) ∧
      (run s calls).map (fun x => (x.1, sight x.2)) =
        (run (Region.empty capacity) calls).map (fun x => (x.1, sight x.2)) ∧
      (∀ answers t, run (WordStore.empty capacity) calls = .ok (answers, t) →
        Grows capacity t) ∧
      (∀ answers t, run s calls = .ok (answers, t) → Grows capacity t) ∧
      ∀ settings commands,
        (run (WordStore.empty capacity) calls >>= fun x => Heap.play x.2 settings commands) =
            (run s calls >>= fun x => Heap.play x.2 settings commands) ∧
          (run s calls >>= fun x => Heap.play x.2 settings commands) =
            (run (Region.empty capacity) calls >>= fun x => Heap.play x.2 settings commands) := by
  -- Both are compared to one region, so they need not be compared to each other.
  have hwords : (WordStore.empty capacity).Shows (Region.empty capacity) :=
    WordStore.shows_empty hholds
  have hspace : s.Shows (Region.empty capacity) := by
    rw [Reservation.reserve_eq hpage hs]
    exact Reservation.shows_new hholds
  refine ⟨?_, Reservation.refines.run_sight_eq hspace calls, fun answers t => ?_,
    fun answers t => ?_, fun settings commands => ⟨?_, ?_⟩⟩
  · rw [WordStore.refines.run_sight_eq hwords, Reservation.refines.run_sight_eq hspace]
  · exact WordStore.refines.grows_run hwords
  · exact Reservation.refines.grows_run hspace
  · rw [WordStore.refines.run_play_eq hwords, Reservation.refines.run_play_eq hspace]
  · exact Reservation.refines.run_play_eq hspace calls settings commands

/-- Calls that leave the break inside a word, one of which is refused, and then a heap that starts
    behind them: a payload is written and given back, and a request is refused. -/
theorem interchangeable_of_page : ∃ calls commands s answers t u,
    calls = [.extend 13, .write 5 [1, 2], .extend 4090, .extend 3] ∧
    commands = [.allocate 16, .write ⟨120, by decide⟩ 3 [7, 8], .free (some ⟨120, by decide⟩),
      .allocate 5000] ∧
    Reservation.reserve Region.hostGrants 4096 = .ok (.ok s) ∧
    run (WordStore.empty 4096) calls = .ok (answers, t) ∧ run s calls = .ok (answers, u) ∧
    answers matches [.ok (some 0), .ok none, .error (.outOfMemory 4090 13 4096), .ok (some 13)] ∧
    sight t = sight u ∧ bytes u = [0, 0, 0, 0, 0, 1, 2, 0, 0, 0, 0, 0, 0, 0, 0, 0] ∧
    Grows 4096 t ∧ Grows 4096 u ∧
    Heap.play t {} commands = Heap.play u {} commands ∧
    Heap.play u {} commands matches .ok (.ok (_, [.ok (.handle (.ok (some ⟨120, _⟩)), _),
      .ok (.written true, _), .ok (.freed, _), .ok (.handle (.error _), _)])) := by
  have hrun : (match run (WordStore.empty 4096)
      [.extend 13, .write 5 [1, 2], .extend 4090, .extend 3] with
    | .error _ => false
    | .ok (answers, t) =>
      answers matches [.ok (some 0), .ok none, .error (.outOfMemory 4090 13 4096), .ok (some 13)] &&
      bytes t == [0, 0, 0, 0, 0, 1, 2, 0, 0, 0, 0, 0, 0, 0, 0, 0] &&
      Heap.play t {} [.allocate 16, .write ⟨120, by decide⟩ 3 [7, 8],
          .free (some ⟨120, by decide⟩), .allocate 5000] matches
        .ok (.ok (_, [.ok (.handle (.ok (some ⟨120, _⟩)), _), .ok (.written true, _),
          .ok (.freed, _), .ok (.handle (.error _), _)]))) = true := by
    decide +kernel
  obtain ⟨s, hs⟩ : ∃ s, Reservation.reserve Region.hostGrants 4096 = .ok (.ok s) := ⟨_, rfl⟩
  obtain ⟨hsight, -, hgrows, hgrows', hplay⟩ := interchangeable rfl hs rfl
    [.extend 13, .write 5 [1, 2], .extend 4090, .extend 3]
  cases ht : run (WordStore.empty 4096) [.extend 13, .write 5 [1, 2], .extend 4090, .extend 3] with
  | error fault =>
    rw [ht] at hrun
    cases hrun
  | ok x =>
    obtain ⟨answers, t⟩ := x
    rw [ht] at hrun hsight
    obtain ⟨hsees, hreplies⟩ := Bool.and_eq_true_iff.mp hrun
    obtain ⟨hanswers, hbytes⟩ := Bool.and_eq_true_iff.mp hsees
    cases hu : run s [.extend 13, .write 5 [1, 2], .extend 4090, .extend 3] with
    | error fault =>
      rw [hu] at hsight
      cases hsight
    | ok y =>
      obtain ⟨answers', u⟩ := y
      rw [hu] at hsight
      obtain ⟨rfl, hsame⟩ := Prod.mk.inj (Except.ok.inj hsight)
      obtain ⟨hplays, -⟩ := hplay {} [.allocate 16, .write ⟨120, by decide⟩ 3 [7, 8],
        .free (some ⟨120, by decide⟩), .allocate 5000]
      rw [ht, hu, ok_bind, ok_bind] at hplays
      have hbytes' := (congrArg Sight.bytes hsame).symm.trans (eq_of_beq hbytes)
      rw [hplays] at hreplies
      exact ⟨_, _, s, answers, t, u, rfl, rfl, hs, ht, hu, hanswers, hsame, hbytes',
        hgrows _ _ ht, hgrows' _ _ hu, hplays, hreplies⟩

end BoundaryTag.Provider
