import SsdScheduler.Elevator.Placement

/-!
# The moves of the elevator core

One lemma for each way in which `elevator.c` and the block layer around it change the place or the fields of a
request, up to the merge of two requests and the loops over them.
-/

namespace SsdScheduler.Elevator

open Framework RequestQueue

variable {σ α π Bio : Type} {e : ElevatorType σ α π} {k : BlkOps Bio} {s s' : Stack σ} {q q' : RequestQueue}
  {rq next x : Rq} {merging : Bool} {w : World σ}

namespace RequestQueue

theorem forget_rqs : (q.forget rq).rqs = Function.update q.rqs rq { q.rqs rq with hashed := false } := elvRqhashDel_rqs

theorem HashOk.forget (h : HashOk k q) (rq : Rq) : HashOk k (q.forget rq) := by
  have hq : HashOk k { q with lastMerge := if q.lastMerge = some rq then none else q.lastMerge } := ⟨h.nodup, h.mem⟩
  exact ⟨(hq.del rq).nodup, (hq.del rq).mem⟩

theorem forget_queueHead : (q.forget rq).queueHead = q.queueHead := (sameLists_elvRqhashDel _ rq).queueHead

theorem forget_endSector : (q.forget rq).endSector = q.endSector := (sameLists_elvRqhashDel _ rq).endSector

theorem forget_inFlight : (q.forget rq).inFlight = q.inFlight := (sameLists_elvRqhashDel _ rq).inFlight

theorem forget_noxmerges : (q.forget rq).noxmerges = q.noxmerges := (sameLists_elvRqhashDel _ rq).noxmerges

theorem forget_nrSorted : (q.forget rq).nrSorted = q.nrSorted - 1 :=
  congrArg (· - 1) (sameLists_elvRqhashDel _ rq).nrSorted

theorem forget_lastMerge : (q.forget rq).lastMerge = if q.lastMerge = some rq then none else q.lastMerge :=
  (sameLists_elvRqhashDel _ rq).lastMerge

/-- The request that is forgotten is not the last merged one any more. -/
theorem ne_of_forget (h : (q.forget rq).lastMerge = some x) : x ≠ rq ∧ q.lastMerge = some x := by
  rw [forget_lastMerge] at h
  split at h
  case isTrue => cases h
  case isFalse hne =>
    refine ⟨?_, h⟩
    rintro rfl
    exact hne h

theorem countInFlight_inFlight (n : Int) (i : Bool) :
    (q.countInFlight k rq n).inFlight i = q.inFlight i + if flies k i (q.rqs rq) = true then n else 0 := by
  unfold countInFlight
  split
  case isTrue ha =>
    show Function.update q.inFlight _ _ i = _
    rcases eq_or_ne i (q.rqs rq).isSync with rfl | hi
    · simp [flies, ha]
    · simp [flies, ha, hi, hi.symm]
  case isFalse ha => simp [flies, ha]

/-- The counts are all that changes. -/
theorem countInFlight_eq (n : Int) :
    q.countInFlight k rq n = { q with inFlight := (q.countInFlight k rq n).inFlight } := by
  unfold countInFlight
  split <;> rfl

theorem countInFlight_rqs (n : Int) : (q.countInFlight k rq n).rqs = q.rqs := by rw [countInFlight_eq]
theorem countInFlight_queueHead (n : Int) : (q.countInFlight k rq n).queueHead = q.queueHead := by rw [countInFlight_eq]
theorem countInFlight_lastMerge (k : BlkOps Bio) (rq : Rq) (n : Int) : (q.countInFlight k rq n).lastMerge = q.lastMerge := by
  rw [countInFlight_eq]
theorem countInFlight_nrSorted (n : Int) : (q.countInFlight k rq n).nrSorted = q.nrSorted := by rw [countInFlight_eq]
theorem countInFlight_hash (n : Int) : (q.countInFlight k rq n).hash = q.hash := by rw [countInFlight_eq]

theorem HashOk.countInFlight (h : HashOk k q) (rq : Rq) (n : Int) : HashOk k (q.countInFlight k rq n) where
  nodup := by
    rw [countInFlight_hash]
    exact h.nodup
  mem := by
    rw [countInFlight_hash, countInFlight_rqs]
    exact h.mem

end RequestQueue

/-- `elv_dispatch_sort`. -/
theorem Placed.dispatched (h : Placed k s) (hp : s.place rq = .waiting)
    (hw : w.phase = Function.update s.world.phase rq .dispatched) :
    Placed k { s.put rq .queued with world := w, queue := s.queue.elvDispatchSort rq, waiting := s.waiting.erase rq } where
  toArranged := by
    obtain ⟨hsorted, hstarted, hsoft⟩ := (h.located rq).flags.waiting hp
    apply h.moved rq .queued { s.queue.rqs rq with hashed := false }
    · constructor
      case place => rfl
      case rqs => exact forget_rqs
      case phase => simp [hw, Place.phase, hsorted]
      case waiting => exact relisted_erase _ _ (by simp)
      case queued =>
        apply relisted_new rfl (h.notMem_queued (by simp [hp]))
        show (tailInsert _ rq (s.queue.forget rq).queueHead).Perm _
        rw [forget_queueHead]
        exact tailInsert_perm ..
      case driving => exact relisted_same (by simp [(h.located rq).driving, hp])
      case last =>
        intro x hl
        obtain ⟨hx, hl⟩ := ne_of_forget (q := s.queue) hl
        simpa [hx] using hl
      case nrSorted =>
        show (s.queue.forget rq).nrSorted = _
        rw [forget_nrSorted]
        simp [hp]
      case inFlight =>
        intro i
        show (s.queue.forget rq).inFlight i = _
        rw [forget_inFlight]
        simp [hp]
    · exact .idle (by simp) rfl (h.located rq).flags.sorted
    · simp
  hash := ⟨(h.hash.forget rq).nodup, (h.hash.forget rq).mem⟩

/-- A request is got. -/
theorem Placed.got {r : Request} (h : Placed k s) (hp : s.place rq = .free) (hr : r.Fresh)
    (hw : w.phase = Function.update s.world.phase rq (Place.phase r .held)) :
    Placed k { s.put rq .held with world := w, queue := s.queue.modify rq fun _ => r } where
  toArranged := by
    apply h.moved rq .held r
    · constructor
      case place => rfl
      case rqs => rfl
      case phase => exact hw
      case waiting => exact relisted_same (by simp [(h.located rq).waiting, hp])
      case queued => exact relisted_same (by simp [(h.located rq).queued, hp])
      case driving => exact relisted_same (by simp [(h.located rq).driving, hp])
      case last => exact fun x => h.keeps_last (by simp [hp])
      case nrSorted => simp [hp]
      case inFlight => simp [hp]
    · constructor <;> simp [hr, hr.hashed, hr.sorted]
    · simp
  hash := h.hash.modify_of_not_hashed (f := fun _ => r) (h.hashed_eq_false rq (by simp [hp])) hr.hashed

/-- A request that does not wait is put. -/
theorem Placed.freed (h : Placed k s) (hp : s.place rq = .held ∨ s.place rq = .ended)
    (hw : w.phase = Function.update s.world.phase rq .idle) : Placed k { s.put rq .free with world := w } where
  toArranged := by
    have hne : s.place rq ≠ .waiting ∧ s.place rq ≠ .queued ∧ s.place rq ≠ .driving := by
      rcases hp with hp | hp <;> simp [hp]
    apply h.moved rq .free (s.queue.rqs rq)
    · constructor
      case place => rfl
      case rqs => simp [Stack.put]
      case phase => exact hw
      case waiting => exact relisted_same (by simp [(h.located rq).waiting, hne])
      case queued => exact relisted_same (by simp [(h.located rq).queued, hne])
      case driving => exact relisted_same (by simp [(h.located rq).driving, hne])
      case last => exact fun x => h.keeps_last hne.1
      case nrSorted => simp [hne, Stack.put]
      case inFlight => simp [hne, Stack.put]
    · exact .idle (by simp) (h.hashed_eq_false rq hne.1) (h.located rq).flags.sorted
    · simp
  hash := h.hash

section Dispatch

/-- What `__elv_add_request` notes first is nothing the invariant sees. -/
theorem Placed.noteBarrier (h : Placed k s) (rq : Rq) : Placed k { s with queue := s.queue.noteBarrier rq } := by
  unfold RequestQueue.noteBarrier
  split
  · exact
      { located := fun x => (h.located x).frame ⟨rfl, rfl, rfl, Iff.rfl, Iff.rfl, Iff.rfl, id⟩
        nodupWaiting := h.nodupWaiting, nodupQueued := h.nodupQueued, nodupDriving := h.nodupDriving
        nrSorted := h.nrSorted, inFlight := h.inFlight, hash := ⟨h.hash.nodup, h.hash.mem⟩ }
  · exact h

/-- `ELEVATOR_INSERT_FRONT`. -/
theorem Placed.front (h : Placed k s) (hp : s.place rq = .held) :
    Placed k { s.put rq .queued with queue := s.queue.atFront rq } where
  toArranged := by
    have hfresh := (h.located rq).flags.held hp
    apply h.moved rq .queued { s.queue.rqs rq with softbarrier := true }
    · constructor
      case place => rfl
      case rqs => rfl
      case phase =>
        have hph := (h.located rq).phase
        simp only [hp, Place.phase] at hph
        simp [Stack.put, Place.phase, hfresh.sorted, ← hph]
      case waiting => exact relisted_same (by simp [(h.located rq).waiting, hp])
      case queued => exact relisted_new rfl (h.notMem_queued (by simp [hp])) (.refl _)
      case driving => exact relisted_same (by simp [(h.located rq).driving, hp])
      case last => exact fun x => h.keeps_last (by simp [hp])
      case nrSorted => simp [hp, atFront]
      case inFlight => simp [hp, atFront]
    · exact .idle (by simp) hfresh.hashed (h.located rq).flags.sorted
    · simp
  hash := by
    have hok := h.hash.modify_of_not_hashed (f := fun r => { r with softbarrier := true })
      (h.hashed_eq_false rq (by simp [hp])) ((h.located rq).flags.held hp).hashed
    exact ⟨hok.nodup, hok.mem⟩

/-- The first half of `ELEVATOR_INSERT_BACK`. -/
theorem Placed.arrive (h : Placed k s) (hp : s.place rq = .held) :
    Placed k { s.put rq .arriving with queue := s.queue.modify rq fun r => { r with softbarrier := true } } where
  toArranged := by
    have hfresh := (h.located rq).flags.held hp
    apply h.moved rq .arriving { s.queue.rqs rq with softbarrier := true }
    · constructor
      case place => rfl
      case rqs => rfl
      case phase =>
        have hph := (h.located rq).phase
        simp only [hp, Place.phase] at hph
        simp [Stack.put, Place.phase, ← hph]
      case waiting => exact relisted_same (by simp [(h.located rq).waiting, hp])
      case queued => exact relisted_same (by simp [(h.located rq).queued, hp])
      case driving => exact relisted_same (by simp [(h.located rq).driving, hp])
      case last => exact fun x => h.keeps_last (by simp [hp])
      case nrSorted => simp [hp]
      case inFlight => simp [hp]
    · constructor <;> simp [hfresh.sorted, hfresh.hashed]
    · simp
  hash := h.hash.modify_of_not_hashed (f := fun r => { r with softbarrier := true })
    (h.hashed_eq_false rq (by simp [hp])) ((h.located rq).flags.held hp).hashed

/-- The second half of `ELEVATOR_INSERT_BACK`. -/
theorem Placed.back (h : Placed k s) (hp : s.place rq = .arriving) :
    Placed k { s.put rq .queued with queue := s.queue.atBack rq } where
  toArranged := by
    have hsorted := ((h.located rq).flags.arriving hp).1
    apply h.moved rq .queued (s.queue.rqs rq)
    · constructor
      case place => rfl
      case rqs => simp [atBack]
      case phase =>
        have hph := (h.located rq).phase
        simp only [hp, Place.phase] at hph
        simp [Stack.put, Place.phase, hsorted, ← hph]
      case waiting => exact relisted_same (by simp [(h.located rq).waiting, hp])
      case queued =>
        exact relisted_new rfl (h.notMem_queued (by simp [hp])) (List.perm_append_singleton ..)
      case driving => exact relisted_same (by simp [(h.located rq).driving, hp])
      case last => exact fun x => h.keeps_last (by simp [hp])
      case nrSorted => simp [hp, atBack]
      case inFlight => simp [hp, atBack]
    · exact .idle (by simp) (h.hashed_eq_false rq (by simp [hp])) (h.located rq).flags.sorted
    · simp
  hash := ⟨h.hash.nodup, h.hash.mem⟩

/-- The driver has looked at a request of the dispatch list. -/
theorem Placed.peeked (h : Placed k s) (hp : s.place rq = .queued) :
    Placed k { s with queue := s.queue.modify rq fun r => { r with started := true } } where
  toArranged := by
    apply h.moved rq .queued { s.queue.rqs rq with started := true }
    · constructor
      case place => simp [← hp]
      case rqs => rfl
      case phase =>
        have hph := (h.located rq).phase
        simp only [hp, Place.phase] at hph
        simp [Place.phase, ← hph]
      case waiting => exact relisted_same (by simp [(h.located rq).waiting, hp])
      case queued => exact relisted_same (by simp [(h.located rq).queued, hp])
      case driving => exact relisted_same (by simp [(h.located rq).driving, hp])
      case last => exact fun x => h.keeps_last (by simp [hp])
      case nrSorted => simp [hp]
      case inFlight => simp [hp]
    · exact .idle (by simp) (h.hashed_eq_false rq (by simp [hp])) (h.located rq).flags.sorted
    · simp
  hash := h.hash.modify rq (fun r => { r with started := true }) rfl rfl

/-- The driver takes the first request. -/
theorem Placed.dequeued {rest : List Rq} (h : Placed k s) (hq : s.queue.queueHead = rq :: rest)
    (hs : (s.queue.rqs rq).started = true) :
    Placed k { s.put rq .driving with
      queue := { s.queue.countInFlight k rq 1 with queueHead := rest }, driving := s.driving ++ [rq] } where
  toArranged := by
    have hp : s.place rq = .queued := (h.located rq).queued.mp (by simp [hq])
    apply h.moved rq .driving (s.queue.rqs rq)
    · constructor
      case place => rfl
      case rqs => simp [countInFlight_rqs]
      case phase =>
        have hph := (h.located rq).phase
        simp only [hp, Place.phase] at hph
        simp [Stack.put, Place.phase, ← hph]
      case waiting => exact relisted_same (by simp [(h.located rq).waiting, hp])
      case queued =>
        have := relisted_erase (b := Place.driving = Place.queued) rq s.queue.queueHead (by simp)
        simpa [hq] using this
      case driving =>
        exact relisted_new rfl (h.notMem_driving (by simp [hp])) (List.perm_append_singleton ..)
      case last =>
        intro x hl
        exact h.keeps_last (by simp [hp]) (countInFlight_lastMerge k rq 1 ▸ hl)
      case nrSorted => simp [hp, countInFlight_nrSorted]
      case inFlight =>
        intro i
        rw [countInFlight_inFlight]
        simp [hp]
    · have hh := h.hashed_eq_false rq (by simp [hp])
      exact ⟨by simp, by simp, by simp, fun _ => hs, by simp [hh], (h.located rq).flags.sorted⟩
    · simp
  hash := ⟨(h.hash.countInFlight rq 1).nodup, (h.hash.countInFlight rq 1).mem⟩

/-- The driver returns a request. -/
theorem Placed.requeued (h : Placed k s) (hp : s.place rq = .driving) :
    Placed k { s.put rq .queued with
      queue := { s.queue.countInFlight k rq (-1) with
        rqs := Function.update s.queue.rqs rq { s.queue.rqs rq with started := false, softbarrier := true }
        queueHead := rq :: s.queue.queueHead }
      driving := s.driving.erase rq } where
  toArranged := by
    apply h.moved rq .queued { s.queue.rqs rq with started := false, softbarrier := true }
    · constructor
      case place => rfl
      case rqs => rfl
      case phase =>
        have hph := (h.located rq).phase
        simp only [hp, Place.phase] at hph
        simp [Stack.put, Place.phase, ← hph]
      case waiting => exact relisted_same (by simp [(h.located rq).waiting, hp])
      case queued => exact relisted_new rfl (h.notMem_queued (by simp [hp])) (.refl _)
      case driving => exact relisted_erase _ _ (by simp)
      case last =>
        intro x hl
        exact h.keeps_last (by simp [hp]) (countInFlight_lastMerge k rq (-1) ▸ hl)
      case nrSorted => simp [hp, countInFlight_nrSorted]
      case inFlight =>
        intro i
        rw [countInFlight_inFlight]
        by_cases hc : flies k i (s.queue.rqs rq) = true <;> simp [hp, hc, Int.sub_eq_add_neg]
    · exact .idle (by simp) (h.hashed_eq_false rq (by simp [hp])) (h.located rq).flags.sorted
    · simp
  hash := by
    have hh := h.hashed_eq_false rq (by simp [hp])
    have hok := h.hash.modify_of_not_hashed (f := fun r => { r with started := false, softbarrier := true }) hh hh
    exact ⟨by rw [countInFlight_hash]; exact hok.nodup, by rw [countInFlight_hash]; exact hok.mem⟩

/-- The driver has completed a request. -/
theorem Placed.completed (h : Placed k s) (hp : s.place rq = .driving)
    (hw : w.phase = Function.update s.world.phase rq (Place.phase (s.queue.rqs rq) .ended)) :
    Placed k { s.put rq .ended with
      world := w, queue := s.queue.countInFlight k rq (-1), driving := s.driving.erase rq } where
  toArranged := by
    apply h.moved rq .ended (s.queue.rqs rq)
    · constructor
      case place => rfl
      case rqs => simp [countInFlight_rqs]
      case phase => exact hw
      case waiting => exact relisted_same (by simp [(h.located rq).waiting, hp])
      case queued =>
        rw [countInFlight_queueHead]
        exact relisted_same (by simp [(h.located rq).queued, hp])
      case driving => exact relisted_erase _ _ (by simp)
      case last =>
        intro x hl
        exact h.keeps_last (by simp [hp]) (countInFlight_lastMerge k rq (-1) ▸ hl)
      case nrSorted => simp [hp, countInFlight_nrSorted]
      case inFlight =>
        intro i
        rw [countInFlight_inFlight]
        by_cases hc : flies k i (s.queue.rqs rq) = true <;> simp [hp, hc, Int.sub_eq_add_neg]
    · exact .idle (by simp) (h.hashed_eq_false rq (by simp [hp])) (h.located rq).flags.sorted
    · simp
  hash := h.hash.countInFlight rq (-1)

end Dispatch

end SsdScheduler.Elevator
