import SsdScheduler.Elevator.Draining

/-!
# Barriers

Whatever happens while a soft barrier is in the dispatch list, the requests before it leave it from the front, and
only requests that are barriers themselves, inserted or returned at the front, get before it.
-/

namespace SsdScheduler.Elevator

open Framework RequestQueue Relation

variable {σ α π Bio : Type} {e : ElevatorType σ α π} {k : BlkOps Bio} {s s₁ s' u : Stack σ} {l l' : List Rq} {rq x : Rq}
  {merging nomerges noxmerges : Bool} {fuel : Nat}

/-- The requests before `rq`. -/
def ahead (rq : Rq) (l : List Rq) : List Rq := l.takeWhile (fun x => x ≠ rq)

theorem ahead_cons_of_ne (hx : x ≠ rq) : ahead rq (x :: l) = x :: ahead rq l := by
  simp [ahead, hx]

theorem ahead_append (h : rq ∈ l) : ahead rq (l ++ l') = ahead rq l := by
  induction l with
  | nil => cases h
  | cons y l ih =>
    by_cases hy : y = rq
    · simp [ahead, hy]
    · have hrest : rq ∈ l := (List.mem_cons.mp h).resolve_left (Ne.symm hy)
      rw [List.cons_append, ahead_cons_of_ne hy, ahead_cons_of_ne hy, ih hrest]

theorem ahead_concat (h : rq ∉ l) : ahead rq (l ++ [rq]) = l := by
  induction l with
  | nil => simp [ahead]
  | cons y l ih =>
    have hy : y ≠ rq := by
      rintro rfl
      simp at h
    rw [List.cons_append, ahead_cons_of_ne hy, ih fun hm => h (List.mem_cons_of_mem y hm)]

theorem mem_of_ahead (h : x ∈ ahead rq l) : x ∈ l := (List.takeWhile_subset _) h

/-- A list that `rq` splits. -/
theorem split_ahead (h : rq ∈ l) : ∃ pre post, l = (pre ++ [rq]) ++ post ∧ rq ∉ pre := by
  obtain ⟨pre, post, rfl, hnot⟩ := List.eq_append_cons_of_mem h
  exact ⟨pre, post, by simp, hnot⟩

theorem ahead_split (h : rq ∉ l) : ahead rq ((l ++ [rq]) ++ l') = l := by
  rw [ahead_append (by simp), ahead_concat h]

/-- Nothing but barriers has come before the barrier `rq`. -/
structure Guards (rq : Rq) (s s' : Stack σ) : Prop where
  mem : rq ∈ s'.queue.queueHead
  barrier : (s'.queue.rqs rq).softbarrier = true
  before : ∃ l t, ahead rq s'.queue.queueHead = l ++ t ∧ t <:+ ahead rq s.queue.queueHead ∧
    ∀ x ∈ l, (s'.queue.rqs x).softbarrier = true

/-- One more step behind others: it takes away from the front, or puts a barrier there. -/
theorem Guards.step (h : Guards rq s s₁) (hrq : (s'.queue.rqs rq).softbarrier = true)
    (hsoft : ∀ x ∈ s'.queue.queueHead, x ∈ s₁.queue.queueHead → (s₁.queue.rqs x).softbarrier = true →
      (s'.queue.rqs x).softbarrier = true) (hmem : rq ∈ s'.queue.queueHead)
    (ha : ahead rq s'.queue.queueHead <:+ ahead rq s₁.queue.queueHead ∨
      ∃ y, ahead rq s'.queue.queueHead = y :: ahead rq s₁.queue.queueHead ∧ (s'.queue.rqs y).softbarrier = true) :
    Guards rq s s' where
  mem := hmem
  barrier := hrq
  before := by
    obtain ⟨l, t, hlt, ht, hl⟩ := h.before
    have hkeep : ∀ x ∈ ahead rq s'.queue.queueHead, x ∈ l → (s'.queue.rqs x).softbarrier = true := by
      intro x hx hxl
      have hin : x ∈ s₁.queue.queueHead := mem_of_ahead (hlt ▸ List.mem_append_left t hxl)
      exact hsoft x (mem_of_ahead hx) hin (hl x hxl)
    rcases ha with ⟨pre, hpre⟩ | ⟨y, hy, hsofty⟩
    · rw [hlt] at hpre
      rcases List.append_eq_append_iff.mp hpre with ⟨m, rfl, hm⟩ | ⟨m, rfl, hm⟩
      · exact ⟨m, t, hm, ht, fun x hx => hkeep x (hm ▸ List.mem_append_left t hx) (List.mem_append_right _ hx)⟩
      · exact ⟨[], _, rfl, .trans ⟨m, hm.symm⟩ ht, by simp⟩
    · refine ⟨y :: l, t, by rw [hy, hlt, List.cons_append], ht, fun x hx => ?_⟩
      rcases List.mem_cons.mp hx with rfl | hx
      · exact hsofty
      · exact hkeep x (by rw [hy, hlt]; simp [hx]) hx

/-- A move inside a call puts at most a barrier before `rq`. -/
theorem Guards.lists (h : Guards rq s s₁) (hl : Lists s₁ s') : Guards rq s s' := by
  have hsoft (x : Rq) (hx : x ∈ s₁.queue.queueHead) : (s'.queue.rqs x).softbarrier = (s₁.queue.rqs x).softbarrier :=
    (hl.alike x hx).softbarrier
  have hkept : (s'.queue.rqs rq).softbarrier = true := (hsoft rq h.mem).trans h.barrier
  have hkeep : ∀ x ∈ s'.queue.queueHead, x ∈ s₁.queue.queueHead → (s₁.queue.rqs x).softbarrier = true →
      (s'.queue.rqs x).softbarrier = true := fun x _ hx hs => (hsoft x hx).trans hs
  apply h.step hkept hkeep
  · cases hl.listed with
    | same hl => rw [hl]; exact h.mem
    | sorted hnew hl => rw [hl]; exact mem_tailInsert.mpr (.inr h.mem)
    | first hnew hl hf => rw [hl]; exact List.mem_cons_of_mem _ h.mem
    | last hnew hl hf => rw [hl]; exact List.mem_append_left _ h.mem
  · have hwhole {l l' : List Rq} (h : l = l') : l <:+ l' := h ▸ List.suffix_refl l
    cases hl.listed with
    | same hl =>
      left
      apply hwhole
      rw [hl]
    | @sorted y hnew hl =>
      -- the scan ends at `rq` at the latest
      left
      apply hwhole
      obtain ⟨pre, post, hpost, hnot⟩ := split_ahead h.mem
      rw [hpost] at hl
      rw [hl, hpost, ahead_split hnot, tailInsert_append, ahead_split hnot]
      · intro x hx
        obtain rfl : rq = x := by simpa using hx
        rw [stopsAt_iff]
        right
        left
        simp [Request.fixed, hkept]
    | @first y hnew hl hf =>
      right
      refine ⟨y, ?_, hf⟩
      have hne : y ≠ rq := by
        rintro rfl
        exact hnew h.mem
      rw [hl, ahead_cons_of_ne hne]
    | @last y hnew hl hf =>
      left
      apply hwhole
      rw [hl, ahead_append h.mem]

/-- The driver does not take `rq`. -/
def Stack.leaves (rq : Rq) (s : Stack σ) : Act Bio α π → Prop
  | .dequeue => s.queue.queueHead.head? ≠ some rq
  | .getRequest _ _ _ _ | .addRequest _ _ _ _ | .mergeBio _ _ _ | .forbidMerge _ | .dispatch _ | .peek _ | .requeue _ _ |
    .completed _ | .putRequest _ _ => True

theorem Guards.act (hc : e.Contract merging) (hinv : Inv e k merging s₁) (h : Guards rq s s₁) {act : Act Bio α π}
    (hl : Stack.legal e s₁ act) (hleaves : s₁.leaves rq act) (hs : Stack.step e k s₁ act = some s') : Guards rq s s' := by
  cases hd : act.drives with
  | false =>
    have hlists := step_lists hc hinv hd hl hs
    clear hs hl hleaves
    induction hlists with
    | refl => exact h
    | tail _ hlast ih => exact ih.lists hlast
  | true =>
    cases act with
    | peek boundary =>
      obtain ⟨y, rest, r, hq, rfl⟩ := peek_spec hs
      have hsoft (x : Rq) : ((peeked s₁ y (boundary.getD s₁.queue.endSector) r).queue.rqs x).softbarrier =
          (s₁.queue.rqs x).softbarrier := by
        rcases eq_or_ne x y with rfl | hx
        · simp [peeked, RequestQueue.modify]
        · simp [peeked, RequestQueue.modify, hx]
      exact h.step ((hsoft rq).trans h.barrier) (fun x _ _ hx => (hsoft x).trans hx) h.mem (.inl (List.suffix_refl _))
    | dequeue =>
      obtain ⟨y, rest, hq, rfl⟩ := dequeue_spec hs
      have hhead : s₁.queue.queueHead.head? ≠ some rq := hleaves
      have hne : y ≠ rq := by
        rintro rfl
        simp [hq] at hhead
      have hrest : rq ∈ rest := by
        have hmem := h.mem
        rw [hq] at hmem
        exact (List.mem_cons.mp hmem).resolve_left hne.symm
      apply h.step
      · show ((s₁.queue.countInFlight k y 1).rqs rq).softbarrier = true
        rw [countInFlight_rqs]
        exact h.barrier
      · intro x _ _ hx
        show ((s₁.queue.countInFlight k y 1).rqs x).softbarrier = true
        rwa [countInFlight_rqs]
      · exact hrest
      · left
        rw [hq, ahead_cons_of_ne hne]
        exact List.suffix_cons ..
    | requeue y env =>
      obtain ⟨r, rfl⟩ := requeue_spec hs
      have hp : s₁.place y = .driving := hl
      have hnew : y ∉ s₁.queue.queueHead := hinv.notMem_queued (by simp [hp])
      have hne : y ≠ rq := by
        rintro rfl
        exact hnew h.mem
      have hsoft (x : Rq) (hx : x ∈ s₁.queue.queueHead) :
          ((returned k s₁ y (barrierSector s₁.queue (s₁.queue.rqs y)) r).queue.rqs x) = s₁.queue.rqs x := by
        apply Function.update_of_ne
        rintro rfl
        exact hnew hx
      apply h.step
      · rw [hsoft rq h.mem]
        exact h.barrier
      · intro x _ hx hsx
        rwa [hsoft x hx]
      · exact List.mem_cons_of_mem y h.mem
      · right
        exact ⟨y, ahead_cons_of_ne hne, by simp [returned]⟩
    | getRequest | addRequest | mergeBio | forbidMerge | dispatch | completed | putRequest => cases hd

/-- Until the driver takes it, a barrier is passed only by other barriers, which go to the front. -/
theorem barrier_not_passed (hc : e.Contract merging) (hq : merging = false → noxmerges = true)
    (h : (Stack.machine e k).Reachable (Stack.init e nomerges noxmerges) s) (hrq : rq ∈ s.queue.queueHead)
    (hsoft : (s.queue.rqs rq).softbarrier = true)
    (hrun : ((Stack.machine e k).restrict (Stack.leaves rq)).Reachable s u) : Guards rq s u := by
  have hboth : Inv e k merging u ∧ Guards rq s u := by
    apply hrun.invariant _ ⟨Inv.of_reachable hc hq h, hrq, hsoft, [], _, rfl, List.suffix_refl _, by simp⟩
    intro v act o w hv hl hs
    obtain ⟨w', hw, he⟩ := Option.map_eq_some_iff.mp hs
    obtain rfl : w' = w := congrArg Prod.snd he
    exact ⟨hv.1.step hc hl.1 hw, hv.2.act hc hv.1 hl.1 hl.2 hw⟩
  exact hboth.2

instance (rq : Rq) (s : Stack σ) : (act : Act Bio α π) → Decidable (s.leaves rq act)
  | .dequeue => inferInstanceAs (Decidable (s.queue.queueHead.head? ≠ some rq))
  | .getRequest _ _ _ _ | .addRequest _ _ _ _ | .mergeBio _ _ _ | .forbidMerge _ | .dispatch _ | .peek _ | .requeue _ _ |
    .completed _ | .putRequest _ _ => inferInstanceAs (Decidable True)

instance (s : Stack σ) (act : Act Bio α π) : Decidable (((Stack.machine e k).restrict (Stack.leaves rq)).legal s act) :=
  inferInstanceAs (Decidable (Stack.legal e s act ∧ s.leaves rq act))

/-- A request that the driver returns is the only one that gets before the barrier. -/
theorem barrier_not_passed_noop :
    ∃ u v, (Stack.machine Noop.elevator BlkOps.plain).Reachable (Stack.init Noop.elevator false false) u ∧
      ((Stack.machine Noop.elevator BlkOps.plain).restrict (Stack.leaves 2)).Reachable u v ∧
      u.queue.queueHead = [2] ∧ v.queue.queueHead = [1, 2, 3] ∧ Guards 2 u v := by
  have hplays : (Stack.machine Noop.elevator BlkOps.plain).Plays (Stack.init Noop.elevator false false)
      [.getRequest 1 (read 40) 7 (), .addRequest 1 .sort 9 fun _ => (), .getRequest 2 (read 16) 7 (),
        .addRequest 2 .back 9 fun _ => (), .peek none, .dequeue]
      (fun _ u => (u.queue.queueHead = [2] ∧ (u.queue.rqs 2).softbarrier = true) ∧
        ((Stack.machine Noop.elevator BlkOps.plain).restrict (Stack.leaves 2)).Plays u
          [.getRequest 3 (read 8) 7 (), .addRequest 3 .sort 9 fun _ => (), .dispatch false, .requeue 1 fun _ => ()]
          fun _ v => v.queue.queueHead = [1, 2, 3]) := by decide
  obtain ⟨tr, u, hr, -, ⟨hl, hsoft⟩, hrest⟩ := hplays.exists_run
  obtain ⟨tr', v, hr', -, hv⟩ := hrest.exists_run
  exact ⟨u, v, ⟨tr, hr⟩, ⟨tr', hr'⟩, hl, hv,
    barrier_not_passed Noop.contract (fun h => nomatch h) ⟨tr, hr⟩ (by simp [hl]) hsoft ⟨tr', hr'⟩⟩

/-- The stack in which `rq` is about to be put behind everything else. -/
def Stack.arrive (rq : Rq) (s : Stack σ) : Stack σ :=
  { s.put rq .arriving with queue := s.queue.modify rq fun r => { r with softbarrier := true } }

theorem Inv.arrive (h : Inv e k merging s) (hrq : s.place rq = .held) : Inv e k merging (s.arrive rq) :=
  (h.does (.arrive hrq) h.meets rfl).inv

/-- `ELEVATOR_INSERT_BACK` is a drain between two changes of the queue. -/
theorem elvAddRequest_back (h : Inv e k merging s) (hrq : s.place rq = .held) {env : Rq → π} :
    s.elvAddRequest e k rq .back fuel env =
      ((s.arrive rq).elvDrainElevator e fuel).map fun s₁ => { s₁.put rq .queued with queue := s₁.queue.atBack rq } := by
  have hfresh := (h.located rq).flags.held hrq
  have hnote : s.queue.noteBarrier rq = s.queue := by simp [noteBarrier, hfresh.softbarrier]
  have hat : Stack.insertionOf (s.queue.rqs rq) .back = .back := by
    unfold Stack.insertionOf
    split_ifs <;> simp_all
  simp only [Stack.elvAddRequest, hnote, hat, Stack.insertBack, Option.bind_eq_bind]
  exact Option.map_eq_bind.symm

/-- `ELEVATOR_INSERT_BACK` puts a barrier behind everything that was there, in the scheduler or in the list. -/
theorem insert_back_behind_all (hc : e.Contract merging) (he : e.Empties merging) (hq : merging = false → noxmerges = true)
    (h : (Stack.machine e k).Reachable (Stack.init e nomerges noxmerges) s) (hrq : s.place rq = .held)
    (hf : s.waiting.length < fuel) (env : Rq → π) :
    ∃ s', s.elvAddRequest e k rq .back fuel env = some s' ∧
      s'.waiting = [] ∧ (s'.queue.rqs rq).softbarrier = true ∧
      ∃ l, s'.queue.queueHead = l ++ [rq] ∧ l.Perm (s.queue.queueHead ++ s.waiting) := by
  have hinv := Inv.of_reachable hc hq h
  have harrive := hinv.arrive hrq
  obtain ⟨s₁, hdrain⟩ := elvDrainElevator_returns hc he harrive hf
  obtain ⟨hnone, -, hperm⟩ := drain_leaves_nothing hc he harrive hdrain
  obtain ⟨ds, hd⟩ := elvDrainElevator_drained hc harrive hdrain
  refine ⟨{ s₁.put rq .queued with queue := s₁.queue.atBack rq }, ?_, hnone, ?_, s₁.queue.queueHead, rfl, hperm⟩
  · rw [elvAddRequest_back hinv hrq, hdrain]
    rfl
  · exact (hd.alike rq).softbarrier.trans (by simp [Stack.arrive, RequestQueue.modify])

theorem insert_back_behind_all_noop :
    ∃ u v, (Stack.machine Noop.elevator BlkOps.plain).Reachable (Stack.init Noop.elevator false false) u ∧
      u.waiting = [2] ∧ u.queue.queueHead = [1] ∧
      u.elvAddRequest Noop.elevator BlkOps.plain 3 .back 9 (fun _ => ()) = some v ∧
      v.waiting = [] ∧ (v.queue.rqs 3).softbarrier = true ∧
      ∃ l, v.queue.queueHead = l ++ [3] ∧ l.Perm (u.queue.queueHead ++ u.waiting) := by
  have hplays : (Stack.machine Noop.elevator BlkOps.plain).Plays (Stack.init Noop.elevator false false)
      [.getRequest 1 (read 40) 7 (), .addRequest 1 .sort 9 fun _ => (), .dispatch false, .getRequest 2 (read 16) 7 (),
        .addRequest 2 .sort 9 fun _ => (), .getRequest 3 (read 0) 7 ()]
      (fun _ u => u.place 3 = .held ∧ u.waiting = [2] ∧ u.queue.queueHead = [1]) := by decide
  obtain ⟨tr, u, hr, -, hp, hw, hl⟩ := hplays.exists_run
  obtain ⟨v, hv⟩ := insert_back_behind_all (k := BlkOps.plain) Noop.contract Noop.empties (fun h => nomatch h) ⟨tr, hr⟩ hp
    (show u.waiting.length < 9 by simp [hw]) fun _ => ()
  exact ⟨u, v, ⟨tr, hr⟩, hw, hl, hv⟩

end SsdScheduler.Elevator
