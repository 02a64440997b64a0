import Mathlib.Data.Finset.Card
import SsdScheduler.Elevator.Noop
import SsdScheduler.Elevator.Steps

/-!
# What the elevator core keeps track of

Whatever the submitters and the driver do, a scheduler that meets its contract sees a run of the protocol it was
written for, `nr_sorted` and `in_flight` count what they are meant to count, and a request to which another can
be appended is found. The loop of `elv_attempt_insert_merge` ends.
-/

namespace SsdScheduler.Elevator

open Framework RequestQueue

variable {σ α π Bio : Type} {e : ElevatorType σ α π} {k : BlkOps Bio} {s s' : Stack σ} {rq x : Rq}
  {merging nomerges noxmerges : Bool}

/-- The worlds a scheduler gets to see are those of the protocol. -/
theorem core_meets_protocol (hc : e.Contract merging) (hq : merging = false → noxmerges = true)
    (h : (Stack.machine e k).Reachable (Stack.init e nomerges noxmerges) s) : e.Meets merging s.world :=
  (Inv.of_reachable hc hq h).meets

/-- The third request joins the second one, and the two of them the first, so that one of two requests that wait is
merged away. -/
theorem core_meets_protocol_noop :
    ∃ u, (Stack.machine Noop.elevator BlkOps.plain).Reachable (Stack.init Noop.elevator false false) u ∧
      u.place 2 = .free ∧ u.place 3 = .free ∧ u.world.elv = [1] ∧ Noop.elevator.Meets true u.world := by
  have hplays : (Stack.machine Noop.elevator BlkOps.plain).Plays (Stack.init Noop.elevator false false)
      [.getRequest 1 (read 0) 7 (), .addRequest 1 .sort 9 fun _ => (), .getRequest 2 (read 8) 7 (),
        .addRequest 2 .sort 9 fun _ => (), .getRequest 3 (read 16) 8 (), .addRequest 3 .sortMerge 9 fun _ => ()]
      (fun _ u => u.place 2 = .free ∧ u.place 3 = .free ∧ u.world.elv = [1]) := by decide
  obtain ⟨tr, u, hr, -, h₂, h₃, hw⟩ := hplays.exists_run
  exact ⟨u, ⟨tr, hr⟩, h₂, h₃, hw, core_meets_protocol Noop.contract (fun h => nomatch h) ⟨tr, hr⟩⟩

/-- A request is in one list at most, the lists are what the scheduler's world says, and they are counted. -/
structure Accounted (k : BlkOps Bio) (s : Stack σ) : Prop where
  nodup : (s.waiting ++ (s.queue.queueHead ++ s.driving)).Nodup
  waiting : ∀ rq, rq ∈ s.waiting ↔ s.world.phase rq = .added
  dispatched : ∀ rq, s.world.phase rq = .dispatched ↔
    (rq ∈ s.queue.queueHead ∨ rq ∈ s.driving) ∧ (s.queue.rqs rq).sorted = true
  nrSorted : s.queue.nrSorted = s.waiting.length
  inFlight : ∀ i, s.queue.inFlight i =
    s.driving.countP fun rq => k.account (s.queue.rqs rq) && (s.queue.rqs rq).isSync == i
  last : ∀ rq ∈ s.queue.lastMerge, rq ∈ s.waiting

theorem Placed.accounted (h : Placed k s) : Accounted k s where
  nodup := h.nodup
  waiting x := by
    rw [(h.located x).waiting, (h.located x).phase]
    cases hp : s.place x <;> simp [Place.phase]
    all_goals split_ifs <;> simp
  dispatched x := by
    rw [(h.located x).queued, (h.located x).driving, (h.located x).phase]
    cases hp : s.place x <;> simp [Place.phase]
    all_goals split_ifs <;> simp_all
  nrSorted := h.nrSorted
  inFlight := h.inFlight
  last x hx := (h.located x).waiting.mpr ((h.located x).last hx)

/-- The requests that have gone through the scheduler and are not completed. -/
def Stack.served (s : Stack σ) : List Rq := (s.queue.queueHead ++ s.driving).filter fun x => (s.queue.rqs x).sorted

theorem Accounted.mem_served (h : Accounted k s) : rq ∈ s.served ↔ s.world.phase rq = .dispatched := by
  rw [Stack.served, List.mem_filter, List.mem_append]
  exact (h.dispatched rq).symm

theorem Accounted.length_served (h : Accounted k s) {F : Finset Rq} (hF : ∀ x, x ∈ F ↔ s.world.phase x = .dispatched) :
    s.served.length = F.card := by
  have hnodup : s.served.Nodup := (List.nodup_append.mp h.nodup).2.1.filter _
  have hsame : F = s.served.toFinset := by
    ext x
    rw [hF, List.mem_toFinset, h.mem_served]
  rw [hsame, List.toFinset_card_of_nodup hnodup]

theorem requests_accounted (hc : e.Contract merging) (hq : merging = false → noxmerges = true)
    (h : (Stack.machine e k).Reachable (Stack.init e nomerges noxmerges) s) : Accounted k s :=
  (Inv.of_reachable hc hq h).toPlaced.accounted

/-- Request 4 is with the driver and counted there without having gone through the scheduler, request 1 is in the
dispatch list, and request 3 has been merged into request 2, which waits. -/
theorem requests_accounted_noop :
    ∃ u, (Stack.machine Noop.elevator BlkOps.plain).Reachable (Stack.init Noop.elevator false false) u ∧
      u.waiting = [2] ∧ u.queue.queueHead = [1] ∧ u.driving = [4] ∧ u.queue.inFlight true = 1 ∧
      (u.queue.rqs 4).sorted = false ∧ Accounted BlkOps.plain u := by
  have hplays : (Stack.machine Noop.elevator BlkOps.plain).Plays (Stack.init Noop.elevator false false)
      [.getRequest 4 (read 80) 7 (), .addRequest 4 .front 9 fun _ => (), .peek none, .dequeue, .getRequest 1 (read 40) 7 (),
        .addRequest 1 .sort 9 fun _ => (), .dispatch false, .getRequest 2 (read 0) 7 (), .addRequest 2 .sort 9 fun _ => (),
        .getRequest 3 (read 8) 8 (), .addRequest 3 .sortMerge 9 fun _ => ()]
      (fun _ u => u.waiting = [2] ∧ u.queue.queueHead = [1] ∧ u.driving = [4] ∧ u.queue.inFlight true = 1 ∧
        (u.queue.rqs 4).sorted = false) := by decide
  obtain ⟨tr, u, hr, -, hw, hl, hd, hf, hsorted⟩ := hplays.exists_run
  exact ⟨u, ⟨tr, hr⟩, hw, hl, hd, hf, hsorted, requests_accounted Noop.contract (fun h => nomatch h) ⟨tr, hr⟩⟩

/-- The hash table has only requests that wait, and `elv_rqhash_find` returns one that may be merged and ends at the
sector, whenever there is one. -/
theorem merge_candidate_found (hc : e.Contract merging) (hq : merging = false → noxmerges = true)
    (h : (Stack.machine e k).Reachable (Stack.init e nomerges noxmerges) s) (offset : Nat) :
    (∀ b, ∀ rq ∈ s.queue.hash b, rq ∈ s.waiting) ∧
    ∃ found q', s.queue.elvRqhashFind k offset = some (found, q') ∧
      (∀ rq ∈ found, rq ∈ s.waiting ∧ k.mergeable (s.queue.rqs rq) = true ∧ (s.queue.rqs rq).endSector = offset) ∧
      (found = none → ∀ rq ∈ s.waiting, k.mergeable (s.queue.rqs rq) = true → (s.queue.rqs rq).endSector ≠ offset) := by
  have hinv := Inv.of_reachable hc hq h
  obtain ⟨found, q', hf, hfound⟩ := hinv.hash.find offset
  refine ⟨fun b x hx => ?_, found, q', hf, fun x hx => ?_, fun hn x hx hm => ?_⟩
  · exact (hinv.located x).waiting.mpr ((hinv.located x).flags.hashed ((hinv.hash.mem b x).mp hx).1)
  · obtain ⟨hh, hm, he⟩ := hfound.sound x hx
    have hr := hfound.swept.eq_of_hashed hh
    rw [hr] at hh hm he
    exact ⟨(hinv.located x).waiting.mpr ((hinv.located x).flags.hashed hh), hm, he⟩
  · exact hfound.complete hn x ((hinv.located x).mergeable ((hinv.located x).waiting.mp hx) hm) hm

/-- Of two requests that wait the one that ends at sector 8 is found. -/
theorem merge_candidate_found_noop :
    ∃ u q', (Stack.machine Noop.elevator BlkOps.plain).Reachable (Stack.init Noop.elevator false false) u ∧
      u.waiting = [1, 2] ∧ (∀ b, ∀ rq ∈ u.queue.hash b, rq ∈ [1, 2]) ∧
      u.queue.elvRqhashFind BlkOps.plain 8 = some (some 1, q') ∧ (u.queue.rqs 1).endSector = 8 := by
  have hplays : (Stack.machine Noop.elevator BlkOps.plain).Plays (Stack.init Noop.elevator false false)
      [.getRequest 1 (read 0) 7 (), .addRequest 1 .sort 9 fun _ => (), .getRequest 2 (read 40) 8 (),
        .addRequest 2 .sort 9 fun _ => ()]
      (fun _ u => u.waiting = [1, 2] ∧ (u.queue.elvRqhashFind BlkOps.plain 8).map Prod.fst = some (some 1)) := by decide
  obtain ⟨tr, u, hr, -, hw, hfst⟩ := hplays.exists_run
  obtain ⟨hhash, found, q', hf, hsound, -⟩ := merge_candidate_found Noop.contract (fun h => nomatch h) ⟨tr, hr⟩ 8
  obtain rfl : found = some 1 := by
    rw [hf] at hfst
    exact Option.some.inj hfst
  exact ⟨u, q', ⟨tr, hr⟩, hw, hw ▸ hhash, hf, (hsound 1 rfl).2.2⟩

section Termination

/-- A merge is made whenever the block layer wants it, if the scheduler's `elevator_put_req_fn` returns. -/
theorem exists_blkAttemptReqMerge (hput : ∀ d rq (env : π), ∃ r, e.putRequest d rq env = some r) (s : Stack σ)
    (rq next : Rq) (env : π) : ∃ b s', s.blkAttemptReqMerge e k rq next env = some (b, s') := by
  unfold Stack.blkAttemptReqMerge
  split
  · exact ⟨_, _, rfl⟩
  · have hfree (s : Stack σ) : ∃ s', s.freeRequest e next env = some s' := by
      obtain ⟨r, hr⟩ := hput s.world.elv next env
      unfold Stack.freeRequest
      split
      · simp [ElevatorOps.machine, ElevatorOps.call, hr]
      · exact ⟨_, rfl⟩
    simp only [Stack.elvMergeRequests, elvRqhashReposition_eq, Option.bind_eq_bind, Option.bind_some]
    obtain ⟨s', hs'⟩ := hfree _
    rw [hs']
    exact ⟨_, _, rfl⟩

/-- Every round looks for a request before the one the last round found. -/
theorem exists_insertMergeLoop (hput : ∀ d rq (env : π), ∃ r, e.putRequest d rq env = some r) {env : Rq → π} {fuel : Nat}
    {ret : Bool} (h : Inv e k true s) (hrq : s.place rq = .waiting ∨ some x = some rq ∧ s.place rq = .held)
    (hf : (s.queue.rqs rq).pos < fuel) :
    ∃ b s', Stack.insertMergeLoop e k env fuel s rq ret = some (b, s') := by
  induction fuel generalizing s rq ret with
  | zero => exact absurd hf (Nat.not_lt_zero _)
  | succ fuel ih =>
    obtain ⟨found, q', hfind, -⟩ := h.hash.find (s.queue.rqs rq).pos
    obtain ⟨-, hdoes, hfound⟩ := find_spec (a := some x) h hfind
    simp only [Stack.insertMergeLoop, hfind, Option.bind_eq_bind, Option.bind_some]
    cases found with
    | none => exact ⟨_, _, rfl⟩
    | some rq' =>
      obtain ⟨hwaits, hend⟩ := hfound rq' rfl
      obtain ⟨merged, s₁, hm⟩ := exists_blkAttemptReqMerge (k := k) hput { s with queue := q' } rq' rq (env rq)
      dsimp only
      rw [hm, Option.bind_some]
      cases merged with
      | false => exact ⟨_, _, rfl⟩
      | true =>
        have hnext : s.place rq = .waiting ∧ true = true ∨ some x = some rq ∧ s.place rq = .held := hrq.imp (fun h => ⟨h, rfl⟩) id
        obtain ⟨hdone, -, hyes⟩ := blkAttemptReqMerge_spec hdoes.inv hwaits hnext hm
        obtain ⟨m, hm', ha⟩ := hyes rfl
        apply ih hdone.inv
        · left
          rw [ha.place, Function.update_of_ne (ne_of_merged hm')]
          exact hwaits
        · -- it ends where the other one begins, and has sectors
          have hpos := k.merged_sectors hm'
          rw [ha.self, k.merged_eq hm']
          simp only [Request.endSector] at hend hpos ⊢
          omega

/-- `while (1)` in `elv_attempt_insert_merge` ends, in every state and for every request that is being inserted. -/
theorem insert_merge_returns (hput : ∀ d rq (env : π), ∃ r, e.putRequest d rq env = some r) (hc : e.Contract true)
    (h : (Stack.machine e k).Reachable (Stack.init e nomerges noxmerges) s) (hrq : s.place rq = .held) (env : Rq → π) :
    ∃ b s', s.elvAttemptInsertMerge e k rq env = some (b, s') := by
  have hinv := Inv.of_reachable hc (fun h => nomatch h) h
  have hloop : ∃ b s', Stack.insertMergeLoop e k env ((s.queue.rqs rq).pos + 1) s rq false = some (b, s') :=
    exists_insertMergeLoop hput hinv (.inr ⟨rfl, hrq⟩) (Nat.lt_succ_self _)
  unfold Stack.elvAttemptInsertMerge
  split
  · exact ⟨_, _, rfl⟩
  · cases hlast : s.queue.lastMerge with
    | none =>
      simp only [Option.bind_eq_bind, Option.bind_some, Bool.false_eq_true, if_false]
      split
      · exact ⟨_, _, rfl⟩
      · exact hloop
    | some last =>
      obtain ⟨merged, s₁, hm⟩ := exists_blkAttemptReqMerge (k := k) hput s last rq (env rq)
      obtain ⟨-, hno, -⟩ := blkAttemptReqMerge_spec hinv ((hinv.located last).last hlast) (.inr ⟨rfl, hrq⟩) hm
      simp only [hm, Option.bind_eq_bind, Option.bind_some]
      cases merged with
      | true => exact ⟨_, _, rfl⟩
      | false =>
        obtain rfl := hno rfl
        simp only [Bool.false_eq_true, if_false]
        split
        · exact ⟨_, _, rfl⟩
        · exact hloop

/-- The loop finds request 2, which it joins, then request 1, and then nothing. -/
theorem insert_merge_returns_noop :
    ∃ u b u', (Stack.machine Noop.elevator BlkOps.plain).Reachable (Stack.init Noop.elevator false false) u ∧
      u.place 3 = .held ∧ u.waiting = [1, 2] ∧
      u.elvAttemptInsertMerge Noop.elevator BlkOps.plain 3 (fun _ => ()) = some (b, u') ∧ u'.waiting = [1] := by
  have hplays : (Stack.machine Noop.elevator BlkOps.plain).Plays (Stack.init Noop.elevator false false)
      [.getRequest 1 (read 0) 7 (), .addRequest 1 .sort 9 fun _ => (), .getRequest 2 (read 8) 7 (),
        .addRequest 2 .sort 9 fun _ => (), .getRequest 3 (read 16) 7 ()]
      (fun _ u => u.place 3 = .held ∧ u.waiting = [1, 2] ∧
        (u.elvAttemptInsertMerge Noop.elevator BlkOps.plain 3 fun _ => ()).map (fun r => r.2.waiting) = some [1]) := by decide
  obtain ⟨tr, u, hr, -, hp, hw, hleft⟩ := hplays.exists_run
  obtain ⟨b, u', hs⟩ := insert_merge_returns (fun _ _ _ => ⟨_, rfl⟩) Noop.contract ⟨tr, hr⟩ hp fun _ => ()
  rw [hs] at hleft
  exact ⟨u, b, u', ⟨tr, hr⟩, hp, hw, hs, Option.some.inj hleft⟩

end Termination

end SsdScheduler.Elevator
