import SsdScheduler.Beta.Progress
import SsdScheduler.Elevator.Accounting
import SsdScheduler.Elevator.Barriers

/-!
# `ssd_scheduler_beta/sfq-iosched_12.c` under the elevator core

The scheduler registers no callback for requests that are merged away. Where the queue merges no waiting requests
it sees the calls it was written for, and its counters are those of the elevator core; one such merge is enough to
leave a freed record in a process queue. Draining it works only from the states in which its cursor and its depth
test let every request through.
-/

namespace SsdScheduler.Iosched12

open Framework Sfq Elevator RequestQueue

/-- `iosched_sfq` without `elevator_merge_req_fn`, `elevator_former_req_fn` and `elevator_latter_req_fn`. -/
def elevatorType (wrap : Int → Int) : ElevatorType SeekData SetEnv SfqRequest where
  toElevatorOps := elevator wrap
  mergeReqFn := none
  formerReqFn := none
  latterReqFn := none

variable {Bio : Type} {wrap : Int → Int} {k : BlkOps Bio} {s s' : Stack SeekData} {w w' : World SeekData} {rq next : Rq}
  {nomerges : Bool} {fuel : Nat}

/-- The scheduler keeps its side of the protocol as long as no waiting request is merged away. -/
theorem contract (wrap : Int → Int) : (elevatorType wrap).Contract false where
  serves w h force o d rq hd ho := by
    have hinv := Inv.of_reachable h.reachable
    exact hinv.added_of_turn ((sfqDispatch_iff force hinv.ready hinv.rq_ne_none).mp hd) ho
  latter w h f hf := by cases hf
  former w h f hf := by cases hf
  quiet _ := ⟨rfl, rfl⟩

section Counters

/-- The records in all process queues. -/
def records (c : Core) : List Addr := c.queue.flatMap SfqQueue.queue

theorem length_records (c : Core) : (records c).length = c.load := by
  rw [records, List.length_flatMap]
  rfl

variable {u : World Core}

theorem nodup_records (h : CoreInv u) : (records u.elv).Nodup := by
  refine List.nodup_flatMap.mpr ⟨h.nodup, ?_⟩
  have hpids : u.elv.queue.Pairwise fun q q' => q.pid ≠ q'.pid := List.pairwise_map.mp h.pids
  apply hpids.imp_of_mem
  intro q q' hq hq' hne a ha ha'
  obtain ⟨r, hr, -, -, hown⟩ := h.linked q hq a ha
  obtain ⟨r', hr', -, -, hown'⟩ := h.linked q' hq' a ha'
  obtain rfl : r = r' := Option.some.inj (hr.symm.trans hr')
  exact hne (hown.symm.trans hown')

/-- A list of the requests that wait is as long as the process queues together. -/
theorem length_eq_load (h : CoreInv u) {l : List Rq} (hn : l.Nodup) (hl : ∀ rq, rq ∈ l ↔ u.phase rq = .added) :
    l.length = u.elv.load := by
  have hperm : (l.map u.elv.priv1).Perm ((records u.elv).map some) := by
    refine (List.perm_ext_iff_of_nodup ?_ ?_).mpr ?_
    · refine List.Nodup.map_on (fun x hx y hy hxy => ?_) hn
      have hx := (hl x).mp hx
      obtain ⟨q, hq, a, ha, hrq⟩ := h.waits x hx
      obtain ⟨r, hr, -, hpriv, -⟩ := h.linked q hq a ha
      obtain rfl : r = x := Option.some.inj (hr.symm.trans hrq)
      exact h.unique r y a (by simp [hx]) (by simp [(hl y).mp hy]) hpriv (hxy ▸ hpriv)
    · exact (nodup_records h).map (Option.some_injective _)
    · intro x
      simp only [List.mem_map, records, List.mem_flatMap]
      constructor
      · rintro ⟨rq, hrq, rfl⟩
        obtain ⟨q, hq, a, ha, hlinked⟩ := h.waits rq ((hl rq).mp hrq)
        obtain ⟨r, hr, -, hpriv, -⟩ := h.linked q hq a ha
        obtain rfl : r = rq := Option.some.inj (hr.symm.trans hlinked)
        exact ⟨a, ⟨q, hq, ha⟩, hpriv.symm⟩
      · rintro ⟨a, ⟨q, hq, ha⟩, rfl⟩
        obtain ⟨rq, -, hph, hpriv, -⟩ := h.linked q hq a ha
        exact ⟨rq, (hl rq).mpr hph, hpriv⟩
  have hlength := hperm.length_eq
  rwa [List.length_map, List.length_map, length_records] at hlength

/-- In every run without merges of waiting requests the counters of the scheduler are those of the elevator core, and
no record in a process queue has been freed. -/
theorem counters_agree (h : (Stack.machine (elevatorType wrap) k).Reachable (Stack.init (elevatorType wrap) nomerges true) s) :
    s.queue.nrSorted = s.world.elv.load ∧ s.world.elv.depth = s.served.length ∧
      s.world.elv.sfqrSize = s.queue.nrSorted + s.served.length ∧
      ∀ q ∈ s.world.elv.queue, ∀ a ∈ q.queue, s.world.elv.live a = true := by
  have hinv := Elevator.Inv.of_reachable (contract wrap) (fun _ => rfl) h
  have hcore := (Inv.of_reachable hinv.meets.reachable).core
  have hload : s.queue.nrSorted = s.world.elv.load := by
    rw [hinv.nrSorted]
    exact congrArg Nat.cast (length_eq_load hcore hinv.nodupWaiting hinv.toPlaced.accounted.waiting)
  have hserved : s.world.elv.depth = s.served.length := by
    obtain ⟨F, hF, hdepth⟩ := hcore.outstanding
    rw [hinv.toPlaced.accounted.length_served hF]
    exact hdepth
  refine ⟨hload, hserved, ?_, fun q hq a ha => hcore.live_of_linked hq ha⟩
  have hcount := hcore.count
  change s.world.elv.sfqrSize = s.world.elv.load + s.world.elv.depth at hcount
  rw [hcount, hload, hserved]

theorem counters_agree_two :
    ∃ u, (Stack.machine (elevatorType id) BlkOps.plain).Reachable (Stack.init (elevatorType id) false true) u ∧
      u.served = [1] ∧ u.queue.nrSorted = u.world.elv.load ∧ u.world.elv.depth = u.served.length ∧
      u.world.elv.sfqrSize = u.queue.nrSorted + u.served.length ∧
      ∀ q ∈ u.world.elv.queue, ∀ a ∈ q.queue, u.world.elv.live a = true := by
  have hplays : (Stack.machine (elevatorType id) BlkOps.plain).Plays (Stack.init (elevatorType id) false true)
      [.getRequest 1 (read 40) 7 ⟨true, true, true, some 0⟩, .getRequest 2 (read 16) 8 ⟨true, true, true, some 1⟩,
        .addRequest 1 .sort 9 fun _ => .zero, .addRequest 2 .sort 9 fun _ => .zero, .dispatch false]
      (fun _ u => u.served = [1]) := by decide
  obtain ⟨tr, u, hr, -, hserved⟩ := hplays.exists_run
  exact ⟨u, ⟨tr, hr⟩, hserved, counters_agree ⟨tr, hr⟩⟩

end Counters

section Draining

/-- `ELEVATOR_INSERT_BACK` gets its request behind all others exactly if the scheduler can be drained. -/
theorem insert_back_behind_all_iff
    (h : (Stack.machine (elevatorType wrap) k).Reachable (Stack.init (elevatorType wrap) nomerges true) s)
    (hrq : s.place rq = .held) (env : Rq → SfqRequest) :
    (∃ fuel s', s.elvAddRequest (elevatorType wrap) k rq .back fuel env = some s' ∧ s'.waiting = []) ↔
      Drainable s.world.elv := by
  have hinv := Elevator.Inv.of_reachable (contract wrap) (fun _ => rfl) h
  have harrive := hinv.arrive hrq
  have hempty {fuel : Nat} {s₁ : Stack SeekData} (hd : (s.arrive rq).elvDrainElevator (elevatorType wrap) fuel = some s₁) :
      s₁.waiting = [] ↔ s₁.world.elv.load = 0 := by
    have hinv₁ := (elvDrainElevator_spec (a := none) (contract wrap) harrive hd).inv
    have hcore := (Inv.of_reachable hinv₁.meets.reachable).core
    rw [← List.length_eq_zero_iff, length_eq_load hcore hinv₁.nodupWaiting hinv₁.toPlaced.accounted.waiting]
    exact Iff.rfl
  have hworld (fuel : Nat) : (elevator wrap).elvDrainElevator fuel s.world =
      ((s.arrive rq).elvDrainElevator (elevatorType wrap) fuel).map Stack.world :=
    (elvDrainElevator_world (elevatorType wrap) fuel (s.arrive rq)).symm
  rw [← drainsTo_iff wrap (Inv.of_reachable hinv.meets.reachable)]
  apply exists_congr
  intro fuel
  rw [elvAddRequest_back hinv hrq, hworld fuel]
  cases hd : (s.arrive rq).elvDrainElevator (elevatorType wrap) fuel with
  | none => simp
  | some s₁ => simpa [Stack.put] using hempty hd

/-- One process has a request: the drain stops before it, and the barrier is put before it. -/
theorem insert_back_behind_all_iff_one :
    ∃ u, (Stack.machine (elevatorType id) BlkOps.plain).Reachable (Stack.init (elevatorType id) false true) u ∧
      (u.elvAddRequest (elevatorType id) BlkOps.plain 2 .back 9 fun _ => .zero).any (fun v => v.waiting == [1]) = true ∧
      ((∃ fuel v, u.elvAddRequest (elevatorType id) BlkOps.plain 2 .back fuel (fun _ => .zero) = some v ∧ v.waiting = []) ↔
        Drainable u.world.elv) := by
  have hplays : (Stack.machine (elevatorType id) BlkOps.plain).Plays (Stack.init (elevatorType id) false true)
      [.getRequest 1 (read 40) 7 ⟨true, true, true, some 0⟩, .addRequest 1 .sort 9 fun _ => .zero,
        .getRequest 2 (read 16) 7 ⟨true, true, true, some 1⟩]
      (fun _ u => u.place 2 = .held ∧
        (u.elvAddRequest (elevatorType id) BlkOps.plain 2 .back 9 fun _ => .zero).any (fun v => v.waiting == [1]) = true) := by
    decide
  obtain ⟨tr, u, hr, -, hp, hany⟩ := hplays.exists_run
  exact ⟨u, ⟨tr, hr⟩, hany, insert_back_behind_all_iff ⟨tr, hr⟩ hp fun _ => .zero⟩

end Draining

section Merging

theorem put_ready (h : Inv w) (junk : SfqRequest) : Ready { w.elv with toCore := w.elv.toCore.put rq junk } where
  seeks := h.seeks.congr rfl rfl (Core.length_put junk).symm.le
  size := by
    show (w.elv.toCore.put rq junk).sfqqSize = (w.elv.toCore.put rq junk).queue.length
    rw [Core.put_sfqqSize, Core.length_put]
    exact h.core.size
  heap := h.heap.put

/-- A waiting request that is merged away leaves its freed record in the queue of its process, and a dispatch that
comes to the record hands out what the freed memory names. -/
theorem merge_leaves_freed_record (h : (elevator wrap).Reachable w) {junk : SfqRequest} {o : Out}
    (hl : ((elevatorType wrap).protocol true).legal w (.mergeReq rq next junk))
    (hs : ((elevatorType wrap).protocol true).step w (.mergeReq rq next junk) = some (o, w')) :
    ∃ q ∈ w'.elv.queue, q.pid = w.owner next ∧ ∃ a ∈ q.queue, w'.elv.live a = false ∧ w'.elv.pool a = junk ∧
      ∀ force rest r, w'.elv.sfqq? (RoundRobin.next w'.elv.queue.length w'.elv.sfqqTotalSeek) = some q →
        q.queue = a :: rest → ¬ Passes w'.elv q → w'.elv.requests ≠ none → junk.rq = some r →
        ∃ u, (elevator wrap).machine.step w' (.dispatch force) = some (⟨1, some r, false⟩, u) := by
  have hinv := Inv.of_reachable h
  have hcore := hinv.core
  obtain ⟨-, -, hnext, -⟩ := hl
  obtain ⟨q, hq, a, ha, hrq⟩ := hcore.waits next hnext
  obtain ⟨r, hr, -, hpriv, hown⟩ := hcore.linked q hq a ha
  obtain rfl : r = next := Option.some.inj (hr.symm.trans hrq)
  cases hs
  have hput : w.elv.toCore.put r junk =
      { w.elv.toCore with pool := Function.update w.elv.pool a junk, live := Function.update w.elv.live a false } := by
    have hpriv : w.elv.priv1 r = some a := hpriv
    simp only [Core.put, hpriv]
  have hfreed : (w.elv.toCore.put r junk).live a = false ∧ (w.elv.toCore.put r junk).pool a = junk := by
    rw [hput]
    exact ⟨Function.update_self .., Function.update_self ..⟩
  refine ⟨q, ?_, hown.symm, a, ha, hfreed.1, hfreed.2, ?_⟩
  · show q ∈ (w.elv.toCore.put r junk).queue
    rw [hput]
    exact hq
  · intro force rest x hcursor hhead hpasses hrequests hx
    obtain ⟨b, hb⟩ := Option.ne_none_iff_exists'.mp hrequests
    have hnamed : ((w.elv.toCore.put r junk).pool a).rq = some x := by rw [hfreed.2, hx]
    have hdispatch : sfqDispatch { w.elv with toCore := w.elv.toCore.put r junk } force = _ :=
      sfqDispatch_serves (put_ready hinv junk) hcursor hhead hpasses hb hnamed
    exact ⟨_, (ElevatorOps.step_eq_some _).mpr ⟨_, hdispatch, rfl⟩⟩

/-- The record of request 2 is reused for something else that names request 5, and the next dispatch hands that out. -/
theorem merge_leaves_freed_record_two :
    ∃ w w' o u, (elevator id).Reachable w ∧
      ((elevatorType id).protocol true).step w (.mergeReq 1 2 ⟨0, 0, some 5⟩) = some (o, w') ∧
      w'.elv.queue = [⟨7, [0]⟩, ⟨8, [1]⟩] ∧ w'.elv.live 0 = false ∧
      (elevator id).machine.step w' (.dispatch false) = some (⟨1, some 5, false⟩, u) := by
  have hplays : (elevator id).machine.Plays (elevator id).init [granted 2 7 0, granted 1 8 1, .addRequest 2, .addRequest 1]
      (fun _ w => (w.phase 1 = .added ∧ w.phase 2 = .added ∧ w.owner 2 = 7) ∧
        ∃ r ∈ ((elevatorType id).protocol true).step w (.mergeReq 1 2 ⟨0, 0, some 5⟩),
          r.2.elv.queue = [⟨7, [0]⟩, ⟨8, [1]⟩] ∧ r.2.elv.sfqqTotalSeek = 0 ∧ r.2.elv.depth = 0 ∧
            r.2.elv.requests ≠ none) := by decide
  obtain ⟨tr, w, hr, -, ⟨h₁, h₂, howner⟩, ⟨o, w'⟩, hs, hqueue, hseek, hdepth, hrequests⟩ := hplays.exists_run
  dsimp only at hqueue hseek hdepth hrequests
  obtain ⟨q, hq, hpid, a, ha, hlive, -, hserves⟩ := merge_leaves_freed_record ⟨tr, hr⟩ ⟨rfl, h₁, h₂, by decide⟩ hs
  obtain rfl : q = ⟨7, [0]⟩ := by
    rw [hqueue] at hq
    rw [howner] at hpid
    rcases List.mem_pair.mp hq with rfl | rfl
    · rfl
    · cases hpid
  obtain rfl : a = 0 := List.mem_singleton.mp ha
  obtain ⟨u, hu⟩ := hserves false [] 5 (by simp [hqueue, hseek, RoundRobin.next, Core.sfqq?]) rfl
    (by simp [Passes, hqueue, hdepth, requestDepth]) hrequests rfl
  exact ⟨w, w', o, u, ⟨tr, hr⟩, hs, hqueue, hlive, hu⟩

end Merging

end SsdScheduler.Iosched12
