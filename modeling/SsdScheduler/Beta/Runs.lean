import SsdScheduler.Beta.Dispatch
import SsdScheduler.Sfq.Supply

/-!
# Runs of `sfq-iosched_12.c`

Every call of the block layer is a step of the process queues, so runs inherit the invariant of
the queues. It holds whether or not allocations succeed.
-/

namespace SsdScheduler.Iosched12

open Framework Framework.RoundRobin Sfq

structure Inv (w : World SeekData) : Prop where
  core : CoreInv (coreWorld w)
  seeks : w.elv.Seeks
  heap : w.elv.HeapIdle

namespace Inv

variable {wrap : Int → Int} {w w' : World SeekData} {o : Out} {c : Call SetEnv Bool SfqRequest}

theorem ready (h : Inv w) : Ready w.elv := ⟨h.seeks, h.core.size, h.heap⟩

theorem rq_ne_none (h : Inv w) : ∀ q ∈ w.elv.queue, ∀ a ∈ q.queue, (w.elv.pool a).rq ≠ none := by
  intro q hq a ha
  obtain ⟨rq, hrq, -⟩ := h.core.linked q hq a ha
  exact Option.ne_none_iff_exists'.mpr ⟨rq, hrq⟩

theorem dispatch_iff (h : Inv w) {force : Bool} :
    (elevator wrap).machine.step w (.dispatch force) = some (o, w') ↔
      ∃ s, Turn w.elv o s ∧ w' = w.onDispatch s o.dispatched := by
  rw [ElevatorOps.step_eq_some]
  refine exists_congr fun s => and_congr_left' ?_
  exact sfqDispatch_iff force h.ready h.rq_ne_none

/-- Every call is a step of the process queues. -/
theorem coreStep (h : Inv w) (hl : (elevator wrap).machine.legal w c)
    (hs : (elevator wrap).machine.step w c = some (o, w')) :
    CoreStep wrap (coreWorld w) (coreWorld w') := by
  cases c with
  | setRequest rq pid env =>
    obtain ⟨s, hc, rfl⟩ := (ElevatorOps.step_eq_some _).mp hs
    obtain ⟨-, rfl, rfl⟩ := sfqSetRequest_eq_some.mp hc
    refine .set rq pid env.sfqr hl.1 fun a ha => ?_
    have hfree : env.sfqr.all (fun a => !w.elv.live a) = true := hl.2
    simpa [ha] using hfree
  | addRequest rq =>
    obtain ⟨s, hc, rfl⟩ := (ElevatorOps.step_eq_some _).mp hs
    obtain ⟨c, hadd, rfl, rfl⟩ := sfqAddRequest_eq_some.mp hc
    exact .add rq hl hadd
  | dispatch force =>
    obtain ⟨s, ht, rfl⟩ := h.dispatch_iff.mp hs
    cases ht with
    | empty hn => exact .skip _
    | passes hq hp => exact .skip _
    | serves hq hl hp hr hrq =>
      obtain ⟨k, hk, hq⟩ := Core.sfqq?_eq_some.mp hq
      rw [hk]
      exact .serve hq hl hrq
  | completed rq =>
    obtain ⟨s, hc, rfl⟩ := (ElevatorOps.step_eq_some _).mp hs
    obtain ⟨rfl, rfl⟩ := (sfqCompleted_eq_some rq).mp hc
    have hstep : CoreStep wrap (coreWorld w) ((coreWorld w).onCompleted w.elv.completed.2.toCore rq) := by
      rw [SfqData.completed_toCore]
      exact .complete rq hl
    exact hstep
  | putRequest rq junk =>
    obtain ⟨s, hc, rfl⟩ := (ElevatorOps.step_eq_some _).mp hs
    cases hc
    exact .put rq junk hl

theorem step (h : Inv w) (hl : (elevator wrap).machine.legal w c)
    (hs : (elevator wrap).machine.step w c = some (o, w')) : Inv w' := by
  obtain ⟨hseeks, hheap⟩ : w'.elv.Seeks ∧ w'.elv.HeapIdle := by
    obtain ⟨s, hc, rfl⟩ := (ElevatorOps.step_eq_some _).mp hs
    cases c with
    | setRequest rq pid env =>
      obtain ⟨-, rfl, rfl⟩ := sfqSetRequest_eq_some.mp hc
      refine ⟨h.seeks.congr SfqData.grown_osSfqq rfl ?_, h.heap.set⟩
      change _ ≤ (Core.allocSfqr _ rq _ _).queue.length
      rw [Core.allocSfqr_queue]
      exact Core.length_register _ _
    | addRequest rq =>
      obtain ⟨c, hadd, rfl, rfl⟩ := sfqAddRequest_eq_some.mp hc
      exact ⟨h.seeks.congr rfl rfl (Core.length_addRequest hadd).symm.le, h.heap.addRequest hadd⟩
    | dispatch force =>
      have ht := (sfqDispatch_iff force h.ready h.rq_ne_none).mp hc
      have helv : (w.onDispatch s o.dispatched).elv = s := by cases o.dispatched <;> rfl
      change (w.onDispatch s o.dispatched).elv.Seeks ∧ (w.onDispatch s o.dispatched).elv.HeapIdle
      rw [helv]
      exact ⟨ht.seeks h.seeks, ht.heap h.heap⟩
    | completed rq =>
      obtain ⟨rfl, rfl⟩ := (sfqCompleted_eq_some rq).mp hc
      refine ⟨h.seeks.congr (SfqData.completed_osSfqq _) rfl ?_, h.heap.completed⟩
      change _ ≤ w.elv.completed.2.toCore.queue.length
      rw [SfqData.completed_toCore]
      exact Nat.le_refl _
    | putRequest rq junk =>
      cases hc
      exact ⟨h.seeks.congr rfl rfl (Core.length_put junk).symm.le, h.heap.put⟩
  exact ⟨h.core.step (h.coreStep hl hs), hseeks, hheap⟩

theorem init : Inv (elevator wrap).init :=
  ⟨CoreInv.init, .inl ⟨rfl, rfl⟩, rfl, rfl, fun _ h => nomatch h⟩

theorem of_reachable (h : (elevator wrap).Reachable w) : Inv w :=
  h.invariant (fun _ _ _ _ hi hl hs => hi.step hl hs) init

theorem run {tr : List (Event _ _ Out)} (h : Inv w) (hr : (elevator wrap).machine.Run w tr w') : Inv w' :=
  hr.invariant (fun _ _ _ _ hi hl hs => hi.step hl hs) h

/-- A request that is handed out was waiting. -/
theorem added_of_turn (h : Inv w) {s : SeekData} {rq : Rq} (ht : Turn w.elv o s)
    (hd : o.dispatched = some rq) : w.phase rq = .added := by
  cases ht with
  | empty hn => simp [Out.quiet] at hd
  | passes hq hp => simp [Out.quiet] at hd
  | @serves q a rest b rq' hq hl hp hr hrq =>
    obtain rfl : rq' = rq := by simpa using hd
    obtain ⟨k, -, hk⟩ := Core.sfqq?_eq_some.mp hq
    obtain ⟨rq, hrq', hph, -⟩ := h.core.linked q (List.mem_of_getElem? hk) a (by simp [hl])
    obtain rfl : rq = rq' := Option.some.inj (hrq'.symm.trans hrq)
    exact hph

end Inv

/-- Only a dispatch hands out requests. -/
theorem dispatched_eq_none {wrap : Int → Int} {w w' : World SeekData} {o : Out}
    {c : Call SetEnv Bool SfqRequest} (hs : (elevator wrap).machine.step w c = some (o, w'))
    (hc : c.isDispatch = false) : o.dispatched = none := by
  obtain ⟨s, hcall, rfl⟩ := (ElevatorOps.step_eq_some _).mp hs
  cases c with
  | setRequest rq pid env =>
    obtain ⟨-, rfl, rfl⟩ := sfqSetRequest_eq_some.mp hcall
    rfl
  | addRequest rq =>
    obtain ⟨c, hadd, rfl, rfl⟩ := sfqAddRequest_eq_some.mp hcall
    rfl
  | dispatch force => simp [Call.isDispatch] at hc
  | completed rq =>
    obtain ⟨rfl, rfl⟩ := (sfqCompleted_eq_some rq).mp hcall
    exact (SfqData.completed_agrees _).2
  | putRequest rq junk =>
    cases hcall
    rfl

abbrev dataWorld (w : World SeekData) : World SfqData := w.map SeekData.toSfqData

section Supplies

variable {wrap : Int → Int} {w w' : World SeekData} {o : Out} {c : Call SetEnv Bool SfqRequest}

theorem supplied_step (h : Inv w) (hsup : Supplied (dataWorld w)) (hl : (granting (elevator wrap)).legal w c)
    (hs : (granting (elevator wrap)).step w c = some (o, w')) : Supplied (dataWorld w') := by
  obtain ⟨s, hc, rfl⟩ := (ElevatorOps.step_eq_some _).mp hs
  cases c with
  | setRequest rq pid env =>
    obtain ⟨-, rfl, rfl⟩ := sfqSetRequest_eq_some.mp hc
    exact hsup.set hl.2.1 hl.2.2.2
  | addRequest rq =>
    obtain ⟨c, hadd, rfl, rfl⟩ := sfqAddRequest_eq_some.mp hc
    have hph : w.phase rq ≠ .idle := by rw [show w.phase rq = .set from hl.1]; decide
    exact hsup.frame (Core.length_addRequest hadd) id (Core.addRequest_priv1 hadd)
      fun rq' => World.busy_of_update hph
  | dispatch force =>
    have ht := (sfqDispatch_iff force h.ready h.rq_ne_none).mp hc
    have hph : ∀ rq, o.dispatched = some rq → w.phase rq = .added := fun _ => h.added_of_turn ht
    cases ht with
    | empty hn => exact hsup.frame rfl id rfl fun _ => id
    | passes hq hp => exact hsup.frame rfl id rfl fun _ => id
    | serves hq hl hp hr hrq =>
      refine hsup.frame (Core.length_setQueue _) (fun _ => Option.some_ne_none _) rfl fun rq' => ?_
      apply World.busy_of_update
      rw [hph _ rfl]
      decide
  | completed rq =>
    obtain ⟨rfl, rfl⟩ := (sfqCompleted_eq_some rq).mp hc
    have hph : w.phase rq ≠ .idle := by rw [show w.phase rq = .dispatched from hl.1]; decide
    refine hsup.frame ?_ ?_ ?_ fun rq' => World.busy_of_update hph
    · exact congrArg (fun c => c.queue.length) (SfqData.completed_toCore w.elv.toSfqData)
    · intro hr
      exact (SfqData.completed_requests _).trans_ne hr
    · change w.elv.completed.2.priv1 = w.elv.priv1
      rw [SfqData.completed_toCore]
      rfl
  | putRequest rq junk =>
    cases hc
    have hph : w.phase rq ≠ .idle := (World.phase_of_put hl.1).1
    exact hsup.frame (Core.length_put junk) id (Core.put_priv1 junk) fun rq' => World.busy_of_update hph

/-- What holds in every world that is reached while all allocations succeed. -/
theorem of_granting (h : (granting (elevator wrap)).Reachable (elevator wrap).init w) :
    Inv w ∧ Supplied (dataWorld w) := by
  apply h.invariant
  · intro w c o w' hw hl hs
    exact ⟨hw.1.step hl.1 hs, supplied_step hw.1 hw.2 hl hs⟩
  · exact ⟨.init, fun hn => absurd rfl hn, fun _ hn => absurd rfl hn⟩

/-- While allocations succeed, the scheduler survives every call. -/
theorem exists_step (h : Inv w) (hsup : Supplied (dataWorld w)) (hl : (granting (elevator wrap)).legal w c) :
    ∃ o w', (granting (elevator wrap)).step w c = some (o, w') := by
  obtain ⟨o, s, hcall⟩ : ∃ o s, (elevator wrap).call w.elv c = some (o, s) := by
    cases c with
    | setRequest rq pid env =>
      have hq : env.sfqq = true := hl.2.2.1
      exact ⟨_, _, sfqSetRequest_eq_some.mpr ⟨by rw [hq, Bool.or_true], rfl, rfl⟩⟩
    | addRequest rq =>
      have hs : w.phase rq = .set := hl.1
      have hp : w.elv.priv1 rq ≠ none := hsup.records rq (by rw [dataWorld, World.map_phase, hs]; decide)
      obtain ⟨c, hc⟩ := Option.ne_none_iff_exists'.mp (h.core.addRequest_ne_none wrap hs hp)
      exact ⟨_, _, sfqAddRequest_eq_some.mpr ⟨c, hc, rfl, rfl⟩⟩
    | dispatch force =>
      obtain ⟨o, s, ht⟩ := exists_turn h.rq_ne_none hsup.requests
      exact ⟨o, s, (sfqDispatch_iff force h.ready h.rq_ne_none).mpr ht⟩
    | completed rq => exact ⟨_, _, rfl⟩
    | putRequest rq junk => exact ⟨_, _, rfl⟩
  exact ⟨o, _, (ElevatorOps.step_eq_some _).mpr ⟨s, hcall, rfl⟩⟩

end Supplies

end SsdScheduler.Iosched12
