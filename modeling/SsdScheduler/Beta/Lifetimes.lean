import SsdScheduler.Beta.Runs

/-! # The records of `sfq_pool` -/

namespace SsdScheduler.Iosched12

open Framework Framework.Heap Sfq

variable {wrap : Int → Int} {w w' : World SeekData} {o : Out} {c : Call SetEnv Bool SfqRequest}
  {tr : List (Event (World SeekData) (Call SetEnv Bool SfqRequest) Out)}

/-- The results of `kmem_cache_alloc_node` by request, after a call. -/
def allocate (f : Rq → Option Addr) : Call SetEnv Bool SfqRequest → Rq → Option Addr
  | .setRequest rq _ env => Function.update f rq env.sfqr
  | _ => f

/-- The record that was allocated for a request when it was last set. -/
def allocated (tr : List (Event (World SeekData) (Call SetEnv Bool SfqRequest) Out)) : Rq → Option Addr :=
  tr.foldl (fun f e => allocate f e.call) fun _ => none

/-- `elv.priv[1]` is written where the record is allocated, and nowhere else. -/
theorem priv1_step (h : Inv w) (hs : (elevator wrap).machine.step w c = some (o, w')) :
    w'.elv.priv1 = allocate w.elv.priv1 c := by
  obtain ⟨s, hc, rfl⟩ := (ElevatorOps.step_eq_some _).mp hs
  rw [World.after_elv]
  cases c with
  | setRequest rq pid env =>
    obtain ⟨-, rfl, rfl⟩ := sfqSetRequest_eq_some.mp hc
    change (Core.allocSfqr _ rq _ _).priv1 = Function.update w.elv.priv1 rq env.sfqr
    rw [Core.allocSfqr_priv1, Core.register_priv1]
  | addRequest rq =>
    obtain ⟨c, hadd, rfl, rfl⟩ := sfqAddRequest_eq_some.mp hc
    exact Core.addRequest_priv1 hadd
  | dispatch force => cases (sfqDispatch_iff force h.ready h.rq_ne_none).mp hc <;> rfl
  | completed rq =>
    obtain ⟨rfl, rfl⟩ := (sfqCompleted_eq_some rq).mp hc
    change w.elv.completed.2.priv1 = w.elv.priv1
    rw [SfqData.completed_toCore]
    rfl
  | putRequest rq junk =>
    cases hc
    exact Core.put_priv1 junk

theorem allocated_eq (hr : (elevator wrap).machine.Run (elevator wrap).init tr w) : w.elv.priv1 = allocated tr := by
  have hboth : Inv w ∧ w.elv.priv1 = allocated tr := by
    apply hr.history (P := fun w f => Inv w ∧ w.elv.priv1 = f)
    · intro e f h hl hs
      exact ⟨h.1.step hl hs, h.2 ▸ priv1_step h.1 hs⟩
    · exact ⟨.init, rfl⟩
  exact hboth.2

/-- A record that `sfq_put_request` frees is the one allocated for the request, and lies in no queue
and not in the heap; the records that wait are live, and each is linked for the request it was
allocated for. -/
theorem records_outlive_requests (hr : (elevator wrap).machine.Run (elevator wrap).init tr w) :
    (∀ rq junk a, (elevator wrap).machine.legal w (.putRequest rq junk) → w.elv.priv1 rq = some a →
      allocated tr rq = some a ∧ w.elv.live a = true ∧ (∀ q ∈ w.elv.queue, a ∉ q.queue) ∧
      ∀ b, w.elv.requests = some b → ∀ j < w.elv.heapSize, load b j ≠ some a) ∧
    (∀ rq, w.phase rq = .added → ∃ q ∈ w.elv.queue, ∃ a ∈ q.queue, q.pid = w.owner rq ∧
      w.elv.priv1 rq = some a ∧ (w.elv.pool a).rq = some rq) ∧
    ∀ q ∈ w.elv.queue, ∀ a ∈ q.queue, w.elv.live a = true ∧ ∃ rq, w.phase rq = .added ∧
      w.elv.priv1 rq = some a ∧ allocated tr rq = some a ∧ (w.elv.pool a).rq = some rq := by
  have h := Inv.of_reachable ⟨tr, hr⟩
  refine ⟨?_, ?_, ?_⟩
  · intro rq junk a hl hp
    have hput : w.phase rq = .set ∨ w.phase rq = .completed := hl
    have hbusy : w.phase rq ≠ .idle := (World.phase_of_put hput).1
    refine ⟨allocated_eq hr ▸ hp, h.core.live rq a hbusy hp, ?_, ?_⟩
    · intro q hq ha
      obtain ⟨-, hadded, -⟩ := h.core.linked_of_priv1 hq ha hbusy hp
      rw [show w.phase rq = .added from hadded] at hput
      simp at hput
    · intro b _ j hj
      simp [h.heap.empty] at hj
  · intro rq hrq
    obtain ⟨q, hq, a, ha, hpool⟩ := h.core.waits rq hrq
    obtain ⟨rq', hrq', -, hpriv, how⟩ := h.core.linked q hq a ha
    obtain rfl : rq' = rq := Option.some.inj (hrq'.symm.trans hpool)
    exact ⟨q, hq, a, ha, how.symm, hpriv, hpool⟩
  · intro q hq a ha
    obtain ⟨rq, hrq, hadded, hpriv, -⟩ := h.core.linked q hq a ha
    exact ⟨h.core.live_of_linked hq ha, rq, hadded, hpriv, allocated_eq hr ▸ hpriv, hrq⟩

/-- A record is freed and handed out again for a request that now waits. -/
theorem records_outlive_requests_reused :
    ∃ tr w, (elevator id).machine.Run (elevator id).init tr w ∧ allocated tr 1 = allocated tr 2 ∧
      ∃ q ∈ w.elv.queue, ∃ a ∈ q.queue, q.pid = w.owner 2 ∧ w.elv.priv1 2 = some a ∧ (w.elv.pool a).rq = some 2 := by
  have hplay : (elevator id).machine.Plays (elevator id).init
      [granted 1 7 0, .putRequest 1 ⟨9, 9, some 9⟩, granted 2 7 0, .addRequest 2] fun tr w =>
        w.phase 2 = .added ∧ allocated tr 1 = allocated tr 2 := by decide
  obtain ⟨tr, w, hr, -, hadded, hsame⟩ := hplay.exists_run
  exact ⟨tr, w, hr, hsame, (records_outlive_requests hr).2.1 2 hadded⟩

end SsdScheduler.Iosched12
