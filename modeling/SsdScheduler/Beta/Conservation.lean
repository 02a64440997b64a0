import SsdScheduler.Beta.Runs

/-! # No request lost, no queue skipped -/

namespace SsdScheduler.Iosched12

open Framework Framework.RoundRobin Sfq

variable {wrap : Int → Int} {w w' : World SeekData} {o : Out} {c : Call SetEnv Bool SfqRequest}

private theorem dispatched_of_step (h : Inv w) {rq : Rq}
    (hs : (elevator wrap).machine.step w c = some (o, w')) (hd : o.dispatched = some rq) :
    w.phase rq = .added ∧ w'.phase rq = .dispatched := by
  cases c with
  | dispatch force =>
    obtain ⟨s, ht, rfl⟩ := h.dispatch_iff.mp hs
    refine ⟨h.added_of_turn ht hd, ?_⟩
    rw [hd]
    exact Function.update_self _ _ _
  | _ => exact absurd ((dispatched_eq_none hs rfl).symm.trans hd) (by simp)

/-- Between calls an added request is in its own process's queue or dispatched, and the heap is
empty; each process is served in the order in which it added; `depth` and `sfqr_size` count what
they are meant to count; and no call fails. -/
theorem requests_conserved
    (h : (granting (elevator wrap)).Reachable (elevator wrap).init w) :
    w.elv.heapSize = 0 ∧
    (∀ rq p, (w.elv.waiting p).count rq = if w.phase rq = .added ∧ w.owner rq = p then 1 else 0) ∧
    (∀ p, w.addedBy p = w.dispatchedBy p ++ w.elv.waiting p) ∧
    (∀ c o w' rq, (granting (elevator wrap)).legal w c →
      (granting (elevator wrap)).step w c = some (o, w') → o.dispatched = some rq →
      w.phase rq = .added ∧ w'.phase rq = .dispatched) ∧
    (w.outstanding.Finite ∧ w.elv.depth = w.outstanding.ncard ∧ 0 ≤ w.elv.depth) ∧
    w.elv.sfqrSize = w.elv.load + w.elv.depth ∧
    ∀ c, (granting (elevator wrap)).legal w c → ∃ o w', (granting (elevator wrap)).step w c = some (o, w') := by
  obtain ⟨hinv, hsup⟩ := of_granting h
  obtain ⟨hfin, hdepth⟩ := hinv.core.depth_eq_ncard
  refine ⟨hinv.heap.empty, hinv.core.count_waiting, hinv.core.fifo, ?_, ⟨hfin, hdepth, ?_⟩,
    hinv.core.count, fun c hl => exists_step hinv hsup hl⟩
  · intro c o w' rq _ hs hd
    exact dispatched_of_step hinv hs hd
  · have hpos : (0 : Int) ≤ (coreWorld w).outstanding.ncard := Int.natCast_nonneg _
    exact hpos.trans_eq hdepth.symm

theorem requests_conserved_after_dispatch :
    ∃ w, (granting (elevator id)).Reachable (elevator id).init w ∧ w.elv.depth = 1 ∧ w.elv.load = 1 ∧
      w.elv.sfqrSize = w.elv.load + w.elv.depth ∧ w.addedBy 7 = w.dispatchedBy 7 ++ w.elv.waiting 7 := by
  have hplay : (granting (elevator id)).Plays (elevator id).init
      [granted 1 7 0, granted 2 8 1, .addRequest 1, .addRequest 2, .dispatch false] fun _ w =>
        w.elv.depth = 1 ∧ w.elv.load = 1 := by decide
  obtain ⟨tr, w, hr, -, hd, hl⟩ := hplay.exists_run
  have h := requests_conserved ⟨tr, hr⟩
  exact ⟨w, ⟨tr, hr⟩, hd, hl, h.2.2.2.2.2.1, h.2.2.1 7⟩

theorem osSfqq_step (h : Inv w) (hs : (elevator wrap).machine.step w c = some (o, w')) :
    w'.elv.osSfqq = none ↔ w.elv.osSfqq = none ∧ (c.isDispatch = true → w.elv.queue = []) := by
  cases c with
  | setRequest rq pid env =>
    obtain ⟨s, hc, rfl⟩ := (ElevatorOps.step_eq_some _).mp hs
    obtain ⟨-, rfl, rfl⟩ := sfqSetRequest_eq_some.mp hc
    simp [World.after, World.onSet, Call.isDispatch]
  | addRequest rq =>
    obtain ⟨s, hc, rfl⟩ := (ElevatorOps.step_eq_some _).mp hs
    obtain ⟨c, hadd, rfl, rfl⟩ := sfqAddRequest_eq_some.mp hc
    simp [World.after, World.onAdd, Call.isDispatch]
  | dispatch force =>
    obtain ⟨s, ht, rfl⟩ := h.dispatch_iff.mp hs
    have hne {q : SfqQueue} (hq : w.elv.sfqq? (next w.elv.queue.length w.elv.sfqqTotalSeek) = some q) :
        w.elv.queue ≠ [] := by
      obtain ⟨k, -, hk⟩ := Core.sfqq?_eq_some.mp hq
      exact List.ne_nil_of_mem (List.mem_of_getElem? hk)
    cases ht with
    | empty hn => simp [World.onDispatch, Out.quiet, hn]
    | passes hq hp => simp [World.onDispatch, Out.quiet, turned_osSfqq, Call.isDispatch, hne hq]
    | serves hq hl hp hr hrq => simp [World.onDispatch, turned_osSfqq, Call.isDispatch, hne hq]
  | completed rq =>
    obtain ⟨s, hc, rfl⟩ := (ElevatorOps.step_eq_some _).mp hs
    obtain ⟨rfl, rfl⟩ := (sfqCompleted_eq_some rq).mp hc
    simp [World.after, World.onCompleted, SfqData.completed_osSfqq, Call.isDispatch]
  | putRequest rq junk =>
    obtain ⟨s, hc, rfl⟩ := (ElevatorOps.step_eq_some _).mp hs
    cases hc
    simp [World.after, World.onPut, SfqData.putRequest, Call.isDispatch]

private theorem osSfqq_run {tr : List (Event _ _ Out)} (h : Inv w)
    (hr : (granting (elevator wrap)).Run w tr w') :
    w'.elv.osSfqq = none ↔
      w.elv.osSfqq = none ∧ ∀ e ∈ tr, e.call.isDispatch = true → e.pre.elv.queue = [] := by
  induction hr with
  | nil => simp
  | cons hl hs _ ih =>
    rw [ih (h.step hl.1 hs), osSfqq_step h hs]
    simp [and_assoc]

/-- The processes are distinct and counted, the cursor is `NULL` until the first dispatch with a
process and then the queue its counter names, and a dispatch moves it to the cyclic successor with
at most one jump, without ever following the list head. -/
theorem cursor_round_robin {tr : List (Event _ _ Out)}
    (hr : (granting (elevator wrap)).Run (elevator wrap).init tr w) :
    (w.elv.queue.map SfqQueue.pid).Nodup ∧
    w.elv.sfqqSize = w.elv.queue.length ∧ w.elv.heapLimitSize = w.elv.queue.length ∧
    w.elv.Seeks ∧
    (w.elv.osSfqq = none ↔ ∀ e ∈ tr, e.call.isDispatch = true → e.pre.elv.queue = []) ∧
    (w.elv.queue ≠ [] → ∀ force, ∃ o s, sfqDispatch w.elv force = some (o, s) ∧
      s.osSfqq = some (next w.elv.queue.length w.elv.sfqqTotalSeek) ∧
      s.sfqqTotalSeek = next w.elv.queue.length w.elv.sfqqTotalSeek ∧
      (w.elv.osSfqq ≠ none → ∃ jumps t,
        SeekData.nextDispatch (w.elv.queue.length + 2) { w.elv with idleSliceTimer := false } = some (jumps, t) ∧
          jumps ≤ 1)) := by
  obtain ⟨hinv, hsup⟩ := of_granting ⟨tr, hr⟩
  refine ⟨hinv.core.pids, hinv.core.size, hinv.heap.limit, hinv.seeks, ?_, ?_⟩
  · simpa [elevator, ElevatorOps.init, initQueue, SeekData.initial] using osSfqq_run .init hr
  · intro hn force
    obtain ⟨o, s, ht⟩ := exists_turn hinv.rq_ne_none hsup.requests
    refine ⟨o, s, (sfqDispatch_iff force hinv.ready hinv.rq_ne_none).mpr ht, ?_, ?_, ?_⟩
    · cases ht with
      | empty he => exact absurd he hn
      | passes => rfl
      | serves => rfl
    · cases ht with
      | empty he => exact absurd he hn
      | passes => rfl
      | serves => rfl
    · intro hos
      rcases hinv.seeks with ⟨hnone, -⟩ | ⟨hos, h1, h2⟩
      · exact absurd hnone hos
      · refine ⟨_, _, SeekData.nextDispatch_eq (s := { w.elv with idleSliceTimer := false })
          hos h1 h2 hinv.core.size _, ?_⟩
        split <;> omega

theorem cursor_round_robin_wrapping :
    ∃ w, (granting (elevator id)).Reachable (elevator id).init w ∧ w.elv.osSfqq = some 2 ∧
      ∃ o s, sfqDispatch w.elv false = some (o, s) ∧ s.osSfqq = some (next w.elv.queue.length 2) := by
  have hplay : (granting (elevator id)).Plays (elevator id).init
      [granted 1 7 0, .dispatch false, granted 2 8 1, .addRequest 2, .dispatch false] fun _ w =>
        w.elv.osSfqq = some 2 ∧ w.elv.sfqqTotalSeek = 2 ∧ w.elv.queue ≠ [] := by decide
  obtain ⟨tr, w, hr, -, hos, hseek, hn⟩ := hplay.exists_run
  obtain ⟨o, s, hd, hnext, -⟩ := (cursor_round_robin hr).2.2.2.2.2 hn false
  exact ⟨w, ⟨tr, hr⟩, hos, o, s, hd, by rw [hnext, hseek]⟩

/-- The request that a dispatch hands out is the oldest of its process by start tag, and the heap
holds no other. -/
theorem dispatch_oldest_of_process (h : (elevator wrap).Reachable w) {force : Bool} {rq : Rq}
    (hs : (elevator wrap).machine.step w (.dispatch force) = some (o, w')) (hd : o.dispatched = some rq) :
    w.elv.heapSize = 0 ∧ rq ∈ w.elv.waiting (w.owner rq) ∧
      ∃ a, w.elv.priv1 rq = some a ∧ ∀ rq' ∈ w.elv.waiting (w.owner rq), ∃ a', w.elv.priv1 rq' = some a' ∧
        (w.elv.pool a).startTag ≤ (w.elv.pool a').startTag := by
  have hinv := Inv.of_reachable h
  obtain ⟨s, ht, rfl⟩ := hinv.dispatch_iff.mp hs
  refine ⟨hinv.heap.empty, hinv.core.mem_waiting.mpr ⟨hinv.added_of_turn ht hd, rfl⟩, ?_⟩
  cases ht with
  | empty hn => simp [Out.quiet] at hd
  | passes hq hp => simp [Out.quiet] at hd
  | @serves q a rest b r hq hl hp hr hrq =>
    obtain rfl : r = rq := by simpa using hd
    obtain ⟨k, -, hk⟩ := Core.sfqq?_eq_some.mp hq
    have hqm := List.mem_of_getElem? hk
    obtain ⟨r', hr', -, hpriv, how⟩ := hinv.core.linked q hqm a (by simp [hl])
    obtain rfl : r' = r := Option.some.inj (hr'.symm.trans hrq)
    exact ⟨a, hpriv, fun rq' hrq' => hinv.core.head_oldest hqm hl (how ▸ hrq')⟩

theorem dispatch_oldest_of_process_second :
    ∃ w w' o, (elevator id).Reachable w ∧ (elevator id).machine.step w (.dispatch false) = some (o, w') ∧
      o.dispatched = some 3 ∧ 3 ∈ w.elv.waiting (w.owner 3) := by
  have hplay : (elevator id).machine.Plays (elevator id).init
      [granted 1 7 0, granted 2 7 1, granted 3 8 2, .addRequest 1, .addRequest 2, .addRequest 3, .dispatch false]
      fun _ w => ((elevator id).machine.step w (.dispatch false)).any (·.1.dispatched == some 3) = true := by
    decide
  obtain ⟨tr, w, hr, -, hd⟩ := hplay.exists_run
  obtain ⟨⟨o, w'⟩, hs, ho⟩ := (Option.any_eq_true _ _).mp hd
  have ho : o.dispatched = some 3 := by simpa using ho
  exact ⟨w, w', o, ⟨tr, hr⟩, hs, ho, (dispatch_oldest_of_process ⟨tr, hr⟩ hs ho).2.1⟩

/-- With requests 1 and 2 of one process and 3 of another, added in this order, the second dispatch
hands out 3 while 2 waits with a smaller start tag. -/
theorem dispatch_not_oldest :
    ∃ w w' o a a', (elevator id).Reachable w ∧
      (elevator id).machine.step w (.dispatch false) = some (o, w') ∧ o.dispatched = some 3 ∧
      2 ∈ w.elv.waiting 7 ∧ w.elv.priv1 3 = some a ∧ w.elv.priv1 2 = some a' ∧
      (w.elv.pool a').startTag < (w.elv.pool a).startTag := by
  have hplay : (elevator id).machine.Plays (elevator id).init
      [granted 1 7 0, granted 2 7 1, granted 3 8 2, .addRequest 1, .addRequest 2, .addRequest 3, .dispatch false]
      fun _ w => ((elevator id).machine.step w (.dispatch false)).any (·.1.dispatched == some 3) = true ∧
        2 ∈ w.elv.waiting 7 ∧ w.elv.priv1 3 = some 2 ∧ w.elv.priv1 2 = some 1 ∧
        (w.elv.pool 1).startTag < (w.elv.pool 2).startTag := by
    decide
  obtain ⟨tr, w, hr, -, hd, hw, h3, h2, hlt⟩ := hplay.exists_run
  obtain ⟨⟨o, w'⟩, hs, ho⟩ := (Option.any_eq_true _ _).mp hd
  exact ⟨w, w', o, 2, 1, ⟨tr, hr⟩, hs, by simpa using ho, hw, h3, h2, hlt⟩

end SsdScheduler.Iosched12
