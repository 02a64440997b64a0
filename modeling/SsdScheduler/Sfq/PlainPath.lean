import SsdScheduler.Sfq.Supply

/-!
# Serving the queue under the cursor

What `sfq_3.c` and `sfq_4.c` have in common: every dispatch moves the cursor to the next queue and
hands out its head, unless there is none or the depth test refuses.
-/

namespace SsdScheduler.Sfq

open Framework Framework.RoundRobin

namespace Plain

def dispatch (v : View) : Option (Out × View) :=
  if v.core.queue = [] then some (.quiet false, v)
  else do
    let k := next v.core.queue.length v.sfqqTotalSeek
    let q ← v.core.sfqq? k
    match q.queue with
    | [] => some (.quiet false, ⟨v.core, some k, k⟩)
    | a :: rest =>
      if requestDepth < v.core.depth then some (.quiet false, ⟨v.core, some k, k⟩)
      else do
        let rq ← (v.core.pool a).rq
        some (⟨1, some rq, false⟩, ⟨v.core.serve k q rest, some k, k⟩)

def elevator (wrap : Int → Int) : ElevatorOps View SetEnv Bool SfqRequest where
  initQueue := SeekData.initial.view
  possible v env := env.sfqr.all fun a => !v.core.live a
  setRequest v rq pid env := some (.quiet false,
    { v with core := (v.core.register pid).2.allocSfqr rq (v.core.register pid).1 env.sfqr })
  addRequest v rq := (v.core.addRequest wrap rq).map fun c => (.quiet false, { v with core := c })
  dispatch v _ := dispatch v
  completed v _ := some (.quiet false, { v with core := v.core.complete })
  putRequest v rq junk := some (.quiet false, { v with core := v.core.put rq junk })

structure Inv (w : World View) : Prop where
  core : CoreInv (w.map View.core)
  seeks : Seeking w.elv.osSfqq w.elv.sfqqTotalSeek w.elv.core.queue.length
  records : ∀ rq, w.phase rq ≠ .idle → w.elv.core.priv1 rq ≠ none
  started : ∀ rq, w.phase rq = .dispatched → w.elv.osSfqq ≠ none

inductive Turn (v : View) : Out → View → Prop
  | empty (hn : v.core.queue = []) : Turn v (.quiet false) v
  | refuses {q : SfqQueue} (hq : v.core.sfqq? (next v.core.queue.length v.sfqqTotalSeek) = some q)
      (hr : q.queue = [] ∨ requestDepth < v.core.depth) :
      Turn v (.quiet false)
        ⟨v.core, some (next v.core.queue.length v.sfqqTotalSeek), next v.core.queue.length v.sfqqTotalSeek⟩
  | serves {q : SfqQueue} {a : Addr} {rest : List Addr} {rq : Rq}
      (hq : v.core.sfqq? (next v.core.queue.length v.sfqqTotalSeek) = some q) (hl : q.queue = a :: rest)
      (hd : ¬ requestDepth < v.core.depth) (hrq : (v.core.pool a).rq = some rq) :
      Turn v ⟨1, some rq, false⟩ ⟨v.core.serve (next v.core.queue.length v.sfqqTotalSeek) q rest,
        some (next v.core.queue.length v.sfqqTotalSeek), next v.core.queue.length v.sfqqTotalSeek⟩

variable {wrap : Int → Int} {w w' : World View} {o : Out} {c : Call SetEnv Bool SfqRequest}

theorem queue_ne_nil {v : View} {k : Nat} {q : SfqQueue} (hq : v.core.sfqq? k = some q) :
    v.core.queue ≠ [] := by
  obtain ⟨j, -, hj⟩ := Core.sfqq?_eq_some.mp hq
  exact List.ne_nil_of_mem (List.mem_of_getElem? hj)

theorem dispatch_of_turn {v v' : View} (ht : Turn v o v') : dispatch v = some (o, v') := by
  cases ht with
  | empty hn => simp [dispatch, hn]
  | @refuses q hq hr =>
    rcases hr with hr | hr
    · simp [dispatch, queue_ne_nil hq, hq, hr]
    · cases hl : q.queue <;> simp [dispatch, queue_ne_nil hq, hq, hr, hl]
  | serves hq hl hd hrq => simp [dispatch, queue_ne_nil hq, hq, hl, hd, hrq]

theorem exists_turn {v : View} (hrq : ∀ q ∈ v.core.queue, ∀ a ∈ q.queue, (v.core.pool a).rq ≠ none) :
    ∃ o v', Turn v o v' := by
  rcases eq_or_ne v.core.queue [] with hn | hn
  · exact ⟨_, _, .empty hn⟩
  · obtain ⟨q, hq⟩ := Core.exists_sfqq_next hn v.sfqqTotalSeek
    obtain ⟨k, -, hk⟩ := Core.sfqq?_eq_some.mp hq
    by_cases hr : q.queue = [] ∨ requestDepth < v.core.depth
    · exact ⟨_, _, .refuses hq hr⟩
    · cases hl : q.queue with
      | nil => exact absurd (.inl hl) hr
      | cons a rest =>
        obtain ⟨rq, hrq⟩ := Option.ne_none_iff_exists'.mp (hrq q (List.mem_of_getElem? hk) a (by simp [hl]))
        exact ⟨_, _, .serves hq hl (fun hd => hr (.inr hd)) hrq⟩

theorem Turn.coreStep {v' : View} (ht : Turn w.elv o v') :
    CoreStep wrap (w.map View.core) ((w.onDispatch v' o.dispatched).map View.core) := by
  cases ht with
  | empty hn => exact .skip _
  | refuses hq hr => exact .skip _
  | serves hq hl hd hrq =>
    obtain ⟨k, hk, hq⟩ := Core.sfqq?_eq_some.mp hq
    rw [hk]
    exact .serve hq hl hrq

namespace Inv

theorem init : Inv (elevator wrap).init where
  core := .init
  seeks := .inl ⟨rfl, rfl⟩
  records _ h := absurd rfl h
  started rq h := by cases h

theorem rq_ne_none (h : Inv w) : ∀ q ∈ w.elv.core.queue, ∀ a ∈ q.queue, (w.elv.core.pool a).rq ≠ none := by
  intro q hq a ha
  obtain ⟨rq, hrq, -⟩ := h.core.linked q hq a ha
  exact Option.ne_none_iff_exists'.mpr ⟨rq, hrq⟩

private theorem dispatch_step (h : Inv w) {v' : View} (ht : Turn w.elv o v') :
    Inv (w.onDispatch v' o.dispatched) := by
  have hstep : CoreStep id (w.map View.core) ((w.onDispatch v' o.dispatched).map View.core) := ht.coreStep
  have hcore := h.core.step hstep
  have hlen {k : Nat} {q : SfqQueue} (hq : w.elv.core.sfqq? k = some q) : 1 ≤ w.elv.core.queue.length :=
    List.length_pos_iff.mpr (queue_ne_nil hq)
  cases ht with
  | empty hn => exact ⟨hcore, h.seeks, h.records, h.started⟩
  | refuses hq hr => exact ⟨hcore, .next (hlen hq) _, h.records, fun _ _ => Option.some_ne_none _⟩
  | @serves q a rest rq hq hl hd hrq =>
    obtain ⟨k, -, hk⟩ := Core.sfqq?_eq_some.mp hq
    obtain ⟨rq', hrq', hph, -⟩ := h.core.linked q (List.mem_of_getElem? hk) a (by simp [hl])
    obtain rfl : rq' = rq := Option.some.inj (hrq'.symm.trans hrq)
    have hbusy : w.phase rq' ≠ .idle := by
      rw [show w.phase rq' = .added from hph]
      decide
    exact ⟨hcore, (Seeking.next (hlen hq) _).mono (Core.length_setQueue _).symm.le,
      fun r hr => h.records r (World.busy_of_update hbusy hr), fun _ _ => Option.some_ne_none _⟩

/-- Every call succeeds and keeps the invariant. -/
theorem step (h : Inv w) (hl : (withBio (elevator wrap)).legal w c) :
    ∃ o w', (withBio (elevator wrap)).step w c = some (o, w') ∧ Inv w' := by
  cases c with
  | setRequest rq pid env =>
    have hfree : env.sfqr.all (fun a => !w.elv.core.live a) = true := hl.1.1.2
    have hset : CoreStep wrap (w.map View.core) _ := .set rq pid env.sfqr hl.1.1.1 fun a ha => by
      simpa [ha] using hfree
    refine ⟨_, _, rfl, h.core.step hset, h.seeks.mono ?_, ?_, ?_⟩
    · change _ ≤ (Core.allocSfqr _ rq _ _).queue.length
      rw [Core.allocSfqr_queue]
      exact Core.length_register _ _
    · change ∀ r, Function.update w.phase rq .set r ≠ .idle → (Core.allocSfqr _ rq _ env.sfqr).priv1 r ≠ none
      rw [Core.allocSfqr_priv1, Core.register_priv1]
      exact records_update h.records hl.1.2.2.2
    · exact fun r hr => h.started r (World.phase_of_update (by decide) hr).2
  | addRequest rq =>
    have hs : w.phase rq = .set := hl.1.1
    have hbusy : w.phase rq ≠ .idle := by rw [hs]; decide
    obtain ⟨c, hc⟩ := Option.ne_none_iff_exists'.mp
      (h.core.addRequest_ne_none wrap hs (h.records rq hbusy))
    have hadd : CoreStep wrap (w.map View.core) _ := .add rq hs hc
    refine ⟨_, _, (ElevatorOps.step_eq_some _).mpr ⟨{ w.elv with core := c },
      Option.map_eq_some_iff.mpr ⟨c, hc, rfl⟩, rfl⟩, h.core.step hadd, ?_, ?_, ?_⟩
    · exact h.seeks.mono (Core.length_addRequest hc).symm.le
    · intro r hr
      change c.priv1 r ≠ none
      rw [Core.addRequest_priv1 hc]
      exact h.records r (World.busy_of_update hbusy hr)
    · exact fun r hr => h.started r (World.phase_of_update (by decide) hr).2
  | dispatch force =>
    obtain ⟨o, v', ht⟩ := exists_turn h.rq_ne_none
    exact ⟨o, _, (ElevatorOps.step_eq_some _).mpr ⟨v', dispatch_of_turn ht, rfl⟩, h.dispatch_step ht⟩
  | completed rq =>
    have hd : w.phase rq = .dispatched := hl.1.1
    have hbusy : w.phase rq ≠ .idle := by rw [hd]; decide
    have hcomp : CoreStep wrap (w.map View.core) _ := .complete rq hd
    exact ⟨_, _, rfl, h.core.step hcomp, h.seeks, fun r hr => h.records r (World.busy_of_update hbusy hr),
      fun r hr => h.started r (World.phase_of_update (by decide) hr).2⟩
  | putRequest rq junk =>
    have hs : w.phase rq = .set ∨ w.phase rq = .completed := hl.1.1
    have hbusy : w.phase rq ≠ .idle := (World.phase_of_put hs).1
    have hput : CoreStep wrap (w.map View.core) _ := .put rq junk hs
    refine ⟨_, _, rfl, h.core.step hput, h.seeks.mono (Core.length_put junk).symm.le, ?_, ?_⟩
    · intro r hr
      change (w.elv.core.put rq junk).priv1 r ≠ none
      rw [Core.put_priv1]
      exact h.records r (World.busy_of_update hbusy hr)
    · exact fun r hr => h.started r (World.phase_of_update (by decide) hr).2

end Inv
end Plain
end SsdScheduler.Sfq
