import SsdScheduler.Alpha.HeapRuns

/-!
# `ssd_scheduler_alpha/sfq-sched_9_complete.c`

The records are never freed, and there is nothing to do on completion.
-/

namespace SsdScheduler.Sched9

open Framework Framework.Heap Alpha

/-- `struct sfq_data`; the own field of a record is `valid`. -/
structure SfqData extends HeapArray Int where
  advance : Int

def initQueue : SfqData := { HeapArray.initial 0 with advance := 0 }

def sfqSetRequest (wrap : Int → Int) (s : SfqData) (rq : Rq) (pid : Pid) (env : SetEnv Int) : Option (Out × SfqData) :=
  (setRequest wrap 1 s.toHeapArray rq pid env).map fun h => (.quiet false, { s with toHeapArray := h })

def sfqAddRequest (s : SfqData) (rq : Rq) : Option (Out × SfqData) := do
  let sfqr ← s.priv0 rq
  if 0 ≤ (s.pool sfqr).startTag then
    let requests := if s.size ≠ 0 then resize s.requests (s.size + 1) else s.requests
    let h ← insert s.toHeapArray requests rq sfqr
    some (.quiet false, { s with
      toHeapArray := h, advance := if s.advance = 0 then s.advance + 1 else s.advance })
  else some (.quiet false, s)

/-- The flag `force` is not looked at. With more than one record in the heap `rq` is not compared
with `NULL`, which `elv_dispatch_sort` does not survive. -/
def sfqDispatch (s : SfqData) (_force : Bool) : Option (Out × SfqData) :=
  if 0 < s.size then do
    let (sfqr, h) ← removeRoot 1 resize s.toHeapArray
    match (s.pool sfqr).rq with
    | some rq => some (⟨1, some rq, false⟩, { s with toHeapArray := h })
    | none => if 1 < s.size then none else some (.quiet false, { s with toHeapArray := h })
  else some (.quiet false, s)

/-- The callbacks `elevator_completed_req_fn` and `elevator_put_req_fn` are absent. -/
def elevator (wrap : Int → Int) : ElevatorOps SfqData (SetEnv Int) Bool Unit where
  initQueue := initQueue
  possible s env := !s.live env.sfqr
  setRequest := sfqSetRequest wrap
  addRequest := sfqAddRequest
  dispatch := sfqDispatch
  completed s _ := some (.quiet false, s)
  putRequest s _ _ := some (.quiet false, s)

variable {s : SfqData} {f : Nat → Addr} {rq : Rq} {a : Addr}

theorem sfqAddRequest_eq (h : HeapState s.toHeapArray f) (ha : Waits s.toHeapArray f rq a) :
    ∃ s' f', sfqAddRequest s rq = some (.quiet false, s') ∧ Inserted s.toHeapArray s'.toHeapArray f f' rq a := by
  obtain ⟨h', f', hinsert, hi⟩ := insert_grown rq h ha.out
  refine ⟨{ s with toHeapArray := h', advance := if s.advance = 0 then s.advance + 1 else s.advance }, f', ?_, hi⟩
  simp only [sfqAddRequest, ha.priv0, ha.tag, if_true, hinsert, Option.bind_eq_bind, Option.bind_some]

theorem sfqDispatch_empty (h0 : s.size = 0) (force : Bool) : sfqDispatch s force = some (.quiet false, s) := by
  simp [sfqDispatch, h0]

theorem sfqDispatch_eq (h : HeapState s.toHeapArray f) (hpos : 0 < s.size) (force : Bool)
    (hrq : (s.pool (f 0)).rq = some rq) :
    ∃ s' f', sfqDispatch s force = some (⟨1, some rq, false⟩, s') ∧ Removed s.toHeapArray s'.toHeapArray f f' := by
  obtain ⟨h', f', hremove, hr⟩ := removeRoot_eq h hpos ⟨Nat.one_pos, Nat.le_succ 1⟩ .resize
  refine ⟨{ s with toHeapArray := h' }, f', ?_, hr⟩
  simp [sfqDispatch, hpos, hremove, hrq]

/-- The array of a world. -/
abbrev arrayWorld (w : World SfqData) : World (HeapArray Int) := w.map SfqData.toHeapArray

/-- What a call does that finds the heap of `f` in the array. -/
inductive Step (wrap : Int → Int) (w : World SfqData) (f : Nat → Addr) :
    Call (SetEnv Int) Bool Unit → Out → World SfqData → Prop
  | set {rq : Rq} {pid : Pid} {env : SetEnv Int} {vt : Int} (hi : w.phase rq = .idle)
      (hfree : w.elv.live env.sfqr = false) (hlatest : latestVirtualTime w.elv.toHeapArray = some vt)
      (hle : w.elv.virtualTime ≤ vt) : Step wrap w f (.setRequest rq pid env) (.quiet false)
        (w.onSet { w.elv with toHeapArray := prepared wrap 1 w.elv.toHeapArray rq pid env vt } rq pid)
  | add {rq : Rq} {a : Addr} {s : SfqData} {f' : Nat → Addr} (hs : w.phase rq = .set)
      (ha : Waits w.elv.toHeapArray f rq a) (hi : Inserted w.elv.toHeapArray s.toHeapArray f f' rq a) :
      Step wrap w f (.addRequest rq) (.quiet false) (w.onAdd s rq)
  | empty {force : Bool} (h0 : w.elv.size = 0) : Step wrap w f (.dispatch force) (.quiet false) w
  | remove {force : Bool} {rq : Rq} {s : SfqData} {f' : Nat → Addr} (hpos : 0 < w.elv.size)
      (hrq : (w.elv.pool (f 0)).rq = some rq) (hr : Removed w.elv.toHeapArray s.toHeapArray f f') :
      Step wrap w f (.dispatch force) ⟨1, some rq, false⟩ (w.onDispatch s (some rq))
  | complete {rq : Rq} (hp : w.phase rq = .dispatched) :
      Step wrap w f (.completed rq) (.quiet false) (w.onCompleted w.elv rq)
  | put {rq : Rq} {env : Unit} (hp : w.phase rq = .set ∨ w.phase rq = .completed) :
      Step wrap w f (.putRequest rq env) (.quiet false) (w.onPut w.elv rq)

variable {wrap : Int → Int} {w w' : World SfqData} {c : Call (SetEnv Int) Bool Unit} {o : Out}

/-- Every call that may be made returns. -/
theorem exists_step (h : HeapInv (arrayWorld w) f) (hl : (elevator wrap).machine.legal w c) :
    ∃ o w', (elevator wrap).machine.step w c = some (o, w') ∧ Step wrap w f c o w' := by
  cases c with
  | setRequest rq pid env =>
    have hfree : w.elv.live env.sfqr = false := by simpa [elevator] using hl.2
    obtain ⟨vt, hlatest, hle⟩ := latestVirtualTime_le h.state
    have hset := setRequest_latest wrap 1 rq pid h.state (h.fresh hfree) hlatest
    refine ⟨_, _, (ElevatorOps.step_eq_some _).mpr ⟨_, ?_, rfl⟩, .set hl.1 hfree hlatest hle⟩
    exact Option.map_eq_some_iff.mpr ⟨_, hset, rfl⟩
  | addRequest rq =>
    obtain ⟨a, ha⟩ := h.waits rq hl
    obtain ⟨s, f', hadd, hi⟩ := sfqAddRequest_eq h.state ha
    exact ⟨_, _, (ElevatorOps.step_eq_some _).mpr ⟨s, hadd, rfl⟩, .add hl ha hi⟩
  | dispatch force =>
    rcases Nat.eq_zero_or_pos w.elv.size with h0 | hpos
    · exact ⟨_, _, (ElevatorOps.step_eq_some _).mpr ⟨_, sfqDispatch_empty h0 force, rfl⟩, .empty h0⟩
    · obtain ⟨rq, hrq⟩ := Option.ne_none_iff_exists'.mp (h.rq_ne_none (HeapInv.root_mem hpos))
      obtain ⟨s, f', hd, hr⟩ := sfqDispatch_eq h.state hpos force hrq
      exact ⟨_, _, (ElevatorOps.step_eq_some _).mpr ⟨s, hd, rfl⟩, .remove hpos hrq hr⟩
  | completed rq => exact ⟨_, _, rfl, .complete hl⟩
  | putRequest rq env => exact ⟨_, _, rfl, .put hl⟩

theorem step_cases (h : HeapInv (arrayWorld w) f) (hl : (elevator wrap).machine.legal w c)
    (hs : (elevator wrap).machine.step w c = some (o, w')) : Step wrap w f c o w' := by
  obtain ⟨o₁, w₁, hs₁, ht⟩ := exists_step h hl
  obtain ⟨rfl, rfl⟩ := Prod.mk.inj (Option.some.inj (hs₁.symm.trans hs))
  exact ht

theorem inv_completed (h : HeapInv (arrayWorld w) f) (hp : w.phase rq = .dispatched) :
    HeapInv (arrayWorld (w.onCompleted w.elv rq)) f := by
  have hna : (arrayWorld w).phase rq ≠ .added := by
    rw [World.map_phase, hp]
    decide
  exact h.frame hna (by decide) (by decide)

theorem inv_put (h : HeapInv (arrayWorld w) f) (hp : w.phase rq = .set ∨ w.phase rq = .completed) :
    HeapInv (arrayWorld (w.onPut w.elv rq)) f :=
  h.frame (World.phase_of_put hp).2.1 (by decide) (by decide)

/-- Every call keeps the invariant. -/
theorem Step.heap (ht : Step wrap w f c o w') (h : HeapInv (arrayWorld w) f) : ∃ f', HeapInv (arrayWorld w') f' := by
  cases ht with
  | set hi hfree _ hle => exact ⟨f, h.set hi hfree hle⟩
  | add hs ha hi => exact ⟨_, h.add hs ha hi⟩
  | empty => exact ⟨f, h⟩
  | remove _ hrq hr => exact ⟨_, h.remove hr hrq⟩
  | complete hp => exact ⟨f, inv_completed h hp⟩
  | put hp => exact ⟨f, inv_put h hp⟩

theorem inv_of_reachable (h : (elevator wrap).Reachable w) : ∃ f, HeapInv (arrayWorld w) f := by
  apply Machine.Reachable.invariant h
  · intro w c o w' hw hl hs
    obtain ⟨f, hf⟩ := hw
    exact (step_cases hf hl hs).heap hf
  · exact ⟨_, HeapInv.init 0⟩

/-- The heap is a heap of distinct records, no call leaves the array, a dispatch hands out a request
of least start tag, and the pending requests are those added and not dispatched. -/
theorem heap_scheduler_correct (h : (elevator wrap).Reachable w) :
    ∃ f : Nat → Addr, HeapAt SfqRequest.startTag w.elv.requests w.elv.pool w.elv.size f ∧
      (∀ c, (elevator wrap).machine.legal w c → ∃ o w', (elevator wrap).machine.step w c = some (o, w')) ∧
      (∀ force o w', (elevator wrap).machine.step w (.dispatch force) = some (o, w') →
        (o.ret = 1 ↔ 0 < w.elv.size) ∧ (o.dispatched ≠ none ↔ 0 < w.elv.size) ∧
        ∀ rq, o.dispatched = some rq → ∃ j < w.elv.size, (w.elv.pool (f j)).rq = some rq ∧
          ∀ k < w.elv.size, (w.elv.pool (f j)).startTag ≤ (w.elv.pool (f k)).startTag) ∧
      (w.addLog.map Prod.snd).Perm (w.dispatchLog.map Prod.snd ++ w.elv.pending) ∧
      w.elv.pending.length = w.elv.size ∧ w.elv.pending.Nodup ∧
      ∀ rq, rq ∈ w.elv.pending ↔ w.phase rq = .added := by
  obtain ⟨f, hf⟩ := inv_of_reachable h
  refine ⟨f, hf.state.heap, ?_, ?_, hf.perm_pending, hf.length_pending, hf.nodup_pending, fun rq => hf.mem_pending⟩
  · intro c hl
    obtain ⟨o, w', hs, -⟩ := exists_step hf hl
    exact ⟨o, w', hs⟩
  · intro force o w' hs
    have hl : (elevator wrap).machine.legal w (.dispatch force) := trivial
    cases step_cases hf hl hs with
    | empty h0 => simp [h0, Out.quiet]
    | @remove _ rq s f' hpos hrq =>
      refine ⟨by simp [hpos], by simp [hpos], ?_⟩
      intro r hr
      obtain rfl : rq = r := Option.some.inj hr
      exact ⟨0, hpos, hrq, fun k hk => hf.state.heap.root_le hk⟩

/-- Three requests are added with the tags `0`, `100` and `200`, and the first is dispatched. -/
theorem heap_scheduler_correct_three :
    ∃ w, (elevator id).Reachable w ∧ w.elv.size = 2 ∧ w.elv.virtualTime = 200 ∧
      (w.addLog.map Prod.snd).Perm (w.dispatchLog.map Prod.snd ++ w.elv.pending) := by
  have hplay : (elevator id).machine.Plays (elevator id).init
      [.setRequest 1 7 ⟨0, ⟨-5, 3, 0, some 9, 0⟩⟩, .addRequest 1, .setRequest 2 8 ⟨1, ⟨0, 0, 0, none, 0⟩⟩,
        .addRequest 2, .setRequest 3 7 ⟨4, ⟨0, 0, 0, none, 0⟩⟩, .addRequest 3, .dispatch false] fun _ w =>
        w.elv.size = 2 ∧ w.elv.virtualTime = 200 := by decide
  obtain ⟨tr, w, hr, -, hsize, htime⟩ := hplay.exists_run
  obtain ⟨f, -, -, -, hperm, -⟩ := heap_scheduler_correct ⟨tr, hr⟩
  exact ⟨w, ⟨tr, hr⟩, hsize, htime, hperm⟩

end SsdScheduler.Sched9
