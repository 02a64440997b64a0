import SsdScheduler.Congestion.CachePool

/-!
# No standstill behind the gate

The block layer dispatches until nothing is handed out, after each request that is added and whenever the work is
executed. In between, requests wait for the gate to open or for the work that is scheduled. `noop_experiment/noop_1.c`
has no counter of its requests, and schedules the work only while others are outstanding.
-/

namespace SsdScheduler.Congestion

open Framework Elevator

/-- A call of the block layer, the execution of the work, or the expiry of the timer. -/
inductive Action (α π : Type)
  | call (c : Call α Bool π)
  | work
  | timer

/-- The work item and the timer of a scheduler: whether they are pending, and the state once they are taken up. -/
structure Alarm (σ : Type) where
  unplugWork : σ → Bool
  taken : σ → σ
  idleSliceTimer : σ → Bool
  expired : σ → σ

variable {σ α π : Type}

/-- The dispatches of `__blk_run_queue`. -/
def runQueue (e : ElevatorType σ α π) : Nat → World σ → Option (World σ)
  | 0, _ => none
  | fuel + 1, w => do
    let (o, w) ← e.machine.step w (.dispatch false)
    if o.ret ≠ 0 then runQueue e fuel w else some w

/-- The scheduler with its work item and its timer. -/
def waking (e : ElevatorType σ α π) (view : σ → Gate) (al : Alarm σ) : Machine (World σ) (Action α π) Unit where
  legal w
    | .call c => e.legal w c
    | .work => al.unplugWork w.elv = true
    | .timer => al.idleSliceTimer w.elv = true
  step w
    | .call (.addRequest rq) => do
      let (_, w) ← e.machine.step w (.addRequest rq)
      let w ← runQueue e ((view w.elv).queue.length + 1) w
      some ((), w)
    | .call c => (e.machine.step w c).map fun r => ((), r.2)
    | .work => (runQueue e ((view w.elv).queue.length + 1) (w.map al.taken)).map fun w => ((), w)
    | .timer => some ((), w.map al.expired)

instance (e : ElevatorType σ α π) (view : σ → Gate) (al : Alarm σ) (w : World σ) :
    (x : Action α π) → Decidable ((waking e view al).legal w x)
  | .call c => inferInstanceAs (Decidable (e.legal w c))
  | .work => inferInstanceAs (Decidable (al.unplugWork w.elv = true))
  | .timer => inferInstanceAs (Decidable (al.idleSliceTimer w.elv = true))

/-- Requests in the list wait for the gate or for the work. -/
def Watched (limit : Option Int) (view : σ → Gate) (al : Alarm σ) (d : σ) : Prop :=
  (view d).queue ≠ [] → ¬ IsOpen limit (view d).depth ∨ al.unplugWork d = true

/-- The work and the timer show nothing of themselves in the list, scheduled work stays scheduled, and the completion
that opens the gate to requests that wait schedules it. -/
structure Wakes (e : ElevatorType σ α π) (limit : Option Int) (view : σ → Gate) (I : World σ → Prop) (al : Alarm σ) :
    Prop where
  taken : ∀ w, I w → I (w.map al.taken) ∧ view (al.taken w.elv) = view w.elv
  expired : ∀ w, I w → I (w.map al.expired) ∧ view (al.expired w.elv) = view w.elv ∧
    (al.unplugWork w.elv = true → al.unplugWork (al.expired w.elv) = true)
  call : ∀ w c o d, I w → e.legal w c → e.call w.elv c = some (o, d) → al.unplugWork w.elv = true →
    al.unplugWork d = true
  reopen : ∀ w rq o d, I w → Served limit (view w.elv) w → w.phase rq = .dispatched →
    e.completed w.elv rq = some (o, d) → (view d).queue ≠ [] → ¬ IsOpen limit (view w.elv).depth →
    IsOpen limit (view d).depth → al.unplugWork d = true

section Rule

variable {e : ElevatorType σ α π} {limit : Option Int} {view : σ → Gate} {I : World σ → Prop} {al : Alarm σ}
  {w w' : World σ} {c : Call α Bool π} {o : Out}

theorem Served.map {g : Gate} (h : Served limit g w) (f : σ → σ) : Served limit g (w.map f) :=
  ⟨h.fifo, h.nodup, h.mem, h.outstanding, h.bounded⟩

/-- The loop ends with the list empty or the gate closed. -/
theorem runQueue_eq (h : Guarded e limit view I) {fuel : Nat} (hw : I w) (hs : Served limit (view w.elv) w)
    (hf : (view w.elv).queue.length < fuel) :
    ∃ u, runQueue e fuel w = some u ∧ I u ∧ Served limit (view u.elv) u ∧
      ((view u.elv).queue = [] ∨ ¬ IsOpen limit (view u.elv).depth) := by
  induction fuel generalizing w with
  | zero => exact absurd hf (Nat.not_lt_zero _)
  | succ fuel ih =>
    obtain ⟨o, d, hd, hI, hcases⟩ := h.dispatch_cases hw false
    have hstep : e.machine.step w (.dispatch false) = some (o, w.onDispatch d o.dispatched) :=
      e.step_eq_some.mpr ⟨d, hd, rfl⟩
    have helv : (w.onDispatch d o.dispatched).elv = d := by
      cases o.dispatched <;> rfl
    have hl : e.legal w (.dispatch false) := trivial
    have hserved := (h.step hw hs hl hstep).2
    rcases hcases with ⟨rq, rest, hq, -, hret, -, hview⟩ | ⟨hshut, hret, -, hview⟩
    · have hlength : (view (w.onDispatch d o.dispatched).elv).queue.length < fuel := by
        rw [helv, hview]
        simp only [hq, List.length_cons] at hf
        exact Nat.lt_of_succ_lt_succ hf
      obtain ⟨u, hu, hlast⟩ := ih hI hserved hlength
      exact ⟨u, by simp [runQueue, hstep, hret, hu], hlast⟩
    · refine ⟨w.onDispatch d o.dispatched, by simp [runQueue, hstep, hret], hI, hserved, ?_⟩
      rw [helv, hview]
      exact hshut

/-- A call that adds no request. -/
theorem watched_call (h : Guarded e limit view I) (ha : Wakes e limit view I al) (hw : I w)
    (hs : Served limit (view w.elv) w) (hwatched : Watched limit view al w.elv) (hl : e.legal w c)
    (he : e.machine.step w c = some (o, w')) (hc : ∀ rq, c ≠ .addRequest rq) : Watched limit view al w'.elv := by
  obtain ⟨d, hcall, rfl⟩ := e.step_eq_some.mp he
  rw [World.after_elv]
  have hview : view d = ((view w.elv).call limit c).2 := congrArg Prod.snd (h.call w c o d hw hl hcall).2.1
  have hkeep := ha.call w c o d hw hl hcall
  have hsame (hv : view d = view w.elv) : Watched limit view al d := by
    intro hq
    rw [hv] at hq ⊢
    exact (hwatched hq).imp_right hkeep
  cases c with
  | setRequest rq pid env => exact hsame hview
  | addRequest rq => exact absurd rfl (hc rq)
  | dispatch force =>
    change view d = ((view w.elv).dispatch limit).2 at hview
    rcases dispatch_cases limit (view w.elv) with ⟨rq, rest, hq, hopen, -⟩ | ⟨-, hd⟩
    · -- the gate was open, so that the requests have waited for the work
      intro _
      have hwork : al.unplugWork w.elv = true := (hwatched (by simp [hq])).resolve_left (not_not.mpr hopen)
      exact .inr (hkeep hwork)
    · exact hsame (hview.trans (congrArg Prod.snd hd))
  | completed rq =>
    intro hq
    by_cases hopen : IsOpen limit (view d).depth
    · right
      by_cases hold : IsOpen limit (view w.elv).depth
      · have hqueue : (view d).queue = (view w.elv).queue := (congrArg Gate.queue hview).trans rfl
        exact hkeep ((hwatched (hqueue ▸ hq)).resolve_left (not_not.mpr hold))
      · exact ha.reopen w rq o d hw hs hl hcall hq hold hopen
    · exact .inl hopen
  | putRequest rq env => exact hsame hview

/-- Every step keeps watch, and the loops in it end. -/
theorem watched_step (h : Guarded e limit view I) (ha : Wakes e limit view I al) {x : Action α π} {u : Unit} (hw : I w)
    (hs : Served limit (view w.elv) w) (hwatched : Watched limit view al w.elv) (hl : (waking e view al).legal w x)
    (he : (waking e view al).step w x = some (u, w')) :
    I w' ∧ Served limit (view w'.elv) w' ∧ Watched limit view al w'.elv := by
  have hidle {v : World σ} (hv : (view v.elv).queue = [] ∨ ¬ IsOpen limit (view v.elv).depth) :
      Watched limit view al v.elv := fun hq => .inl (hv.resolve_left hq)
  cases x with
  | work =>
    obtain ⟨hI, hview⟩ := ha.taken w hw
    have hserved : Served limit (view (w.map al.taken).elv) (w.map al.taken) := by
      rw [World.map_elv, hview]
      exact hs.map al.taken
    have hf : (view (w.map al.taken).elv).queue.length < (view w.elv).queue.length + 1 := by
      rw [World.map_elv, hview]
      exact Nat.lt_succ_self _
    obtain ⟨v, hv, hI', hserved', hlast⟩ := runQueue_eq h hI hserved hf
    obtain ⟨v', hv', heq⟩ := Option.map_eq_some_iff.mp he
    obtain rfl : v = v' := Option.some.inj (hv.symm.trans hv')
    obtain rfl : v = w' := congrArg Prod.snd heq
    exact ⟨hI', hserved', hidle hlast⟩
  | timer =>
    obtain rfl : w.map al.expired = w' := congrArg Prod.snd (Option.some.inj he)
    obtain ⟨hI, hview, hwork⟩ := ha.expired w hw
    rw [World.map_elv, hview]
    refine ⟨hI, hs.map al.expired, fun hq => ?_⟩
    rw [hview] at hq ⊢
    exact (hwatched hq).imp_right hwork
  | call c =>
    have hl : e.legal w c := hl
    cases c with
    | addRequest rq =>
      simp only [waking, Option.bind_eq_bind, Option.bind_eq_some_iff, Prod.exists] at he
      obtain ⟨o, v, hadd, v', hrun, he⟩ := he
      obtain rfl : v' = w' := congrArg Prod.snd (Option.some.inj he)
      obtain ⟨hI, hserved⟩ := h.step hw hs hl hadd
      obtain ⟨v'', hrun', hI', hserved', hlast⟩ := runQueue_eq h hI hserved (Nat.lt_succ_self _)
      obtain rfl : v'' = v' := Option.some.inj (hrun'.symm.trans hrun)
      exact ⟨hI', hserved', hidle hlast⟩
    | _ =>
      obtain ⟨r, hstep, heq⟩ := Option.map_eq_some_iff.mp he
      obtain rfl : r.2 = w' := congrArg Prod.snd heq
      obtain ⟨hI, hserved⟩ := h.step hw hs hl hstep
      exact ⟨hI, hserved, watched_call h ha hw hs hwatched hl hstep fun _ hc => by cases hc⟩

theorem watched_of_reachable (h : Guarded e limit view I) (ha : Wakes e limit view I al)
    (hr : (waking e view al).Reachable e.init w) :
    I w ∧ Served limit (view w.elv) w ∧ Watched limit view al w.elv := by
  apply hr.invariant
  · intro u x o v hu hl hs
    exact watched_step h ha hu.1 hu.2.1 hu.2.2 hl hs
  · obtain ⟨hI, hserved⟩ := h.of_reachable (w := e.init) .init
    refine ⟨hI, hserved, fun hq => ?_⟩
    have hnil : (view e.init.elv).queue = [] := congrArg Gate.queue h.init.2
    exact absurd hnil hq

end Rule

section CachePool

variable {v : Version} {w : World NoopData}

/-- `noop_kick_queue` and `noop_idle_slice_timer`. -/
def noopAlarm : Alarm NoopData where
  unplugWork nd := nd.unplugWork
  taken nd := { nd with unplugWork := false }
  idleSliceTimer nd := nd.idleSliceTimer
  expired nd := { nd with idleSliceTimer := false, unplugWork := nd.unplugWork || !nd.queue.isEmpty }

theorem Linked.alarm (h : Linked w) (timer work : Bool) :
    Linked (w.map fun nd => { nd with idleSliceTimer := timer, unplugWork := work }) :=
  ⟨h.nodup, h.linked, h.unique, h.live, h.count⟩

theorem noopDispatch_unplugWork {nd nd' : NoopData} {o : Out} {force : Bool} (hs : noopDispatch v nd force = some (o, nd')) :
    nd'.unplugWork = nd.unplugWork := by
  by_cases hopen : IsOpen v.requestDepth nd.depth
  · obtain ⟨timer, hnil, hcons⟩ := noopDispatch_open hopen force
    cases hq : nd.queue with
    | nil =>
      rw [hnil hq] at hs
      cases hs
      rfl
    | cons a rest =>
      cases hrq : (nd.pool a).rq with
      | none =>
        unfold noopDispatch at hs
        rw [if_pos hopen] at hs
        cases ht : v.timer
        all_goals simp [hq, hrq, ht] at hs
      | some rq =>
        rw [hcons a rest rq hq hrq] at hs
        cases hs
        rfl
  · have hshut : noopDispatch v nd force = some (.quiet false, nd) := if_neg hopen
    rw [hshut] at hs
    cases hs
    rfl

/-- No callback takes the work back. -/
theorem call_unplugWork {c : Call (Option Addr) Bool NoopRequest} {o : Out} {d : NoopData}
    (hs : (elevatorType v).call w.elv c = some (o, d)) (hwork : w.elv.unplugWork = true) : d.unplugWork = true := by
  cases c with
  | setRequest rq pid nr =>
    cases nr with
    | none =>
      cases hs
      exact hwork
    | some a =>
      cases hs
      exact hwork
  | addRequest rq =>
    change noopAddRequest w.elv rq = some (o, d) at hs
    simp only [noopAddRequest, Option.bind_eq_bind, Option.bind_eq_some_iff] at hs
    obtain ⟨a, -, hs⟩ := hs
    cases hs
    exact hwork
  | dispatch force =>
    change noopDispatch v w.elv force = some (o, d) at hs
    exact (noopDispatch_unplugWork hs).trans hwork
  | completed rq =>
    obtain ⟨kicked, timer, hd, -⟩ := noopCompleted_eq v w.elv rq
    obtain ⟨rfl, rfl⟩ := Prod.mk.inj (Option.some.inj (hd.symm.trans hs))
    exact Bool.or_eq_true_iff.mpr (.inr hwork)
  | putRequest rq junk =>
    change noopPutRequest w.elv rq junk = some (o, d) at hs
    unfold noopPutRequest at hs
    split at hs
    all_goals
      cases hs
      exact hwork

/-- `nr_size` counts the request that is completed and those that wait, so that one is left if any waits. -/
theorem Linked.kicks (h : Linked w) {limit : Option Int} (hs : Served limit (view w.elv) w) {rq : Rq}
    (hdisp : w.phase rq = .dispatched) (hq : (view w.elv).queue ≠ []) : 1 < w.elv.nrSize := by
  obtain ⟨F, hF, hdepth⟩ := hs.outstanding
  change w.elv.depth = F.card at hdepth
  have hout : 0 < F.card := Finset.card_pos.mpr ⟨rq, (hF rq).mpr hdisp⟩
  have hwaits : 0 < w.elv.queue.length := by
    rw [← h.length_view]
    exact List.length_pos_of_ne_nil hq
  have hcount := h.count
  omega

theorem noopAlarm_wakes (v : Version) : Wakes (elevatorType v) v.requestDepth view Linked noopAlarm where
  taken w h := ⟨h.alarm w.elv.idleSliceTimer false, rfl⟩
  expired w h := by
    refine ⟨h.alarm false (w.elv.unplugWork || !w.elv.queue.isEmpty), rfl, fun hwork => ?_⟩
    exact Bool.or_eq_true_iff.mpr (.inl hwork)
  call _ _ _ _ _ _ hs hwork := call_unplugWork hs hwork
  reopen w rq o d h hs hdisp hc hq _ _ := by
    obtain ⟨kicked, timer, hd, hkicked⟩ := noopCompleted_eq v w.elv rq
    obtain ⟨rfl, rfl⟩ := Prod.mk.inj (Option.some.inj (hd.symm.trans hc))
    have hkick : kicked = true := hkicked.mpr (h.kicks hs hdisp hq)
    exact Bool.or_eq_true_iff.mpr (.inl hkick)

/-- In `noop_with_congestion.c` and `cache_pool_noop.c` requests in the list wait for an outstanding one or for the
work that is scheduled, and the work ends. -/
theorem no_standstill_counted (h : (waking (elevatorType v) view noopAlarm).Reachable (elevatorType v).init w) :
    (w.elv.queue ≠ [] → (∃ n ∈ v.requestDepth, n < w.elv.depth) ∨ w.elv.unplugWork = true) ∧
      (w.elv.unplugWork = true → ∃ w', (waking (elevatorType v) view noopAlarm).step w .work = some ((), w')) := by
  obtain ⟨hlinked, hserved, hwatched⟩ := watched_of_reachable (guarded v) (noopAlarm_wakes v) h
  constructor
  · intro hq
    have hview : (view w.elv).queue ≠ [] := by
      intro hnil
      have hlength := hlinked.length_view
      rw [hnil] at hlength
      exact hq (List.length_eq_zero_iff.mp hlength.symm)
    apply (hwatched hview).imp_left
    intro hshut
    change ¬ ∀ n ∈ v.requestDepth, w.elv.depth ≤ n at hshut
    obtain ⟨n, hn, hlt⟩ := not_forall₂.mp hshut
    exact ⟨n, hn, not_le.mp hlt⟩
  · intro _
    have htaken : Linked (w.map noopAlarm.taken) := hlinked.alarm w.elv.idleSliceTimer false
    obtain ⟨u, hu, -⟩ := runQueue_eq (guarded v) htaken (hserved.map noopAlarm.taken) (Nat.lt_succ_self _)
    exact ⟨u, Option.map_eq_some_iff.mpr ⟨u, hu, rfl⟩⟩

/-- Three requests are added, two of them dispatched and completed: the third waits for the work. -/
theorem no_standstill_counted_three :
    ∃ w, (waking (elevatorType noopWithCongestion) view noopAlarm).Reachable (elevatorType noopWithCongestion).init w ∧
      (view w.elv).queue = [3] ∧ w.elv.depth = 0 ∧
      ∃ w', (waking (elevatorType noopWithCongestion) view noopAlarm).step w .work = some ((), w') := by
  have hplays : (waking (elevatorType noopWithCongestion) view noopAlarm).Plays (elevatorType noopWithCongestion).init
      [.call (.setRequest 1 7 (some 0)), .call (.setRequest 2 8 (some 1)), .call (.setRequest 3 7 (some 2)),
        .call (.addRequest 1), .call (.addRequest 2), .call (.addRequest 3), .call (.completed 1), .call (.completed 2)]
      (fun _ w => w.elv.queue = [2] ∧ (view w.elv).queue = [3] ∧ w.elv.depth = 0) := by decide
  obtain ⟨tr, w, hr, -, hqueue, hview, hdepth⟩ := hplays.exists_run
  obtain ⟨hwaits, hends⟩ := no_standstill_counted (v := noopWithCongestion) ⟨tr, hr⟩
  refine ⟨w, ⟨tr, hr⟩, hview, hdepth, hends ?_⟩
  apply (hwaits (by simp [hqueue])).resolve_left
  rintro ⟨n, hn, hlt⟩
  obtain rfl : (1 : Int) = n := Option.some.inj hn
  rw [hdepth] at hlt
  exact absurd hlt (by decide)

end CachePool

namespace Noop1

/-- `struct noop_data` of `noop_1.c`, with the work item. -/
structure NoopData where
  noopQueue : List Rq
  depth : Int
  unplugWork : Bool
deriving DecidableEq

def noopInitQueue : NoopData := ⟨[], 0, false⟩

/-- The flag `force` is not looked at. -/
def noopDispatch (requestDepth : Int) (nd : NoopData) (_force : Bool) : Option (Out × NoopData) :=
  if nd.depth ≤ requestDepth then
    match nd.noopQueue with
    | [] => some (.quiet false, nd)
    | rq :: rest => some (⟨1, some rq, false⟩, { nd with depth := nd.depth + 1, noopQueue := rest })
  else some (.quiet false, nd)

def noopAddRequest (nd : NoopData) (rq : Rq) : Option (Out × NoopData) :=
  some (.quiet false, { nd with noopQueue := nd.noopQueue ++ [rq] })

def noopCompleted (nd : NoopData) (_rq : Rq) : Option (Out × NoopData) :=
  let nd := { nd with depth := nd.depth - 1 }
  if 0 < nd.depth then some (.quiet true, { nd with unplugWork := true }) else some (.quiet false, nd)

/-- The callbacks of `noop_1.c`; `requestDepth` is `1` there. -/
def elevatorType (requestDepth : Int) : ElevatorType NoopData Unit Unit where
  initQueue := noopInitQueue
  possible _ _ := true
  setRequest nd _ _ _ := some (.quiet false, nd)
  addRequest := noopAddRequest
  dispatch := noopDispatch requestDepth
  completed := noopCompleted
  putRequest nd _ _ := some (.quiet false, nd)
  mergeReqFn := none
  formerReqFn := none
  latterReqFn := none

def view (nd : NoopData) : Gate := ⟨nd.noopQueue, nd.depth⟩

/-- `noop_kick_queue`; there is no timer that is ever started. -/
def noopAlarm : Alarm NoopData where
  unplugWork nd := nd.unplugWork
  taken nd := { nd with unplugWork := false }
  idleSliceTimer _ := false
  expired nd := nd

variable {requestDepth : Int} {w : World NoopData}

theorem noopDispatch_eq (requestDepth : Int) (nd : NoopData) (force : Bool) :
    ∃ o nd', noopDispatch requestDepth nd force = some (o, nd') ∧ nd'.unplugWork = nd.unplugWork ∧
      (o.dispatched, view nd') = (view nd).dispatch (some requestDepth) ∧ (o.ret ≠ 0 ↔ o.dispatched.isSome) := by
  unfold noopDispatch Gate.dispatch
  cases hq : nd.noopQueue with
  | nil =>
    split
    all_goals exact ⟨_, _, rfl, rfl, by simp [view, hq, Out.quiet], by simp [Out.quiet]⟩
  | cons rq rest =>
    split
    case isTrue hopen =>
      have hopen' : IsOpen (some requestDepth) nd.depth := fun n hn => Option.some.inj hn ▸ hopen
      exact ⟨_, _, rfl, rfl, by simp [view, hq, hopen'], by simp⟩
    case isFalse hshut =>
      have hshut' : ¬ IsOpen (some requestDepth) nd.depth := fun ho => hshut (ho requestDepth rfl)
      exact ⟨_, _, rfl, rfl, by simp [view, hq, hshut', Out.quiet], by simp [Out.quiet]⟩

theorem noopCompleted_eq (nd : NoopData) (rq : Rq) :
    ∃ kicked, noopCompleted nd rq =
        some (.quiet kicked, ⟨nd.noopQueue, nd.depth - 1, kicked || nd.unplugWork⟩) ∧ (kicked = true ↔ 1 < nd.depth) := by
  unfold noopCompleted
  by_cases hd : 0 < nd.depth - 1
  · exact ⟨true, if_pos hd, iff_of_true rfl (by omega)⟩
  · exact ⟨false, if_neg hd, iff_of_false Bool.false_ne_true (by omega)⟩

theorem guarded (requestDepth : Int) : Guarded (elevatorType requestDepth) (some requestDepth) view fun _ => True where
  quiet := ⟨rfl, rfl⟩
  init := ⟨trivial, rfl⟩
  call w c o d _ _ hs := by
    refine ⟨trivial, ?_⟩
    cases c with
    | setRequest rq pid env =>
      cases hs
      exact ⟨rfl, by simp [Out.quiet]⟩
    | addRequest rq =>
      cases hs
      exact ⟨rfl, by simp [Out.quiet]⟩
    | dispatch force =>
      obtain ⟨o', d', hd, -, hview⟩ := noopDispatch_eq requestDepth w.elv force
      obtain ⟨rfl, rfl⟩ := Prod.mk.inj (Option.some.inj (hd.symm.trans hs))
      exact hview
    | completed rq =>
      obtain ⟨kicked, hd, -⟩ := noopCompleted_eq w.elv rq
      obtain ⟨rfl, rfl⟩ := Prod.mk.inj (Option.some.inj (hd.symm.trans hs))
      exact ⟨rfl, by simp [Out.quiet]⟩
    | putRequest rq env =>
      cases hs
      exact ⟨rfl, by simp [Out.quiet]⟩
  returns w force _ := by
    obtain ⟨o, d, hd, -⟩ := noopDispatch_eq requestDepth w.elv force
    exact ⟨o, d, hd⟩

theorem noopAlarm_wakes (hpos : 0 < requestDepth) :
    Wakes (elevatorType requestDepth) (some requestDepth) view (fun _ => True) noopAlarm where
  taken _ _ := ⟨trivial, rfl⟩
  expired _ _ := ⟨trivial, rfl, id⟩
  call w c o d _ _ hs hwork := by
    cases c with
    | setRequest rq pid env =>
      cases hs
      exact hwork
    | addRequest rq =>
      cases hs
      exact hwork
    | dispatch force =>
      obtain ⟨o', d', hd, hkeep, -⟩ := noopDispatch_eq requestDepth w.elv force
      obtain ⟨rfl, rfl⟩ := Prod.mk.inj (Option.some.inj (hd.symm.trans hs))
      exact hkeep.trans hwork
    | completed rq =>
      obtain ⟨kicked, hd, -⟩ := noopCompleted_eq w.elv rq
      obtain ⟨rfl, rfl⟩ := Prod.mk.inj (Option.some.inj (hd.symm.trans hs))
      exact Bool.or_eq_true_iff.mpr (.inr hwork)
    | putRequest rq env =>
      cases hs
      exact hwork
  reopen w rq o d _ _ _ hs _ hshut _ := by
    obtain ⟨kicked, hd, hkicked⟩ := noopCompleted_eq w.elv rq
    obtain ⟨rfl, rfl⟩ := Prod.mk.inj (Option.some.inj (hd.symm.trans hs))
    have hlt : requestDepth < w.elv.depth := by
      apply not_le.mp
      intro hle
      exact hshut fun n hn => Option.some.inj hn ▸ hle
    have hkick : kicked = true := hkicked.mpr (by omega)
    exact Bool.or_eq_true_iff.mpr (.inl hkick)

/-- The scheduler of `noop_1.c` never stands still exactly if its `REQUEST_DEPTH` is not `0`: with `0` the completion of
the only outstanding request schedules nothing. -/
theorem no_standstill_iff (requestDepth : Nat) :
    (∀ w, (waking (elevatorType requestDepth) view noopAlarm).Reachable (elevatorType requestDepth).init w →
      w.elv.noopQueue ≠ [] → requestDepth < w.elv.depth ∨ w.elv.unplugWork = true) ↔ 0 < requestDepth := by
  constructor
  · intro h
    apply Nat.pos_of_ne_zero
    rintro rfl
    have hplays : (waking (elevatorType 0) view noopAlarm).Plays (elevatorType 0).init
        [.call (.setRequest 1 7 ()), .call (.setRequest 2 7 ()), .call (.addRequest 1), .call (.addRequest 2),
          .call (.completed 1)]
        (fun _ w => w.elv = ⟨[2], 0, false⟩) := by decide
    obtain ⟨tr, w, hr, -, hw⟩ := hplays.exists_run
    have hwaits := h w ⟨tr, hr⟩
    rw [hw] at hwaits
    exact absurd (hwaits (by decide)) (by decide)
  · intro hpos w hr hq
    have hpos' : (0 : Int) < requestDepth := by exact_mod_cast hpos
    obtain ⟨-, -, hwatched⟩ := watched_of_reachable (guarded requestDepth) (noopAlarm_wakes hpos') hr
    apply (hwatched hq).imp_left
    intro hshut
    apply not_le.mp
    intro hle
    exact hshut fun n hn => Option.some.inj hn ▸ hle

end Noop1

end SsdScheduler.Congestion
