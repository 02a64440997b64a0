import SsdScheduler.Alpha.Sched15

/-!
# No standstill behind the depth gate of `sfq-sched_15.c`

The block layer calls `sfq_dispatch` until it returns `0`, after each request that is added and
whenever the work is executed. Between such steps, requests in the heap wait for the gate or for the
work that is scheduled.
-/

namespace SsdScheduler.Sched15

open Framework Framework.Heap Alpha

/-- A call of the block layer, or the execution of `sfq_kick_queue`. -/
inductive Action
  | call (c : Call (SetEnv Int) Bool Unit)
  | work

/-- `sfq_dispatch` is called until it returns `0`. -/
def pump (wrap : Int → Int) (w : World GatedData) : Option (World GatedData) :=
  (elevator wrap).elvDrainElevator (w.elv.size + 1) w

/-- The work item is taken off its queue before it runs. -/
def taken (w : World GatedData) : World GatedData := w.map fun s => { s with unplugWork := false }

/-- The scheduler with its work item. -/
def pumping (wrap : Int → Int) : Machine (World GatedData) Action Unit where
  legal w
    | .call c => (elevator wrap).machine.legal w c
    | .work => w.elv.unplugWork = true
  step w
    | .call (.addRequest rq) => do
      let (_, w) ← (elevator wrap).machine.step w (.addRequest rq)
      let w ← pump wrap w
      some ((), w)
    | .call c => ((elevator wrap).machine.step w c).map fun r => ((), r.2)
    | .work => (pump wrap (taken w)).map fun w => ((), w)

instance (wrap : Int → Int) (w : World GatedData) : (x : Action) → Decidable ((pumping wrap).legal w x)
  | .call c => inferInstanceAs (Decidable ((elevator wrap).machine.legal w c))
  | .work => inferInstanceAs (Decidable (w.elv.unplugWork = true))

/-- Requests in the heap wait for a completion or for the work. -/
def Watched (w : World GatedData) : Prop :=
  0 < w.elv.size → requestDepth < w.elv.depth ∨ w.elv.unplugWork = true

variable {wrap : Int → Int} {w w' : World GatedData} {o : Out} {c : Call (SetEnv Int) Bool Unit}

theorem exists_step (h : Gated.Inv w) (hl : (elevator wrap).machine.legal w c) :
    ∃ o w', (elevator wrap).machine.step w c = some (o, w') := by
  apply Gated.exists_step h keeps .resize hl
  intro rq _
  obtain ⟨f, hf⟩ := h.heap
  exact room hf.state

section Pump

variable (wrap)

/-- The loop ends, with the heap empty or the gate closed. -/
theorem drain_eq (fuel : Nat) (h : Gated.Inv w) (hfuel : w.elv.size < fuel) :
    ∃ u, (elevator wrap).elvDrainElevator fuel w = some u ∧ Gated.Inv u ∧
      (0 < u.elv.size → requestDepth < u.elv.depth) := by
  induction fuel generalizing w with
  | zero => omega
  | succ fuel ih =>
    have hl : (elevator wrap).machine.legal w (.dispatch true) := trivial
    obtain ⟨o, w', hs⟩ := exists_step h hl
    have hinv : Gated.Inv w' := h.step keeps .resize hl hs
    obtain ⟨f, hf⟩ := h.heap
    cases Gated.step_cases hf keeps .resize hl hs with
    | closed hclosed =>
      refine ⟨w, by simp [ElevatorOps.elvDrainElevator, hs, Out.quiet], h, fun hpos => ?_⟩
      exact not_le.mp fun hd => hclosed ⟨hpos, hd⟩
    | @remove _ rq h' f' hopen hrq hremove hr =>
      have hsize : h'.size < fuel := by
        have := hr.size
        omega
      obtain ⟨u, hu, hlast⟩ := ih hinv hsize
      exact ⟨u, by simpa [ElevatorOps.elvDrainElevator, hs] using hu, hlast⟩

theorem pump_eq (h : Gated.Inv w) : ∃ u, pump wrap w = some u ∧ Gated.Inv u ∧ Watched u := by
  obtain ⟨u, hu, hinv, hgate⟩ := drain_eq wrap (w.elv.size + 1) h (Nat.lt_succ_self _)
  exact ⟨u, hu, hinv, fun hpos => .inl (hgate hpos)⟩

end Pump

/-- A call that adds no request: a completion that closes the books on the last outstanding request
finds the work scheduled, if there is anything to do. -/
theorem watched_call (h : Gated.Inv w) (hw : Watched w) (hl : (elevator wrap).machine.legal w c)
    (hs : (elevator wrap).machine.step w c = some (o, w')) (hc : ∀ rq, c ≠ .addRequest rq) : Watched w' := by
  obtain ⟨f, hf⟩ := h.heap
  cases Gated.step_cases hf keeps .resize hl hs with
  | set => exact hw
  | add => exact absurd rfl (hc _)
  | closed => exact hw
  | remove hopen hrq hremove hr =>
    intro _
    rcases hw hopen.1 with hgate | hwork
    · exact absurd hopen.2 (not_le.mpr hgate)
    · exact .inr hwork
  | last hp hd =>
    intro hpos
    rcases hw hpos with hgate | hwork
    · exact absurd hd (not_le.mpr hgate)
    · exact .inr hwork
  | complete => exact fun _ => .inr rfl
  | put hp =>
    intro hpos
    apply (hw hpos).imp_right
    intro hwork
    exact Bool.or_eq_true_iff.mpr (.inr hwork)

theorem pumping_step {x : Action} (h : Gated.Inv w) (hw : Watched w) (hl : (pumping wrap).legal w x) :
    ∃ w', (pumping wrap).step w x = some ((), w') ∧ Gated.Inv w' ∧ Watched w' := by
  cases x with
  | work =>
    have htaken : Gated.Inv (taken w) := ⟨h.heap, h.curr, h.owned⟩
    obtain ⟨u, hu, hlast⟩ := pump_eq wrap htaken
    exact ⟨u, Option.map_eq_some_iff.mpr ⟨u, hu, rfl⟩, hlast⟩
  | call c =>
    have hl : (elevator wrap).machine.legal w c := hl
    obtain ⟨o, w', hs⟩ := exists_step h hl
    have hinv : Gated.Inv w' := h.step keeps .resize hl hs
    cases c with
    | addRequest rq =>
      obtain ⟨u, hu, hlast⟩ := pump_eq wrap hinv
      exact ⟨u, by simp [pumping, hs, hu], hlast⟩
    | _ =>
      refine ⟨w', Option.map_eq_some_iff.mpr ⟨_, hs, rfl⟩, hinv, ?_⟩
      exact watched_call h hw hl hs fun _ hc => by cases hc

/-- Between the steps requests in the heap wait for the gate or for scheduled work, and every step
ends. -/
theorem no_standstill (h : (pumping wrap).Reachable (elevator wrap).init w) :
    (0 < w.elv.size → requestDepth < w.elv.depth ∨ w.elv.unplugWork = true) ∧
      ∀ x, (pumping wrap).legal w x → ∃ w', (pumping wrap).step w x = some ((), w') := by
  obtain ⟨hinv, hw⟩ : Gated.Inv w ∧ Watched w := by
    apply h.invariant
    · rintro w x o w' ⟨hinv, hw⟩ hl hs
      obtain ⟨u, hu, hlast⟩ := pumping_step hinv hw hl
      obtain ⟨-, rfl⟩ := Prod.mk.inj (Option.some.inj (hu.symm.trans hs))
      exact hlast
    · exact ⟨.init, fun hpos => absurd hpos (lt_irrefl 0)⟩
  refine ⟨hw, fun x hl => ?_⟩
  obtain ⟨w', hs, -⟩ := pumping_step hinv hw hl
  exact ⟨w', hs⟩

/-- Three requests are added, two of them dispatched and completed: the third waits for the work that
the first completion scheduled. -/
theorem no_standstill_completed :
    ∃ w, (pumping id).Reachable (elevator id).init w ∧ w.elv.size = 1 ∧ w.elv.depth = 0 ∧
      w.elv.unplugWork = true := by
  have hplay : (pumping id).Plays (elevator id).init
      [.call (.setRequest 1 7 ⟨0, ⟨-5, 3, 0, some 9, 0⟩⟩), .call (.addRequest 1),
        .call (.setRequest 2 8 ⟨1, ⟨0, 0, 0, none, 0⟩⟩), .call (.addRequest 2),
        .call (.setRequest 3 7 ⟨4, ⟨0, 0, 0, none, 0⟩⟩), .call (.addRequest 3),
        .call (.completed 1), .call (.completed 2)] fun _ w => w.elv.size = 1 ∧ w.elv.depth = 0 := by decide
  obtain ⟨tr, w, hr, -, hsize, hdepth⟩ := hplay.exists_run
  rcases (no_standstill ⟨tr, hr⟩).1 (by omega) with hgate | hwork
  · exact absurd hgate (by rw [hdepth]; decide)
  · exact ⟨w, ⟨tr, hr⟩, hsize, hdepth, hwork⟩

end SsdScheduler.Sched15
