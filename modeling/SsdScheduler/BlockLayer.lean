import Mathlib.Algebra.GroupWithZero.Nat
import Mathlib.Logic.Function.Basic
import SsdScheduler.Framework.Machine

/-!
# The block layer around an elevator

A scheduler of this repository is a table of callbacks, `struct elevator_type`. The block layer
takes every request through them in a fixed order: it is set, then put back or added; an added
request is completed only after it was dispatched, and put only after it was completed. Callbacks
are serialised by the queue lock, so a run is a sequence of calls. A callback that dereferences
`NULL`, leaves an array or does not return is `none`.
-/

namespace SsdScheduler

open Framework

/-- `struct request *`. -/
abbrev Rq := Nat

/-- `pid_t`. -/
abbrev Pid := Int

/-- What becomes of a sum in an `int` of 32 bits, in two's complement. -/
def wrapInt (z : Int) : Int := z.bmod (2 ^ 32)

/-- What a callback returns and does to its surroundings: its `int` result (`0` for `void`), the
request it hands to `elv_dispatch_sort`, and whether it calls `kblockd_schedule_work`. -/
structure Out where
  ret : Int
  dispatched : Option Rq
  kicked : Bool
deriving DecidableEq, Repr

/-- The result of a callback that hands out no request. -/
def Out.quiet (kicked : Bool) : Out := ⟨0, none, kicked⟩

/-- `α`, `δ` and `π` are what the surroundings contribute to a call, such as the results of the
allocator. -/
inductive Call (α δ π : Type)
  | setRequest (rq : Rq) (pid : Pid) (env : α)
  | addRequest (rq : Rq)
  | dispatch (env : δ)
  | completed (rq : Rq)
  | putRequest (rq : Rq) (env : π)

/-- Two calls hand out the same request and return the same value. -/
def Out.Agrees (o o' : Out) : Prop := o.ret = o'.ret ∧ o.dispatched = o'.dispatched

def Call.isDispatch {α δ π : Type} : Call α δ π → Bool
  | .dispatch _ => true
  | _ => false

/-- The callbacks of `struct elevator_type`. `possible` says which results the allocator can
return. -/
structure ElevatorOps (σ α δ π : Type) where
  initQueue : σ
  possible : σ → α → Bool
  setRequest : σ → Rq → Pid → α → Option (Out × σ)
  addRequest : σ → Rq → Option (Out × σ)
  dispatch : σ → δ → Option (Out × σ)
  completed : σ → Rq → Option (Out × σ)
  putRequest : σ → Rq → π → Option (Out × σ)

/-- How far a request has come since it was last set. -/
inductive Phase
  | idle | set | added | dispatched | completed
deriving DecidableEq, Repr

/-- The scheduler together with what the block layer knows: the phase of every request, the
process that set it, and the logs of the requests added and dispatched so far. -/
structure World (σ : Type) where
  elv : σ
  phase : Rq → Phase
  owner : Rq → Pid
  addLog : List (Pid × Rq)
  dispatchLog : List (Pid × Rq)

namespace World

variable {σ τ : Type}

def map (f : σ → τ) (w : World σ) : World τ := { w with elv := f w.elv }

@[simp] theorem map_elv (f : σ → τ) (w : World σ) : (w.map f).elv = f w.elv := rfl
@[simp] theorem map_phase (f : σ → τ) (w : World σ) : (w.map f).phase = w.phase := rfl
@[simp] theorem map_owner (f : σ → τ) (w : World σ) : (w.map f).owner = w.owner := rfl
@[simp] theorem map_addLog (f : σ → τ) (w : World σ) : (w.map f).addLog = w.addLog := rfl
@[simp] theorem map_dispatchLog (f : σ → τ) (w : World σ) :
    (w.map f).dispatchLog = w.dispatchLog := rfl

/-- The requests of process `p` in the order in which they were added. -/
def addedBy (w : World σ) (p : Pid) : List Rq := (w.addLog.filter (·.1 == p)).map (·.2)

/-- The requests of process `p` in the order in which they were dispatched. -/
def dispatchedBy (w : World σ) (p : Pid) : List Rq := (w.dispatchLog.filter (·.1 == p)).map (·.2)

/-- The requests that were dispatched and have not completed. -/
def outstanding (w : World σ) : Set Rq := {rq | w.phase rq = .dispatched}

def onSet (w : World σ) (s : σ) (rq : Rq) (pid : Pid) : World σ :=
  { w with elv := s, phase := Function.update w.phase rq .set, owner := Function.update w.owner rq pid }

def onAdd (w : World σ) (s : σ) (rq : Rq) : World σ :=
  { w with elv := s, phase := Function.update w.phase rq .added,
           addLog := w.addLog ++ [(w.owner rq, rq)] }

def onDispatch (w : World σ) (s : σ) : Option Rq → World σ
  | none => { w with elv := s }
  | some rq =>
    { w with elv := s, phase := Function.update w.phase rq .dispatched,
             dispatchLog := w.dispatchLog ++ [(w.owner rq, rq)] }

def onCompleted (w : World σ) (s : σ) (rq : Rq) : World σ :=
  { w with elv := s, phase := Function.update w.phase rq .completed }

def onPut (w : World σ) (s : σ) (rq : Rq) : World σ :=
  { w with elv := s, phase := Function.update w.phase rq .idle }

def after {α δ π : Type} (w : World σ) (o : Out) (s : σ) : Call α δ π → World σ
  | .setRequest rq pid _ => w.onSet s rq pid
  | .addRequest rq => w.onAdd s rq
  | .dispatch _ => w.onDispatch s o.dispatched
  | .completed rq => w.onCompleted s rq
  | .putRequest rq _ => w.onPut s rq

@[simp] theorem after_elv {α δ π : Type} (w : World σ) (o : Out) (s : σ) (c : Call α δ π) :
    (w.after o s c).elv = s := by
  cases c with
  | dispatch env => cases h : o.dispatched <;> simp [after, onDispatch, h]
  | _ => rfl

theorem map_after {α δ π : Type} (f : σ → τ) (w : World σ) {o o' : Out} (ho : o.Agrees o') (s : σ)
    (c : Call α δ π) : (w.after o s c).map f = (w.map f).after o' (f s) c := by
  cases c with
  | dispatch env =>
    simp only [after, ho.2]
    cases o'.dispatched <;> rfl
  | _ => rfl

/-- Moving a request that is under way to another phase starts no other request. -/
theorem busy_of_update {w : World σ} {rq rq' : Rq} {ph : Phase} (hb : w.phase rq ≠ .idle)
    (h : Function.update w.phase rq ph rq' ≠ .idle) : w.phase rq' ≠ .idle := by
  rcases eq_or_ne rq' rq with rfl | hne
  · exact hb
  · rwa [Function.update_of_ne hne] at h

/-- A phase other than the new one is that of another request, which has not moved. -/
theorem phase_of_update {w : World σ} {rq rq' : Rq} {ph ph' : Phase} (hne : ph ≠ ph')
    (h : Function.update w.phase rq ph rq' = ph') : rq' ≠ rq ∧ w.phase rq' = ph' := by
  rcases eq_or_ne rq' rq with rfl | hr
  · exact absurd ((Function.update_self ..).symm.trans h) hne
  · exact ⟨hr, by rwa [Function.update_of_ne hr] at h⟩

/-- The requests in a phase that the step neither ends nor begins stay the same. -/
theorem phase_update_iff {w : World σ} {rq rq' : Rq} {ph ph' : Phase} (hold : w.phase rq ≠ ph') (hne : ph ≠ ph') :
    Function.update w.phase rq ph rq' = ph' ↔ w.phase rq' = ph' := by
  refine ⟨fun h => (phase_of_update hne h).2, fun h => ?_⟩
  have hr : rq' ≠ rq := by
    rintro rfl
    exact hold h
  rwa [Function.update_of_ne hr]

/-- A request that may be put is under way and neither waits nor is outstanding. -/
theorem phase_of_put {w : World σ} {rq : Rq} (h : w.phase rq = .set ∨ w.phase rq = .completed) :
    w.phase rq ≠ .idle ∧ w.phase rq ≠ .added ∧ w.phase rq ≠ .dispatched := by
  rcases h with h | h <;> rw [h] <;> decide

theorem addedBy_onAdd (w : World σ) (s : σ) (rq : Rq) (p : Pid) :
    (w.onAdd s rq).addedBy p = w.addedBy p ++ if w.owner rq = p then [rq] else [] := by
  by_cases h : w.owner rq = p <;> simp [addedBy, onAdd, h]

theorem dispatchedBy_onDispatch (w : World σ) (s : σ) (rq : Rq) (p : Pid) :
    (w.onDispatch s (some rq)).dispatchedBy p =
      w.dispatchedBy p ++ if w.owner rq = p then [rq] else [] := by
  by_cases h : w.owner rq = p <;> simp [dispatchedBy, onDispatch, h]

end World

namespace ElevatorOps

variable {σ α δ π : Type} (ops : ElevatorOps σ α δ π)

def call (s : σ) : Call α δ π → Option (Out × σ)
  | .setRequest rq pid env => ops.setRequest s rq pid env
  | .addRequest rq => ops.addRequest s rq
  | .dispatch env => ops.dispatch s env
  | .completed rq => ops.completed s rq
  | .putRequest rq env => ops.putRequest s rq env

/-- The calls the block layer may make next. -/
def legal (w : World σ) : Call α δ π → Prop
  | .setRequest rq _ env => w.phase rq = .idle ∧ ops.possible w.elv env
  | .addRequest rq => w.phase rq = .set
  | .dispatch _ => True
  | .completed rq => w.phase rq = .dispatched
  | .putRequest rq _ => w.phase rq = .set ∨ w.phase rq = .completed

instance decidableLegal (w : World σ) : (c : Call α δ π) → Decidable (ops.legal w c)
  | .setRequest rq _ env =>
    inferInstanceAs (Decidable (w.phase rq = .idle ∧ ops.possible w.elv env = true))
  | .addRequest rq => inferInstanceAs (Decidable (w.phase rq = .set))
  | .dispatch _ => inferInstanceAs (Decidable True)
  | .completed rq => inferInstanceAs (Decidable (w.phase rq = .dispatched))
  | .putRequest rq _ => inferInstanceAs (Decidable (w.phase rq = .set ∨ w.phase rq = .completed))

def machine : Machine (World σ) (Call α δ π) Out where
  legal := ops.legal
  step w c := (ops.call w.elv c).map fun r => (r.1, w.after r.1 r.2 c)

instance decidableMachineLegal (w : World σ) (c : Call α δ π) : Decidable (ops.machine.legal w c) :=
  ops.decidableLegal w c

/-- The scheduler just after `sfq_init_queue`, with no request under way. -/
def init : World σ := ⟨ops.initQueue, fun _ => .idle, fun _ => 0, [], []⟩

/-- Worlds that some run of the block layer from the initial one reaches. -/
def Reachable (w : World σ) : Prop := ops.machine.Reachable ops.init w

theorem step_eq_some {w w' : World σ} {c : Call α δ π} {o : Out} :
    ops.machine.step w c = some (o, w') ↔
      ∃ s, ops.call w.elv c = some (o, s) ∧ w' = w.after o s c := by
  simp only [machine, Option.map_eq_some_iff, Prod.exists, Prod.mk.injEq]
  constructor
  · rintro ⟨o', s, h, rfl, rfl⟩
    exact ⟨s, h, rfl⟩
  · rintro ⟨s, h, rfl⟩
    exact ⟨o, s, h, rfl, rfl⟩

/-- `elv_drain_elevator`: forced dispatches until one returns `0`. -/
def elvDrainElevator (ops : ElevatorOps σ α Bool π) : Nat → World σ → Option (World σ)
  | 0, _ => none
  | fuel + 1, w => do
    let (o, w) ← ops.machine.step w (.dispatch true)
    if o.ret ≠ 0 then elvDrainElevator ops fuel w else some w

/-- The draining loop ends, in a world where `P` holds. -/
def DrainsTo (ops : ElevatorOps σ α Bool π) (P : World σ → Prop) (w : World σ) : Prop :=
  ∃ fuel u, ops.elvDrainElevator fuel w = some u ∧ P u

section Draining

variable {ops : ElevatorOps σ α Bool π} {P : World σ → Prop} {w w' : World σ} {o : Out}

theorem run_of_drain {fuel : Nat} (h : ops.elvDrainElevator fuel w = some w') :
    ∃ tr, ops.machine.Run w tr w' := by
  induction fuel generalizing w with
  | zero => simp [elvDrainElevator] at h
  | succ fuel ih =>
    simp only [elvDrainElevator, Option.bind_eq_bind, Option.bind_eq_some_iff, Prod.exists] at h
    obtain ⟨o, u, hs, h⟩ := h
    have hl : ops.machine.legal w (.dispatch true) := trivial
    split at h
    · obtain ⟨tr, hr⟩ := ih h
      exact ⟨_, .cons hl hs hr⟩
    · obtain rfl := Option.some.inj h
      exact ⟨_, .single hl hs⟩

theorem drainsTo_last (hs : ops.machine.step w (.dispatch true) = some (o, w')) (hr : o.ret = 0) :
    ops.DrainsTo P w ↔ P w' := by
  have hsucc (fuel : Nat) : ops.elvDrainElevator (fuel + 1) w = some w' := by
    simp [elvDrainElevator, hs, hr]
  constructor
  · rintro ⟨fuel, u, hd, hu⟩
    cases fuel with
    | zero => simp [elvDrainElevator] at hd
    | succ fuel =>
      obtain rfl : w' = u := by simpa [hsucc] using hd
      exact hu
  · intro hw
    exact ⟨1, w', hsucc 0, hw⟩

theorem drainsTo_next (hs : ops.machine.step w (.dispatch true) = some (o, w')) (hr : o.ret ≠ 0) :
    ops.DrainsTo P w ↔ ops.DrainsTo P w' := by
  have hsucc (fuel : Nat) : ops.elvDrainElevator (fuel + 1) w = ops.elvDrainElevator fuel w' := by
    simp [elvDrainElevator, hs, hr]
  constructor
  · rintro ⟨fuel, u, hd, hu⟩
    cases fuel with
    | zero => simp [elvDrainElevator] at hd
    | succ fuel => exact ⟨fuel, u, hsucc fuel ▸ hd, hu⟩
  · rintro ⟨fuel, u, hd, hu⟩
    exact ⟨fuel + 1, u, (hsucc fuel).trans hd, hu⟩

theorem not_drainsTo (hs : ops.machine.step w (.dispatch true) = none) : ¬ ops.DrainsTo P w := by
  rintro ⟨fuel, u, hd, -⟩
  cases fuel with
  | zero => simp [elvDrainElevator] at hd
  | succ fuel => simp [elvDrainElevator, hs] at hd

end Draining

end ElevatorOps
end SsdScheduler
