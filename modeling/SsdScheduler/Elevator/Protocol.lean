import SsdScheduler.Elevator.Stack

/-!
# What a scheduler may expect of the elevator core

Seen from the scheduler a run of the block layer is a sequence of its callbacks. The protocol adds to the calls
of `ElevatorOps.legal` the one that they leave out: a request that waits is merged into another one that waits,
and put at once.
-/

namespace SsdScheduler.Elevator

open Framework

/-- A call of the scheduler, or the merge of `next` into `rq` with the call that puts `next`. -/
inductive Move (α π : Type)
  | call (c : Call α Bool π)
  | mergeReq (rq next : Rq) (env : π)

namespace ElevatorType

variable {σ α π : Type} (e : ElevatorType σ α π)

/-- The block layer as the scheduler sees it; `merging` says whether waiting requests are merged away. -/
def protocol (merging : Bool) : Machine (World σ) (Move α π) Out where
  legal
    | w, .call c => e.legal w c
    | w, .mergeReq rq next _ => merging = true ∧ w.phase rq = .added ∧ w.phase next = .added ∧ rq ≠ next
  step
    | w, .call c => e.machine.step w c
    | w, .mergeReq rq next env =>
      e.machine.step { w with elv := Stack.mergeReq e w.elv rq next } (.putRequest next env)

/-- Worlds that the protocol reaches from the initial one. -/
def Meets (merging : Bool) (w : World σ) : Prop := (e.protocol merging).Reachable e.init w

/-- What the elevator core relies on: the scheduler hands out requests it was given, and names neighbours among
them; where it names none, it is spared merges. -/
structure Contract (merging : Bool) : Prop where
  serves : ∀ w, e.Meets merging w → ∀ force o d rq, e.dispatch w.elv force = some (o, d) → o.dispatched = some rq →
    w.phase rq = .added
  latter : ∀ w, e.Meets merging w → ∀ f, e.latterReqFn = some f → ∀ rq next, w.phase rq = .added →
    f w.elv rq = some next → w.phase next = .added
  former : ∀ w, e.Meets merging w → ∀ f, e.formerReqFn = some f → ∀ rq prev, w.phase rq = .added →
    f w.elv rq = some prev → w.phase prev = .added
  quiet : merging = false → e.latterReqFn = none ∧ e.formerReqFn = none

/-- What `elv_drain_elevator` relies on: a forced dispatch returns, and hands out a request as long as there is one. -/
structure Empties (merging : Bool) : Prop where
  returns : ∀ w, e.Meets merging w → ∃ o d, e.dispatch w.elv true = some (o, d)
  progress : ∀ w, e.Meets merging w → ∀ o d, e.dispatch w.elv true = some (o, d) → o.ret ≠ 0 → o.dispatched.isSome = true
  last : ∀ w, e.Meets merging w → ∀ o d, e.dispatch w.elv true = some (o, d) → o.ret = 0 → ∀ rq, w.phase rq ≠ .added

variable {e} {merging : Bool} {w w' : World σ} {o : Out}

theorem Meets.call {c : Call α Bool π} (h : e.Meets merging w) (hl : e.legal w c)
    (hs : e.machine.step w c = some (o, w')) : e.Meets merging w' :=
  h.step (M := e.protocol merging) (i := .call c) hl hs

theorem Meets.mergeReq {rq next : Rq} {env : π} (h : e.Meets merging w) (hm : merging = true) (hrq : w.phase rq = .added)
    (hnext : w.phase next = .added) (hne : rq ≠ next)
    (hs : e.machine.step { w with elv := Stack.mergeReq e w.elv rq next } (.putRequest next env) = some (o, w')) :
    e.Meets merging w' :=
  h.step (M := e.protocol merging) (i := .mergeReq rq next env) ⟨hm, hrq, hnext, hne⟩ hs

/-- Without merges the protocol is the one of `ElevatorOps`. -/
theorem Meets.reachable (h : e.Meets false w) : e.Reachable w := by
  apply h.invariant
  · intro u i o v hu hl hs
    cases i with
    | call c => exact hu.step hl hs
    | mergeReq rq next env => exact absurd hl.1 Bool.false_ne_true
  · exact .init

theorem Meets.of_reachable (h : e.Reachable w) : e.Meets merging w :=
  h.invariant (fun _ _ _ _ hu hl hs => hu.call hl hs) .init

end ElevatorType
end SsdScheduler.Elevator
