import SsdScheduler.Elevator.Protocol
import SsdScheduler.Framework.SortedList

/-!
# `noop_experiment/noop-iosched.c`

The scheduler keeps its requests in one list in the order of their arrival, and forgets those that are merged
away. It has no private data for a request, so that setting, completing and putting one does nothing.
-/

namespace SsdScheduler.Noop

open Framework Elevator

/-- The entries of `nd->queue`, first to last. -/
abbrev NoopData := List Rq

def noopMergedRequests (nd : NoopData) (_rq next : Rq) : NoopData := nd.erase next

def noopDispatch (nd : NoopData) (_force : Bool) : Option (Out × NoopData) :=
  match nd with
  | [] => some (.quiet false, [])
  | rq :: nd => some (⟨1, some rq, false⟩, nd)

def noopAddRequest (nd : NoopData) (rq : Rq) : Option (Out × NoopData) := some (.quiet false, nd ++ [rq])

def noopFormerRequest (nd : NoopData) (rq : Rq) : Option Rq := SortedList.next rq nd.reverse

def noopLatterRequest (nd : NoopData) (rq : Rq) : Option Rq := SortedList.next rq nd

def noopInitQueue : NoopData := []

def elevator : ElevatorType NoopData Unit Unit where
  initQueue := noopInitQueue
  possible _ _ := true
  setRequest nd _ _ _ := some (.quiet false, nd)
  addRequest := noopAddRequest
  dispatch := noopDispatch
  completed nd _ := some (.quiet false, nd)
  putRequest nd _ _ := some (.quiet false, nd)
  mergeReqFn := some noopMergedRequests
  formerReqFn := some noopFormerRequest
  latterReqFn := some noopLatterRequest

/-- The list holds the requests that were added and not yet dispatched. -/
structure Holds (w : World NoopData) : Prop where
  nodup : w.elv.Nodup
  mem : ∀ rq, rq ∈ w.elv ↔ w.phase rq = .added

variable {w w' : World NoopData} {o : Out}

/-- A step that neither adds nor hands out a request. -/
theorem Holds.frame (h : Holds w) {rq : Rq} {ph : Phase} {own : Rq → Pid} {al dl : List (Pid × Rq)}
    (hold : w.phase rq ≠ .added) (hne : ph ≠ .added) :
    Holds ⟨w.elv, Function.update w.phase rq ph, own, al, dl⟩ where
  nodup := h.nodup
  mem x := (h.mem x).trans (World.phase_update_iff hold hne).symm

/-- A request leaves the list. -/
theorem Holds.erase (h : Holds w) (rq : Rq) (ph : Phase) (own : Rq → Pid) (al dl : List (Pid × Rq)) (hne : ph ≠ .added) :
    Holds ⟨w.elv.erase rq, Function.update w.phase rq ph, own, al, dl⟩ where
  nodup := h.nodup.erase rq
  mem x := by
    rcases eq_or_ne x rq with rfl | hx
    · simp [h.nodup.mem_erase_iff, hne]
    · simp [h.nodup.mem_erase_iff, hx, h.mem x]

theorem dispatch_cons {rq : Rq} {nd : NoopData} {force : Bool} (hq : w.elv = rq :: nd) :
    elevator.machine.step w (.dispatch force) =
      some (⟨1, some rq, false⟩, w.onDispatch nd (some rq)) := by
  simp [ElevatorOps.machine, ElevatorOps.call, elevator, noopDispatch, hq, World.after]

theorem dispatch_nil {force : Bool} (hq : w.elv = []) :
    elevator.machine.step w (.dispatch force) = some (.quiet false, w) := by
  obtain ⟨nd, phase, owner, al, dl⟩ := w
  obtain rfl : nd = [] := hq
  rfl

theorem Holds.step (h : Holds w) {i : Move Unit Unit} (hl : (elevator.protocol true).legal w i)
    (hs : (elevator.protocol true).step w i = some (o, w')) : Holds w' := by
  cases i with
  | mergeReq rq next env =>
    obtain ⟨-, -, hnext, -⟩ := hl
    cases hs
    exact h.erase next .idle _ _ _ (by simp)
  | call c =>
    cases c with
    | setRequest rq pid env =>
      cases hs
      have hl : w.phase rq = .idle := hl.1
      exact h.frame (by simp [hl]) (by simp)
    | addRequest rq =>
      cases hs
      have hl : w.phase rq = .set := hl
      have hnot : rq ∉ w.elv := by simp [h.mem rq, hl]
      refine ⟨?_, fun x => ?_⟩
      · refine List.nodup_append.mpr ⟨h.nodup, List.nodup_singleton rq, fun x hx y hy he => hnot ?_⟩
        rw [← List.mem_singleton.mp hy, ← he]
        exact hx
      · show x ∈ w.elv ++ [rq] ↔ Function.update w.phase rq .added x = .added
        rcases eq_or_ne x rq with rfl | hx
        · simp
        · simp [hx, h.mem x]
    | dispatch force =>
      change elevator.machine.step w (.dispatch force) = _ at hs
      cases hq : w.elv with
      | nil =>
        rw [dispatch_nil hq] at hs
        cases hs
        exact h
      | cons rq nd =>
        rw [dispatch_cons hq] at hs
        cases hs
        have herase := h.erase rq .dispatched w.owner w.addLog (w.dispatchLog ++ [(w.owner rq, rq)]) (by simp)
        rwa [hq, List.erase_cons_head] at herase
    | completed rq =>
      cases hs
      have hl : w.phase rq = .dispatched := hl
      exact h.frame (by simp [hl]) (by simp)
    | putRequest rq env =>
      cases hs
      exact h.frame (World.phase_of_put hl).2.1 (by simp)

theorem Holds.of_meets (h : elevator.Meets true w) : Holds w :=
  h.invariant (fun _ _ _ _ hi hl hs => hi.step hl hs) ⟨List.nodup_nil, fun _ => by simp [ElevatorOps.init, elevator, noopInitQueue]⟩

theorem mem_of_next {a b : Rq} {l : List Rq} (h : SortedList.next a l = some b) : b ∈ l := by
  induction l with
  | nil => cases h
  | cons c l ih =>
    unfold SortedList.next at h
    split at h
    · exact List.mem_cons_of_mem c (List.mem_of_mem_head? h)
    · exact List.mem_cons_of_mem c (ih h)

/-- The scheduler keeps its side of the protocol, merges included. -/
theorem contract : elevator.Contract true where
  serves w h force o d rq hd ho := by
    have hw := Holds.of_meets h
    change noopDispatch w.elv force = some (o, d) at hd
    cases hq : w.elv with
    | nil =>
      rw [hq] at hd
      cases hd
      cases ho
    | cons x nd =>
      rw [hq] at hd
      cases hd
      obtain rfl : x = rq := Option.some.inj ho
      exact (hw.mem x).mp (by simp [hq])
  latter w h f hf rq next _ hn := by
    obtain rfl : noopLatterRequest = f := Option.some.inj hf
    exact ((Holds.of_meets h).mem next).mp (mem_of_next hn)
  former w h f hf rq prev _ hp := by
    obtain rfl : noopFormerRequest = f := Option.some.inj hf
    exact ((Holds.of_meets h).mem prev).mp (List.mem_reverse.mp (mem_of_next hp))
  quiet h := by cases h

/-- Whether it is forced or not, a dispatch that has nothing to give finds the list empty. -/
theorem empties : elevator.Empties true where
  returns w _ := by
    show ∃ o d, noopDispatch w.elv true = some (o, d)
    cases w.elv with
    | nil => exact ⟨_, _, rfl⟩
    | cons rq nd => exact ⟨_, _, rfl⟩
  progress w _ o d hd hret := by
    change noopDispatch w.elv true = some (o, d) at hd
    cases hq : w.elv with
    | nil =>
      rw [hq] at hd
      cases hd
      exact absurd rfl hret
    | cons rq nd =>
      rw [hq] at hd
      cases hd
      rfl
  last w h o d hd hret rq hp := by
    have hmem := ((Holds.of_meets h).mem rq).mpr hp
    change noopDispatch w.elv true = some (o, d) at hd
    cases hq : w.elv with
    | nil =>
      rw [hq] at hmem
      cases hmem
    | cons x nd =>
      rw [hq] at hd
      cases hd
      cases hret

end SsdScheduler.Noop
