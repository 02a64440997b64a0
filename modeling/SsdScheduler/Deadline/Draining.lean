import SsdScheduler.Deadline.Pending

/-!
# What `deadline_dispatch_requests` reports

The function has one `return`, of `0`, which also ends the dispatches that moved a request, and no way
out when it finds nothing pending.
-/

namespace SsdScheduler.DeadlineExample

open Framework

variable {request : Rq → Request} {x x' : Experiment} {o : Out} {hz : Int}

/-- `elv_drain_elevator`: forced dispatches until one returns `0`, with the clock at each of them. -/
def elvDrainElevator (request : Rq → Request) : List Jiffies → RequestQueue → Option RequestQueue
  | [], _ => none
  | jiffies :: clock, q => do
    let (o, q) ← deadlineDispatchRequests request jiffies q true
    if o.ret ≠ 0 then elvDrainElevator request clock q else some q

/-- The dispatches of this state return something other than `0` exactly if they move a request, return
`0` and change nothing if none is pending, and drain both directions when they are repeated. -/
def ReportsMoves (request : Rq → Request) (q : RequestQueue) : Prop :=
  (∀ jiffies force, ∃ o q', deadlineDispatchRequests request jiffies q force = some (o, q') ∧
    (o.ret ≠ 0 ↔ o.dispatched ≠ none)) ∧
  (¬ Pending q → ∀ jiffies force, ∃ o, deadlineDispatchRequests request jiffies q force = some (o, q) ∧ o.ret = 0) ∧
  ∃ n, ∀ clock : List Jiffies, n ≤ clock.length → ∃ q', elvDrainElevator request clock q = some q' ∧
    ∀ d, q'.dd.fifoList d = [] ∧ q'.dd.sortList d = []

/-- The drain ends after its first dispatch, whatever is left. -/
theorem Inv.drain_stops (h : Inv request x) (hp : Pending x.queue) (jiffies : Jiffies) (clock : List Jiffies) :
    ∃ rq q', elvDrainElevator request (jiffies :: clock) x.queue = some q' ∧
      (pending x.queue).Perm (rq :: pending q') := by
  obtain ⟨rq, b, s, hroute, hd⟩ := h.views.dispatch_eq hp jiffies true
  have hdrain : elvDrainElevator request (jiffies :: clock) x.queue = some (moved request x.queue rq b s) := by
    simp [elvDrainElevator, hd]
  exact ⟨rq, _, hdrain, pending_moved (hroute.mem h.views)⟩

/-- In no state that a run reaches is the result of a dispatch what the drain takes it for. -/
theorem never_reports_moves (h : Reachable request hz x) : ¬ ReportsMoves request x.queue := by
  have hinv := Inv.of_reachable h
  intro ⟨hresult, _, _⟩
  obtain ⟨o, q', hd, hret⟩ := hresult 0 true
  by_cases hp : Pending x.queue
  · obtain ⟨rq, b, s, -, hmove⟩ := hinv.views.dispatch_eq hp 0 true
    obtain ⟨rfl, -⟩ := Prod.mk.inj (Option.some.inj (hmove.symm.trans hd))
    exact hret.mpr (Option.some_ne_none rq) rfl
  · rw [hinv.idle hp 0 true] at hd
    cases hd

/-- Every request is a read. -/
private def allReads (rq : Rq) : Request := ⟨.read, rq⟩

/-- Of three reads one has been moved and two are pending. -/
theorem never_reports_moves_three :
    ∃ x, Reachable allReads 250 x ∧ x.queue.queueHead = [1] ∧ x.queue.dd.fifoList .read = [2, 3] ∧
      ¬ ReportsMoves allReads x.queue := by
  have hplay : (elevator allReads).Plays (init 250) [.addRequest 3 1, .addRequest 4 2, .addRequest 5 3, .dispatch 6 false]
      fun _ x => x.queue.queueHead = [1] ∧ x.queue.dd.fifoList .read = [2, 3] := by decide
  obtain ⟨tr, x, hr, -, hhead, hread⟩ := hplay.exists_run
  exact ⟨x, ⟨tr, hr⟩, hhead, hread, never_reports_moves ⟨tr, hr⟩⟩

/-- Of two reads the first dispatch moves one and returns `0`, where the drain stops; and a dispatch in the
initial state has no way out. -/
theorem drain_stops_early :
    ∃ x q, Reachable allReads 250 x ∧
      elvDrainElevator allReads [9, 10, 11] x.queue = some q ∧ q.queueHead = [1] ∧
      q.dd.fifoList .read = [2] ∧
      (∃ q', deadlineDispatchRequests allReads 9 x.queue true = some (⟨0, some 1, false⟩, q')) ∧
      deadlineDispatchRequests allReads 9 (init 250).queue true = none := by
  have hplay : (elevator allReads).Plays (init 250) [.addRequest 3 1, .addRequest 4 2] fun _ x =>
      ∃ q ∈ elvDrainElevator allReads [9, 10, 11] x.queue, q.queueHead = [1] ∧
        q.dd.fifoList .read = [2] ∧
        ∃ p ∈ deadlineDispatchRequests allReads 9 x.queue true, p.1 = ⟨0, some 1, false⟩ := by decide
  obtain ⟨tr, x, hr, -, q, hq, hhead, hread, ⟨o, q'⟩, hd, rfl⟩ := hplay.exists_run
  exact ⟨x, q, ⟨tr, hr⟩, hq, hhead, hread, ⟨q', hd⟩, rfl⟩

end SsdScheduler.DeadlineExample
