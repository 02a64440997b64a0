import SsdScheduler.Elevator.RequestQueue

/-!
# The elevator core over a scheduler

The functions of `elevator.c` that call the scheduler, and the block layer around them as a machine: a request
is got and inserted, waits in the scheduler unless it goes past it, is dispatched, taken and completed by the
driver, and put. `place` and the lists `waiting` and `driving` record where every request is; no function
branches on them. What the block layer does outside the repository (freeing a merged request, adding a `bio` to
one, the driver taking the first request and moving the boundary) is as its callers of the elevator core need
it.
-/

namespace SsdScheduler.Elevator

open Framework

/-- `struct elevator_type` with the callbacks for merged requests, `NULL` where the scheduler has none. -/
structure ElevatorType (σ α π : Type) extends ElevatorOps σ α Bool π where
  mergeReqFn : Option (σ → Rq → Rq → σ)
  formerReqFn : Option (σ → Rq → Option Rq)
  latterReqFn : Option (σ → Rq → Option Rq)

/-- The insertion points of `__elv_add_request`, without `ELEVATOR_INSERT_FLUSH`. -/
inductive Insertion
  | front | back | sort | requeue | sortMerge
deriving DecidableEq, Repr

/-- Where a request is: not in use, with its submitter, on its way to the back of the dispatch list, in the
scheduler, in `q->queue_head`, with the driver, or completed. -/
inductive Place
  | free | held | arriving | waiting | queued | driving | ended
deriving DecidableEq, Repr

structure Stack (σ : Type) where
  world : World σ
  queue : RequestQueue
  place : Rq → Place
  waiting : List Rq
  driving : List Rq

namespace Stack

variable {σ α π Bio : Type} (e : ElevatorType σ α π) (k : BlkOps Bio) (s : Stack σ)

/-- No request is in use. -/
def init (nomerges noxmerges : Bool) : Stack σ where
  world := e.init
  queue :=
    { rqs := fun _ => ⟨0, 0, 0, false, false, false, false, false, false, false, false, false⟩
      queueHead := [], lastMerge := none, endSector := 0, boundaryRq := none, nrSorted := 0,
      inFlight := fun _ => 0, hash := fun _ => [], nomerges := nomerges, noxmerges := noxmerges }
  place := fun _ => .free
  waiting := []
  driving := []

def put (rq : Rq) (p : Place) : Stack σ := { s with place := Function.update s.place rq p }

/-- `elevator_dispatch_fn`, which hands its request to `elv_dispatch_sort`. -/
def dispatchFn (force : Bool) : Option (Out × Stack σ) := do
  let (o, w) ← e.machine.step s.world (.dispatch force)
  match o.dispatched with
  | none => some (o, { s with world := w })
  | some rq =>
    some (o, { s.put rq .queued with
      world := w, queue := s.queue.elvDispatchSort rq, waiting := s.waiting.erase rq })

def elvDrainElevator : Nat → Stack σ → Option (Stack σ)
  | 0, _ => none
  | fuel + 1, s => do
    let (o, s) ← s.dispatchFn e true
    if o.ret ≠ 0 then elvDrainElevator fuel s else some s

/-- Free the request `rq`, with `elv_put_request` if it has elevator data. -/
def freeRequest (rq : Rq) (env : π) : Option (Stack σ) := do
  let w ← if (s.queue.rqs rq).elvpriv then (e.machine.step s.world (.putRequest rq env)).map (·.2)
    else some s.world
  some { s.put rq .free with world := w }

/-- `elevator_merge_req_fn`, if the scheduler has one. -/
def mergeReq (d : σ) (rq next : Rq) : σ :=
  match e.mergeReqFn with
  | some f => f d rq next
  | none => d

def elvMergeRequests (rq next : Rq) : Option (Stack σ) := do
  let nextSorted := (s.queue.rqs next).sorted
  let d := if nextSorted then mergeReq e s.world.elv rq next else s.world.elv
  let q ← s.queue.elvRqhashReposition k rq
  let q := if nextSorted then { q.elvRqhashDel next with nrSorted := q.nrSorted - 1 } else q
  some { s with
    world := { s.world with elv := d }, queue := { q with lastMerge := some rq },
    waiting := if nextSorted then s.waiting.erase next else s.waiting }

/-- `blk_attempt_req_merge`: `next` is appended to `rq` and freed, if the two can be merged. -/
def blkAttemptReqMerge (rq next : Rq) (env : π) : Option (Bool × Stack σ) :=
  match k.attemptReqMerge (s.queue.rqs rq) (s.queue.rqs next) with
  | none => some (false, s)
  | some merged => do
    let s := { s with queue := s.queue.modify rq fun _ => merged }
    let s ← s.elvMergeRequests e k rq next
    let s ← s.freeRequest e next env
    some (true, s)

/-- The loop of `elv_attempt_insert_merge`. -/
def insertMergeLoop (env : Rq → π) : Nat → Stack σ → Rq → Bool → Option (Bool × Stack σ)
  | 0, _, _, _ => none
  | fuel + 1, s, rq, ret => do
    let (found, q) ← s.queue.elvRqhashFind k (s.queue.rqs rq).pos
    let s := { s with queue := q }
    match found with
    | none => some (ret, s)
    | some rq' => do
      let (merged, s) ← s.blkAttemptReqMerge e k rq' rq (env rq)
      if merged then insertMergeLoop env fuel s rq' true else some (ret, s)

/-- `__rq` lies before `rq` in every round of the loop, so that it ends within `blk_rq_pos(rq) + 1` rounds. -/
def elvAttemptInsertMerge (rq : Rq) (env : Rq → π) : Option (Bool × Stack σ) :=
  if s.queue.nomerges then some (false, s)
  else do
    let (merged, s) ← match s.queue.lastMerge with
      | some last => s.blkAttemptReqMerge e k last rq (env rq)
      | none => some (false, s)
    if merged then some (true, s)
    else if s.queue.noxmerges then some (false, s)
    else insertMergeLoop e k env ((s.queue.rqs rq).pos + 1) s rq false

/-- `ELEVATOR_INSERT_SORT`. -/
def insertSort (rq : Rq) : Option (Stack σ) := do
  let q ← s.queue.sortIn k rq
  let (_, w) ← e.machine.step s.world (.addRequest rq)
  some { s.put rq .waiting with world := w, queue := q, waiting := s.waiting ++ [rq] }

/-- `ELEVATOR_INSERT_BACK`. The driver that `__blk_run_queue` runs takes steps of its own. -/
def insertBack (rq : Rq) (fuel : Nat) : Option (Stack σ) := do
  let s := { s.put rq .arriving with queue := s.queue.modify rq fun r => { r with softbarrier := true } }
  let s ← s.elvDrainElevator e fuel
  some { s.put rq .queued with queue := s.queue.atBack rq }

/-- The insertion point after the check for elevator data. -/
def insertionOf (r : Request) (whr : Insertion) : Insertion :=
  if r.softbarrier then whr
  else if !r.elvpriv && (whr = .sort || whr = .sortMerge) then .back
  else whr

/-- `__elv_add_request`. -/
def elvAddRequest (rq : Rq) (whr : Insertion) (fuel : Nat) (env : Rq → π) : Option (Stack σ) :=
  let whr := insertionOf (s.queue.rqs rq) whr
  let s := { s with queue := s.queue.noteBarrier rq }
  match whr with
  | .requeue | .front => some { s.put rq .queued with queue := s.queue.atFront rq }
  | .back => s.insertBack e rq fuel
  | .sort => s.insertSort e k rq
  | .sortMerge => do
    let (merged, s) ← s.elvAttemptInsertMerge e k rq env
    if merged then some s else s.insertSort e k rq

def elvRequeueRequest (rq : Rq) (env : Rq → π) : Option (Stack σ) :=
  let q := s.queue.countInFlight k rq (-1)
  let q := q.modify rq fun r => { r with started := false }
  { s with queue := q, driving := s.driving.erase rq }.elvAddRequest e k rq .requeue 0 env

def elvCompletedRequest (rq : Rq) : Option (Stack σ) := do
  let r := s.queue.rqs rq
  let w ← if k.account r && r.sorted then (e.machine.step s.world (.completed rq)).map (·.2) else some s.world
  some { s.put rq .ended with
    world := w, queue := s.queue.countInFlight k rq (-1), driving := s.driving.erase rq }

def elvLatterRequest (rq : Rq) : Option Rq := e.latterReqFn.bind fun f => f s.world.elv rq

def elvFormerRequest (rq : Rq) : Option Rq := e.formerReqFn.bind fun f => f s.world.elv rq

/-- The `bio` becomes part of the request at the given end. -/
def grow (bio : Bio) : MergeType → Request → Request
  | .no, r => r
  | .front, r => { r with pos := k.sector bio, sectors := r.sectors + k.sectors bio }
  | .back, r => { r with sectors := r.sectors + k.sectors bio }

/-- `attempt_back_merge` and `attempt_front_merge`, for a request that grew at its end or its beginning. -/
def attemptMerge (rq : Rq) (type : MergeType) (env : π) : Option (Bool × Stack σ) :=
  match type with
  | .no => some (false, s)
  | .back =>
    match s.elvLatterRequest e rq with
    | some next => s.blkAttemptReqMerge e k rq next env
    | none => some (false, s)
  | .front =>
    match s.elvFormerRequest e rq with
    | some prev => s.blkAttemptReqMerge e k prev rq env
    | none => some (false, s)

/-- The block layer tries to add a `bio` to a request; `accepted` says whether the device limits allow it. -/
def mergeBio (bio : Bio) (accepted : Bool) (env : π) : Option (Stack σ) := do
  let (found, q) ← s.queue.elvMerge k bio
  let s := { s with queue := q }
  match found with
  | none => some s
  | some (rq, type) =>
    if accepted then do
      let s := { s with queue := s.queue.modify rq (grow k bio type) }
      let (merged, s) ← s.attemptMerge e k rq type env
      if merged then some s else (s.queue.elvMergedRequest k rq type).map fun q => { s with queue := q }
    else some s

/-- The driver looks at the first request, which is started, and may move the boundary. -/
def peek (boundary : Option Nat) : Option (Stack σ) :=
  match s.queue.queueHead with
  | [] => none
  | rq :: _ =>
    let q := s.queue.modify rq fun r => { r with started := true }
    some { s with queue := match boundary with
      | some b => { q with endSector := b, boundaryRq := none }
      | none => q }

/-- The driver takes the first request. -/
def dequeue : Option (Stack σ) :=
  match s.queue.queueHead with
  | [] => none
  | rq :: rest =>
    some { s.put rq .driving with
      queue := { s.queue.countInFlight k rq 1 with queueHead := rest }, driving := s.driving ++ [rq] }

/-- A request that has met a device limit is not merged any more. -/
def forbidMerge (rq : Rq) : Stack σ :=
  let q := s.queue.modify rq fun r => { r with nomerge := true }
  { s with queue := { q with lastMerge := if q.lastMerge = some rq then none else q.lastMerge } }

end Stack

/-- What the submitters, the driver and the block layer between them may do. -/
inductive Act (Bio α π : Type)
  | getRequest (rq : Rq) (r : Request) (pid : Pid) (env : α)
  | addRequest (rq : Rq) (whr : Insertion) (fuel : Nat) (env : Rq → π)
  | mergeBio (bio : Bio) (accepted : Bool) (env : π)
  | forbidMerge (rq : Rq)
  | dispatch (force : Bool)
  | peek (boundary : Option Nat)
  | dequeue
  | requeue (rq : Rq) (env : Rq → π)
  | completed (rq : Rq)
  | putRequest (rq : Rq) (env : π)

namespace Stack

variable {σ α π Bio : Type} (e : ElevatorType σ α π) (k : BlkOps Bio)

/-- `elv_set_request`, for a request with elevator data; the schedulers modelled here return `0`. -/
def getRequest (s : Stack σ) (rq : Rq) (r : Request) (pid : Pid) (env : α) : Option (Stack σ) := do
  let w ← if r.elvpriv then (e.machine.step s.world (.setRequest rq pid env)).map (·.2) else some s.world
  some { s.put rq .held with world := w, queue := s.queue.modify rq fun _ => r }

def legal (s : Stack σ) : Act Bio α π → Prop
  | .getRequest rq r _ env =>
    s.place rq = .free ∧ r.Fresh ∧ (r.elvpriv = true → e.possible s.world.elv env = true)
  | .addRequest rq whr _ _ => s.place rq = .held ∧ whr ≠ .requeue
  | .mergeBio _ _ _ => True
  | .forbidMerge rq => s.place rq = .waiting
  | .dispatch _ => True
  | .peek _ => True
  | .dequeue => ∀ rq ∈ s.queue.queueHead.head?, (s.queue.rqs rq).started = true
  | .requeue rq _ => s.place rq = .driving
  | .completed rq => s.place rq = .driving
  | .putRequest rq _ => s.place rq = .held ∨ s.place rq = .ended

instance (s : Stack σ) : (a : Act Bio α π) → Decidable (legal e s a)
  | .getRequest rq r _ env =>
    inferInstanceAs (Decidable (s.place rq = .free ∧ r.Fresh ∧ (r.elvpriv = true → e.possible s.world.elv env = true)))
  | .addRequest rq whr _ _ => inferInstanceAs (Decidable (s.place rq = .held ∧ whr ≠ .requeue))
  | .mergeBio _ _ _ => inferInstanceAs (Decidable True)
  | .forbidMerge rq => inferInstanceAs (Decidable (s.place rq = .waiting))
  | .dispatch _ => inferInstanceAs (Decidable True)
  | .peek _ => inferInstanceAs (Decidable True)
  | .dequeue => inferInstanceAs (Decidable (∀ rq ∈ s.queue.queueHead.head?, (s.queue.rqs rq).started = true))
  | .requeue rq _ => inferInstanceAs (Decidable (s.place rq = .driving))
  | .completed rq => inferInstanceAs (Decidable (s.place rq = .driving))
  | .putRequest rq _ => inferInstanceAs (Decidable (s.place rq = .held ∨ s.place rq = .ended))

def step (s : Stack σ) : Act Bio α π → Option (Stack σ)
  | .getRequest rq r pid env => s.getRequest e rq r pid env
  | .addRequest rq whr fuel env => s.elvAddRequest e k rq whr fuel env
  | .mergeBio bio accepted env => s.mergeBio e k bio accepted env
  | .forbidMerge rq => some (s.forbidMerge rq)
  | .dispatch force => (s.dispatchFn e force).map (·.2)
  | .peek boundary => s.peek boundary
  | .dequeue => s.dequeue k
  | .requeue rq env => s.elvRequeueRequest e k rq env
  | .completed rq => s.elvCompletedRequest e k rq
  | .putRequest rq env => s.freeRequest e rq env

/-- The block layer with this scheduler. -/
def machine : Machine (Stack σ) (Act Bio α π) Unit where
  legal := legal e
  step s a := (step e k s a).map fun s => ((), s)

instance (s : Stack σ) (a : Act Bio α π) : Decidable ((machine e k).legal s a) := inferInstanceAs (Decidable (legal e s a))

end Stack
end SsdScheduler.Elevator
