import SsdScheduler.BlockLayer
import SsdScheduler.Framework.SortedList

/-!
# `deadline_experiment/deadline_example.c`

A pending request is in the FIFO list and in the sector-sorted tree of its direction; the tree is the
list of its nodes in order. The `goto` sections of `deadline_dispatch_requests` are definitions of their
own. A `BUG_ON` that fires, the entry of an empty list and the uninitialised `data_dir` are `none`.
`front_merges` is not used.
-/

namespace SsdScheduler.DeadlineExample

open Framework

/-- `READ` and `WRITE`. -/
inductive Dir
  | read | write
deriving DecidableEq, Repr

/-- What the block layer writes to a `struct request`. -/
structure Request where
  dataDir : Dir
  sector : Nat

/-- `unsigned long` times. -/
abbrev Jiffies := BitVec 64

/-- `time_after_eq`. -/
def timeAfterEq (a b : Jiffies) : Bool := decide (0 ≤ (a - b).toInt)

def readExpire (hz : Int) : Int := hz / 2
def writeExpire (hz : Int) : Int := 5 * hz
def writesStarved : Nat := 2
def fifoBatch : Nat := 16

structure DeadlineData where
  sortList : Dir → List Rq
  fifoList : Dir → List Rq
  nextRq : Dir → Option Rq
  batching : Nat
  starved : Nat
  fifoExpire : Dir → Int
  fifoBatch : Nat
  writesStarved : Nat

/-- The elevator's data, the field `fifo_time` of the requests and the dispatch queue. -/
structure RequestQueue where
  dd : DeadlineData
  fifoTime : Rq → Jiffies
  queueHead : List Rq

def deadlineInitQueue (hz : Int) : RequestQueue where
  dd :=
    { sortList := fun _ => [], fifoList := fun _ => [], nextRq := fun _ => none, batching := 0, starved := 0
      fifoExpire := fun
        | .read => readExpire hz
        | .write => writeExpire hz
      fifoBatch := fifoBatch, writesStarved := writesStarved }
  fifoTime := fun _ => 0
  queueHead := []

variable (request : Rq → Request)

/-- The request after `rq` in sector-sorted order. -/
def deadlineLatterRequest (dd : DeadlineData) (rq : Rq) : Option Rq :=
  SortedList.next rq (dd.sortList (request rq).dataDir)

/-- `elv_rb_add` on the tree of the request's direction. -/
def deadlineAddRqRb (dd : DeadlineData) (rq : Rq) : DeadlineData :=
  let root := (request rq).dataDir
  let tree := SortedList.insert (fun rq => (request rq).sector) rq (dd.sortList root)
  { dd with sortList := Function.update dd.sortList root tree }

/-- The `BUG_ON` is that of `elv_rb_del`. -/
def deadlineDelRqRb (dd : DeadlineData) (rq : Rq) : Option DeadlineData :=
  let dataDir := (request rq).dataDir
  let dd := if dd.nextRq dataDir = some rq then
      { dd with nextRq := Function.update dd.nextRq dataDir (deadlineLatterRequest request dd rq) }
    else dd
  if rq ∈ dd.sortList dataDir then
    some { dd with sortList := Function.update dd.sortList dataDir ((dd.sortList dataDir).erase rq) }
  else none

/-- `rq_fifo_clear` takes the request out of its FIFO list. -/
def deadlineMoveToDispatch (q : RequestQueue) (rq : Rq) : Option RequestQueue := do
  let dir := (request rq).dataDir
  let dd := { q.dd with fifoList := Function.update q.dd.fifoList dir ((q.dd.fifoList dir).erase rq) }
  let dd ← deadlineDelRqRb request dd rq
  some { q with dd := dd, queueHead := q.queueHead ++ [rq] }

def deadlineMoveRequest (q : RequestQueue) (rq : Rq) : Option RequestQueue :=
  let dataDir := (request rq).dataDir
  let nextRq := Function.update (fun _ => none) dataDir (deadlineLatterRequest request q.dd rq)
  deadlineMoveToDispatch request { q with dd := { q.dd with nextRq := nextRq } } rq

def deadlineCheckFifo (jiffies : Jiffies) (q : RequestQueue) (ddir : Dir) : Option Bool := do
  let rq ← (q.dd.fifoList ddir).head?
  some (timeAfterEq jiffies (q.fifoTime rq))

def dispatchRequest (q : RequestQueue) (rq : Rq) : Option (Out × RequestQueue) := do
  let q ← deadlineMoveRequest request { q with dd := { q.dd with batching := q.dd.batching + 1 } } rq
  some (⟨0, some rq, false⟩, q)

def dispatchFindRequest (jiffies : Jiffies) (q : RequestQueue) (dataDir : Dir) : Option (Out × RequestQueue) := do
  let expired ← deadlineCheckFifo jiffies q dataDir
  let rq ← if expired ∨ q.dd.nextRq dataDir = none then (q.dd.fifoList dataDir).head? else q.dd.nextRq dataDir
  dispatchRequest request { q with dd := { q.dd with batching := 0 } } rq

def dispatchWrites (jiffies : Jiffies) (q : RequestQueue) : Option (Out × RequestQueue) :=
  if q.dd.sortList .write = [] then none
  else dispatchFindRequest request jiffies { q with dd := { q.dd with starved := 0 } } .write

/-- The selection of a direction once there is no batch to go on with. -/
def selectDirection (jiffies : Jiffies) (q : RequestQueue) : Option (Out × RequestQueue) :=
  if q.dd.fifoList .read ≠ [] then
    if q.dd.sortList .read = [] then none
    else if q.dd.fifoList .write ≠ [] then
      let q' := { q with dd := { q.dd with starved := q.dd.starved + 1 } }
      if q.dd.writesStarved ≤ q.dd.starved then dispatchWrites request jiffies q'
      else dispatchFindRequest request jiffies q' .read
    else dispatchFindRequest request jiffies q .read
  else if q.dd.fifoList .write ≠ [] then dispatchWrites request jiffies q
  else none

/-- The flag `force` is not looked at. -/
def deadlineDispatchRequests (jiffies : Jiffies) (q : RequestQueue) (_force : Bool) : Option (Out × RequestQueue) :=
  match (if q.dd.nextRq .write ≠ none then q.dd.nextRq .write else q.dd.nextRq .read) with
  | some rq => if q.dd.batching < q.dd.fifoBatch then dispatchRequest request q rq else selectDirection request jiffies q
  | none => selectDirection request jiffies q

def deadlineAddRequest (jiffies : Jiffies) (q : RequestQueue) (rq : Rq) : RequestQueue :=
  let dataDir := (request rq).dataDir
  let dd := deadlineAddRqRb request q.dd rq
  { q with
    dd := { dd with fifoList := Function.update dd.fifoList dataDir (dd.fifoList dataDir ++ [rq]) }
    fifoTime := Function.update q.fifoTime rq (jiffies + BitVec.ofInt 64 (q.dd.fifoExpire dataDir)) }

/-- The calls of the elevator, with the clock at the time of the call. -/
inductive ElevatorCall
  | addRequest (jiffies : Jiffies) (rq : Rq)
  | dispatch (jiffies : Jiffies) (force : Bool)

def ElevatorCall.isDispatch : ElevatorCall → Bool
  | .addRequest _ _ => false
  | .dispatch _ _ => true

/-- The queue and the requests added so far. -/
structure Experiment where
  queue : RequestQueue
  added : List Rq

/-- Each request is added once. -/
def elevator : Machine Experiment ElevatorCall Out where
  legal x
    | .addRequest _ rq => rq ∉ x.added
    | .dispatch _ _ => True
  step x
    | .addRequest jiffies rq => some (.quiet false, ⟨deadlineAddRequest request jiffies x.queue rq, x.added ++ [rq]⟩)
    | .dispatch jiffies force =>
      (deadlineDispatchRequests request jiffies x.queue force).map fun p => (p.1, { x with queue := p.2 })

instance (x : Experiment) : (c : ElevatorCall) → Decidable ((elevator request).legal x c)
  | .addRequest _ rq => inferInstanceAs (Decidable (rq ∉ x.added))
  | .dispatch _ _ => inferInstanceAs (Decidable True)

def init (hz : Int) : Experiment := ⟨deadlineInitQueue hz, []⟩

/-- The states that some run of adds and dispatches reaches. -/
def Reachable (hz : Int) (x : Experiment) : Prop := (elevator request).Reachable (init hz) x

/-- A request is pending in one of the directions. -/
def Pending (q : RequestQueue) : Prop := ∃ d, q.dd.fifoList d ≠ []

end SsdScheduler.DeadlineExample
