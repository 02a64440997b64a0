import SsdScheduler.Sfq.HeapPath

/-!
# `ssd_scheduler_theta/sfq_5.c`

The cursor recognises the list head by its process number. The head of `sfqd->queue` is no
`sfq_queue`: read as one, its `pid` and the emptiness of its `queue` are whatever the neighbouring
fields of `sfq_data` hold.
-/

namespace SsdScheduler.Sfq5

open Framework Framework.Heap Sfq

/-- `struct sfq_data` with `wrong_sfqq` and `chara_locker`. -/
structure WrongData extends SfqData where
  wrongSfqq : Option Nat
  charaLocker : Int

/-- The argument of a dispatch, and the list head read as an `sfq_queue` during it. -/
structure DispatchEnv where
  force : Bool
  pid : Pid
  queueEmpty : Bool

def initQueue : WrongData where
  virtualTime := 0
  depth := 0
  prevSfqr := none
  queue := []
  sfqqSize := 0
  sfqrSize := 0
  pool := fun _ => .zero
  live := fun _ => false
  priv0 := fun _ => none
  priv1 := fun _ => none
  osSfqq := none
  requests := none
  heapSize := 0
  heapLimitSize := 0
  idleSliceTimer := false
  unplugWork := false
  wrongSfqq := none
  charaLocker := 0

def sfqSetRequest (s : WrongData) (rq : Rq) (pid : Pid) (env : SetEnv) : Option (Out × WrongData) := do
  let (o, d) ← s.setRequest true rq pid env
  -- the zero that is written to `start_tag` at the end does not survive a `NULL` record
  if env.bio && env.sfqr.isNone then none else some (o, { s with toSfqData := d })

def sfqAddRequest (wrap : Int → Int) (s : WrongData) (rq : Rq) : Option (Out × WrongData) :=
  (s.toSfqData.addRequest wrap rq).map fun r => (r.1, { s with toSfqData := r.2 })

/-- The process number found at a position of the circular list. -/
def pidAt (c : Core) (env : DispatchEnv) (k : Nat) : Pid :=
  match c.sfqq? k with
  | some sfqq => sfqq.pid
  | none => env.pid

def listEmpty (c : Core) (env : DispatchEnv) (k : Nat) : Bool :=
  match c.sfqq? k with
  | some sfqq => sfqq.queue.isEmpty
  | none => env.queueEmpty

/-- The loop at the label `next_dispatch`. -/
def nextDispatch (env : DispatchEnv) : Nat → WrongData → Option WrongData
  | 0, _ => none
  | fuel + 1, s => do
    let os ← s.osSfqq
    let sfqq := s.listNextEntry os
    let s := { s with osSfqq := some sfqq }
    match s.wrongSfqq with
    | none => nextDispatch env fuel { s with wrongSfqq := some (s.listNextEntry sfqq) }
    | some wrong => if pidAt s.toCore env sfqq = pidAt s.toCore env wrong then nextDispatch env fuel s else some s

/-- The section `transfer requests into heap-queue`. The list head is no place to take a record
from. -/
def transfer (s : WrongData) (env : DispatchEnv) (k : Nat) : Option WrongData :=
  match s.sfqq? k with
  | some _ => (s.toSfqData.transfer k).map fun r => { s with toSfqData := r.2 }
  | none =>
    if env.queueEmpty then some s
    else if s.heapSize < s.heapLimitSize - 1 then none
    else some s

/-- From the label `dispatch_section` on; a record without request is dropped. -/
def dispatchSection (kicked : Bool) (s : WrongData) : Option (Out × WrongData) :=
  if 0 < s.heapSize then do
    let requests ← s.requests
    let sfqr ← Heap.load requests 0
    let size := s.heapSize - 1
    let last ← Heap.load requests size
    let requests ← store requests 0 last
    let pool ←
      if 1 < size then heapify SfqRequest.startTag requests size size s.pool 0 else some s.pool
    some (⟨1, (s.pool sfqr).rq, kicked⟩, { s with
      requests := some requests, heapSize := size, pool := pool, depth := s.depth + 1
      unplugWork := kicked || s.unplugWork })
  else some (.quiet kicked, { s with unplugWork := kicked || s.unplugWork })

/-- From the depth test on. -/
def limited (env : DispatchEnv) (s : WrongData) : Option (Out × WrongData) :=
  if requestDepth < s.depth then
    let kicked := decide (s.sfqrSize ≠ 0)
    some (.quiet kicked, { s with unplugWork := kicked || s.unplugWork })
  else do
    let k ← s.osSfqq
    let s ← transfer s env k
    dispatchSection false s

def sfqDispatch (s : WrongData) (env : DispatchEnv) : Option (Out × WrongData) :=
  let s := { s with idleSliceTimer := true }
  match s.osSfqq with
  | none =>
    match s.queue with
    | [] => some (.quiet false, s)
    | _ :: _ => limited env { s with osSfqq := some 1 }
  | some _ => do
    let s ← nextDispatch env (s.queue.length + 3) s
    let k ← s.osSfqq
    if listEmpty s.toCore env k then dispatchSection (decide (s.sfqrSize ≠ 0 ∧ s.charaLocker ≠ 0)) s
    else limited env s

def sfqCompleted (s : WrongData) (_rq : Rq) : Option (Out × WrongData) :=
  let s := { s with toCore := s.toCore.complete, idleSliceTimer := false }
  if 0 < s.sfqrSize then some (.quiet true, { s with unplugWork := true, charaLocker := 1 })
  else some (.quiet false, s)

def sfqPutRequest (s : WrongData) (rq : Rq) (junk : SfqRequest) : Option (Out × WrongData) :=
  some ((s.putRequest rq junk).1, { s with toSfqData := (s.putRequest rq junk).2 })

def elevator (wrap : Int → Int) : ElevatorOps WrongData SetEnv DispatchEnv SfqRequest where
  initQueue := initQueue
  possible s env := env.sfqr.all fun a => !s.live a
  setRequest := sfqSetRequest
  addRequest := sfqAddRequest wrap
  dispatch := sfqDispatch
  completed := sfqCompleted
  putRequest := sfqPutRequest

end SsdScheduler.Sfq5
