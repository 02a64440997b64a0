import SsdScheduler.BlockLayer
import SsdScheduler.Framework.PointerHeap

/-!
# The callbacks shared by the schedulers with process queues

`sfq_set_request`, `sfq_add_request`, `sfq_completed`, `sfq_put_request` and the two halves of
`sfq_dispatch` around the `requests[]` heap are the same text in `sfq-iosched_12.c`, `sfq_3.c`,
`sfq_4.c` and `sfq_5.c` up to a few lines; the parameters of the definitions below are those
lines. The circular list `sfqd->queue` is its head, position `0`, followed by the registered
queues in registration order, positions `1, ..., n`; a pointer to a `sfq_queue` is a position, and
following one that is the list head is `none`.
-/

namespace SsdScheduler.Sfq

open Framework Framework.Heap

def requestLength : Int := 100
def requestWeight : Int := 1
def requestDepth : Int := 64

/-- A record of `sfq_pool`. -/
abbrev Addr := Nat

/-- `struct sfq_request`; its `queuelist` link is the membership in a process queue. -/
structure SfqRequest where
  startTag : Int
  finishTag : Int
  rq : Option Rq
deriving DecidableEq, Repr

/-- A record handed out with `__GFP_ZERO`. -/
def SfqRequest.zero : SfqRequest := ⟨0, 0, none⟩

/-- `struct sfq_queue`. -/
structure SfqQueue where
  pid : Pid
  queue : List Addr
deriving DecidableEq, Repr

/-- The part of `struct sfq_data` that says which requests wait and how they are tagged, with the
records of `sfq_pool` (contents and liveness) and the `elv.priv` pointers of the requests. -/
structure Core where
  virtualTime : Int
  depth : Int
  prevSfqr : Option Addr
  queue : List SfqQueue
  sfqqSize : Nat
  sfqrSize : Int
  pool : Addr → SfqRequest
  live : Addr → Bool
  priv0 : Rq → Option Nat
  priv1 : Rq → Option Addr

/-- `struct sfq_data` with the cursor, the `requests[]` heap, the timer (armed or not) and the
work item (scheduled or not). `requests` is `none` while the pointer is `NULL` or unset. -/
structure SfqData extends Core where
  osSfqq : Option Nat
  requests : Option (Block Addr)
  heapSize : Nat
  heapLimitSize : Nat
  idleSliceTimer : Bool
  unplugWork : Bool

/-- What `sfq_set_request` gets from outside: a `bio` or `NULL`, whether the allocations of the
array and of the process queue succeed, and the result of `kmem_cache_alloc_node`. -/
structure SetEnv where
  bio : Bool
  requests : Bool
  sfqq : Bool
  sfqr : Option Addr

namespace Core

/-- The queue at a position of the circular list; the head is none. -/
def sfqq? (c : Core) : Nat → Option SfqQueue
  | 0 => none
  | k + 1 => c.queue[k]?

/-- `list_next_entry` on the circular list. -/
def listNextEntry (c : Core) (k : Nat) : Nat := if k < c.queue.length then k + 1 else 0

/-- Write the queue at a position. -/
def setQueue (c : Core) (k : Nat) (q : SfqQueue) : Core := { c with queue := c.queue.set (k - 1) q }

/-- Register a queue for a new process. -/
def newQueue (c : Core) (pid : Pid) : Core :=
  { c with queue := c.queue ++ [⟨pid, []⟩], sfqqSize := c.sfqqSize + 1 }

/-- Point `priv[0]` at the process queue and `priv[1]` at a zero-filled record, if there is one. -/
def allocSfqr (c : Core) (rq : Rq) (k : Nat) : Option Addr → Core
  | some a =>
    { c with priv0 := Function.update c.priv0 rq (some k), priv1 := Function.update c.priv1 rq (some a),
             pool := Function.update c.pool a .zero, live := Function.update c.live a true }
  | none =>
    { c with priv0 := Function.update c.priv0 rq (some k), priv1 := Function.update c.priv1 rq none }

/-- The start tag of the next request: the previous one's finish tag or the virtual time. -/
def nextStartTag (c : Core) : Int :=
  match c.prevSfqr with
  | some p => if c.virtualTime < (c.pool p).finishTag then (c.pool p).finishTag else c.virtualTime
  | none => c.virtualTime

/-- Tag the record of `rq` and link it to its process queue. `wrap` is what the `int` addition
makes of a sum. -/
def addRequest (wrap : Int → Int) (c : Core) (rq : Rq) : Option Core := do
  let k ← c.priv0 rq
  let a ← c.priv1 rq
  let sfqq ← c.sfqq? k
  let sfqr : SfqRequest :=
    { startTag := c.nextStartTag
      finishTag := wrap (c.nextStartTag + requestLength / requestWeight)
      rq := some rq }
  some { c.setQueue k { sfqq with queue := sfqq.queue ++ [a] } with
    virtualTime := sfqr.startTag, prevSfqr := some a, pool := Function.update c.pool a sfqr,
    sfqrSize := c.sfqrSize + 1 }

/-- The counters after a completion. -/
def complete (c : Core) : Core := { c with depth := c.depth - 1, sfqrSize := c.sfqrSize - 1 }

/-- Free the record of `rq`; `junk` is what freed memory holds afterwards. -/
def put (c : Core) (rq : Rq) (junk : SfqRequest) : Core :=
  match c.priv1 rq with
  | some a => { c with pool := Function.update c.pool a junk, live := Function.update c.live a false }
  | none => c

/-- The queue of process `p`, empty if there is none. -/
def queueOf (c : Core) (p : Pid) : List Addr :=
  match c.queue.find? (·.pid == p) with
  | some q => q.queue
  | none => []

/-- The requests that wait in the queue of process `p`, first in line first. -/
def waiting (c : Core) (p : Pid) : List Rq := (c.queueOf p).filterMap fun a => (c.pool a).rq

/-- The number of requests in all process queues. -/
def load (c : Core) : Nat := (c.queue.map fun q => q.queue.length).sum

end Core

namespace SfqData

def kickIf (d : SfqData) (kick : Bool) : SfqData := { d with unplugWork := kick || d.unplugWork }

/-- One more slot for `requests[]`. -/
def growRequests (d : SfqData) (succeeds : Bool) : SfqData :=
  { d with
    requests :=
      if succeeds then
        if d.heapLimitSize = 0 then some (alloc 1)
        else some (resize (d.requests.getD []) (d.heapLimitSize + 1))
      else none
    heapLimitSize := d.heapLimitSize + 1 }

/-- `sfq_set_request`; `checksBio` tells the versions that return at once on a `NULL` bio. -/
def setRequest (checksBio : Bool) (d : SfqData) (rq : Rq) (pid : Pid) (env : SetEnv) :
    Option (Out × SfqData) :=
  if checksBio && !env.bio then some (.quiet false, d)
  else
    match d.queue.findIdx? (·.pid == pid) with
    | some k => some (.quiet false, { d with toCore := d.toCore.allocSfqr rq (k + 1) env.sfqr })
    | none =>
      -- the pid is written through the new pointer unchecked
      if env.sfqq then
        let d := d.growRequests env.requests
        let c := d.toCore.newQueue pid
        some (.quiet false, { d with toCore := c.allocSfqr rq c.queue.length env.sfqr })
      else none

/-- `sfq_add_request`. -/
def addRequest (wrap : Int → Int) (d : SfqData) (rq : Rq) : Option (Out × SfqData) :=
  (d.toCore.addRequest wrap rq).map fun c => (.quiet false, { d with toCore := c })

/-- `sfq_completed`, where the rest of the scheduler is woken if requests are left. -/
def completed (d : SfqData) : Out × SfqData :=
  let c := d.toCore.complete
  if 0 < c.sfqrSize then
    (.quiet true, { d with toCore := c, idleSliceTimer := true, unplugWork := true })
  else (.quiet false, { d with toCore := c })

/-- `sfq_put_request`. -/
def putRequest (d : SfqData) (rq : Rq) (junk : SfqRequest) : Out × SfqData :=
  (.quiet false, { d with toCore := d.toCore.put rq junk })

/-- The section `transfer requests into heap-queue`: the first request under the cursor moves
into the heap if there is room. The flag is `false` if the request found no room. -/
def transfer (d : SfqData) (k : Nat) : Option (Bool × SfqData) := do
  let sfqq ← d.sfqq? k
  match sfqq.queue with
  | [] => some (true, d)
  | sfqr :: rest =>
    if d.heapSize < d.heapLimitSize - 1 then
      let requests ← d.requests
      let (requests, index) ← siftUp SfqRequest.startTag d.pool (d.pool sfqr).startTag
        d.heapSize requests d.heapSize
      let requests ← store requests index sfqr
      some (true, { d with
        toCore := d.toCore.setQueue k { sfqq with queue := rest }, requests := some requests, heapSize := d.heapSize + 1 })
    else some (false, d)

/-- The section `perform the heap-sort`: the request of the root record, if the heap is not
empty, and the state after its removal. `elv_dispatch_sort` does not survive a `NULL` request. -/
def heapSort (d : SfqData) : Option (Option Rq × SfqData) :=
  if 0 < d.heapSize then do
    let requests ← d.requests
    let sfqr ← Heap.load requests 0
    let rq ← (d.pool sfqr).rq
    let size := d.heapSize - 1
    let last ← Heap.load requests size
    let requests ← store requests 0 last
    let pool ←
      if 1 < size then heapify SfqRequest.startTag requests size size d.pool 0 else some d.pool
    some (some rq, { d with
      requests := some requests, heapSize := size, pool := pool, depth := d.depth + 1 })
  else some (none, d)

/-- The first request of the queue at `k` goes to `elv_dispatch_sort` straight away. -/
def dispatchHead (d : SfqData) (k : Nat) : Option (Option Rq × SfqData) := do
  let sfqq ← d.sfqq? k
  match sfqq.queue with
  | [] => some (none, d)
  | sfqr :: rest =>
    let rq ← (d.pool sfqr).rq
    some (some rq, { d with
      toCore := { d.toCore.setQueue k { sfqq with queue := rest } with depth := d.depth + 1 } })

end SfqData

/-- The `int` result of a dispatch: `1` with a request, `0` without. -/
def dispatchOut (kicked : Bool) : Option Rq → Out
  | some rq => ⟨1, some rq, kicked⟩
  | none => .quiet kicked

end SsdScheduler.Sfq
