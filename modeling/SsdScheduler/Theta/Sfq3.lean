import SsdScheduler.Sfq.HeapPath

/-!
# `ssd_scheduler_theta/sfq_3.c`

Two things run a queue again besides the block layer's own calls. The timer, when it expires,
schedules the work; the work, when it is executed, has the block layer dispatch.
-/

namespace SsdScheduler.Sfq3

open Framework Framework.Heap Sfq

/-- `struct sfq_data` with `chara_locker`. -/
structure CharaData extends SeekData where
  charaLocker : Int

def initQueue : CharaData := { SeekData.initial with charaLocker := 0 }

def sfqSetRequest (s : CharaData) (rq : Rq) (pid : Pid) (env : SetEnv) : Option (Out × CharaData) := do
  let (o, d) ← s.setRequest true rq pid env
  -- the zero that is written to `start_tag` at the end does not survive a `NULL` record
  if env.bio && env.sfqr.isNone then none else some (o, { s with toSfqData := d })

def sfqAddRequest (wrap : Int → Int) (s : CharaData) (rq : Rq) : Option (Out × CharaData) :=
  (s.toSfqData.addRequest wrap rq).map fun r => (r.1, { s with toSfqData := r.2 })

/-- From the label `dispatch_section` on; a record without request is dropped. -/
def dispatchSection (kicked : Bool) (s : CharaData) : Option (Out × CharaData) :=
  if 0 < s.heapSize then do
    let requests ← s.requests
    let sfqr ← Heap.load requests 0
    let rq := (s.pool sfqr).rq
    let size := s.heapSize - 1
    let last ← Heap.load requests size
    let requests ← store requests 0 last
    let pool ←
      if 1 < size then heapify SfqRequest.startTag requests size size s.pool 0 else some s.pool
    some (⟨1, rq, kicked⟩, { s with
      requests := some requests, heapSize := size, pool := pool, depth := s.depth + 1
      unplugWork := kicked || s.unplugWork })
  else some (.quiet kicked, { s with unplugWork := kicked || s.unplugWork })

/-- From the depth test on. -/
def limited (s : CharaData) : Option (Out × CharaData) :=
  if requestDepth < s.depth then
    let kicked := decide (s.sfqrSize ≠ 0)
    some (.quiet kicked, { s with unplugWork := kicked || s.unplugWork })
  else do
    let k ← s.osSfqq
    let (_, d) ← s.toSfqData.transfer k
    dispatchSection false { s with toSfqData := d }

/-- The flag `force` is not looked at. -/
def sfqDispatch (s : CharaData) (_force : Bool) : Option (Out × CharaData) :=
  let s := { s with idleSliceTimer := true }
  match s.osSfqq with
  | none =>
    match s.queue with
    | [] => some (.quiet false, s)
    | _ :: _ => limited { s with osSfqq := some 1, sfqqTotalSeek := s.sfqqTotalSeek + 1 }
  | some _ => do
    let (_, t) ← SeekData.nextDispatch (s.queue.length + 2) s.toSeekData
    let s := { s with toSeekData := t }
    let k ← s.osSfqq
    let sfqq ← s.sfqq? k
    if sfqq.queue = [] then dispatchSection (decide (s.sfqrSize ≠ 0 ∧ s.charaLocker ≠ 0)) s
    else limited s

def sfqCompleted (s : CharaData) (_rq : Rq) : Option (Out × CharaData) :=
  let s := { s with toCore := s.toCore.complete, idleSliceTimer := false }
  if 0 < s.sfqrSize then some (.quiet true, { s with unplugWork := true, charaLocker := 1 })
  else some (.quiet false, s)

def sfqPutRequest (s : CharaData) (rq : Rq) (junk : SfqRequest) : Option (Out × CharaData) :=
  some ((s.putRequest rq junk).1, { s with toSfqData := (s.putRequest rq junk).2 })

def elevator (wrap : Int → Int) : ElevatorOps CharaData SetEnv Bool SfqRequest where
  initQueue := initQueue
  possible s env := env.sfqr.all fun a => !s.live a
  setRequest := sfqSetRequest
  addRequest := sfqAddRequest wrap
  dispatch := sfqDispatch
  completed := sfqCompleted
  putRequest := sfqPutRequest

/-- `sfq_idle_slice_timer`, which the armed timer calls once. -/
def sfqIdleSliceTimer (s : CharaData) : Out × CharaData :=
  let kicked := decide (s.sfqrSize ≠ 0)
  (.quiet kicked, { s with idleSliceTimer := false, unplugWork := kicked || s.unplugWork })

/-- What can happen next: a call of the block layer, the expiry of the timer, or the execution of
`sfq_kick_queue`, which leads to a dispatch. -/
inductive Step
  | call (c : Call SetEnv Bool SfqRequest)
  | timer
  | work (force : Bool)

/-- The work item is taken off its queue before it runs. -/
def taken (w : World CharaData) : World CharaData := w.map fun s => { s with unplugWork := false }

/-- The scheduler with its timer and its work item. -/
def waking (wrap : Int → Int) : Machine (World CharaData) Step Out where
  legal w
    | .call c => (elevator wrap).machine.legal w c
    | .timer => w.elv.idleSliceTimer = true
    | .work _ => w.elv.unplugWork = true
  step w
    | .call c => (elevator wrap).machine.step w c
    | .timer => some ((sfqIdleSliceTimer w.elv).1, { w with elv := (sfqIdleSliceTimer w.elv).2 })
    | .work force => (elevator wrap).machine.step (taken w) (.dispatch force)

/-- The steps in which `sfq_dispatch` is called. -/
def Step.dispatches : Step → Bool
  | .call c => c.isDispatch
  | .timer => false
  | .work _ => true

instance (wrap : Int → Int) (w : World CharaData) : (x : Step) → Decidable ((waking wrap).legal w x)
  | .call c => inferInstanceAs (Decidable ((elevator wrap).machine.legal w c))
  | .timer => inferInstanceAs (Decidable (w.elv.idleSliceTimer = true))
  | .work _ => inferInstanceAs (Decidable (w.elv.unplugWork = true))

end SsdScheduler.Sfq3
