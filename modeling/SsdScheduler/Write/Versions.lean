import SsdScheduler.Sfq.HeapPath

/-!
# `sfq_write_experiment/sfq_3.c` and `sfq_write_experiment/sfq_4.c`

The two files set, add and put requests in the same words and differ in `sfq_dispatch` and
`sfq_completed`.
-/

namespace SsdScheduler.Write

open Framework Sfq

def initQueue : SeekData := .initial

def sfqSetRequest (s : SeekData) (rq : Rq) (pid : Pid) (env : SetEnv) : Option (Out × SeekData) :=
  (s.setRequest true rq pid env).map fun r => (r.1, { s with toSfqData := r.2 })

def sfqAddRequest (wrap : Int → Int) (s : SeekData) (rq : Rq) : Option (Out × SeekData) :=
  (s.toSfqData.addRequest wrap rq).map fun r => (r.1, { s with toSfqData := r.2 })

def sfqPutRequest (s : SeekData) (rq : Rq) (junk : SfqRequest) : Option (Out × SeekData) :=
  some ((s.putRequest rq junk).1, { s with toSfqData := (s.putRequest rq junk).2 })

def elevator (wrap : Int → Int) (sfqDispatch : SeekData → Bool → Option (Out × SeekData))
    (sfqCompleted : SeekData → Rq → Option (Out × SeekData)) :
    ElevatorOps SeekData SetEnv Bool SfqRequest where
  initQueue := initQueue
  possible s env := env.sfqr.all fun a => !s.live a
  setRequest := sfqSetRequest
  addRequest := sfqAddRequest wrap
  dispatch := sfqDispatch
  completed := sfqCompleted
  putRequest := sfqPutRequest

namespace Sfq3

def sfqDispatch (s : SeekData) (_force : Bool) : Option (Out × SeekData) :=
  SeekData.dispatchWith (fun d _ => some (true, d)) SfqData.dispatchHead s

def sfqCompleted (s : SeekData) (_rq : Rq) : Option (Out × SeekData) := do
  -- the message names the process under the cursor
  let k ← s.osSfqq
  let _ ← s.sfqq? k
  some (s.completed.1, { s with toSfqData := s.completed.2 })

def elevator (wrap : Int → Int) : ElevatorOps SeekData SetEnv Bool SfqRequest :=
  Write.elevator wrap sfqDispatch sfqCompleted

end Sfq3

namespace Sfq4

/-- From the label `dispatch_section` on: the root of the heap, or else, under `something wrong`,
the head of the queue under the cursor. -/
def dispatchSection (d : SfqData) (k : Nat) : Option (Option Rq × SfqData) := do
  let (rq, d) ← d.heapSort
  match rq with
  | some rq => some (some rq, d)
  | none => d.dispatchHead k

def sfqDispatch (s : SeekData) (_force : Bool) : Option (Out × SeekData) :=
  SeekData.dispatchWith SfqData.transfer dispatchSection { s with idleSliceTimer := false }

def sfqCompleted (s : SeekData) (_rq : Rq) : Option (Out × SeekData) :=
  some (s.completed.1, { s with toSfqData := s.completed.2 })

def elevator (wrap : Int → Int) : ElevatorOps SeekData SetEnv Bool SfqRequest :=
  Write.elevator wrap sfqDispatch sfqCompleted

end Sfq4

end SsdScheduler.Write
