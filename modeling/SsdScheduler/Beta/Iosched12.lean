import SsdScheduler.Sfq.HeapPath

/-! # `ssd_scheduler_beta/sfq-iosched_12.c` -/

namespace SsdScheduler.Iosched12

open Framework Sfq

def initQueue : SeekData := .initial

def sfqSetRequest (s : SeekData) (rq : Rq) (pid : Pid) (env : SetEnv) : Option (Out × SeekData) :=
  (s.setRequest false rq pid env).map fun r => (r.1, { s with toSfqData := r.2 })

def sfqAddRequest (wrap : Int → Int) (s : SeekData) (rq : Rq) : Option (Out × SeekData) :=
  (s.toSfqData.addRequest wrap rq).map fun r => (r.1, { s with toSfqData := r.2 })

/-- The flag `force` is not looked at. -/
def sfqDispatch (s : SeekData) (_force : Bool) : Option (Out × SeekData) :=
  SeekData.dispatchWith SfqData.transfer (fun d _ => d.heapSort) { s with idleSliceTimer := false }

def sfqCompleted (s : SeekData) (_rq : Rq) : Option (Out × SeekData) :=
  some (s.completed.1, { s with toSfqData := s.completed.2 })

def sfqPutRequest (s : SeekData) (rq : Rq) (junk : SfqRequest) : Option (Out × SeekData) :=
  some ((s.putRequest rq junk).1, { s with toSfqData := (s.putRequest rq junk).2 })

def elevator (wrap : Int → Int) : ElevatorOps SeekData SetEnv Bool SfqRequest where
  initQueue := initQueue
  possible s env := env.sfqr.all fun a => !s.live a
  setRequest := sfqSetRequest
  addRequest := sfqAddRequest wrap
  dispatch := sfqDispatch
  completed := sfqCompleted
  putRequest := sfqPutRequest

end SsdScheduler.Iosched12
