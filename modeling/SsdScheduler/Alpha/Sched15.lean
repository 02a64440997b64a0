import SsdScheduler.Alpha.Gated

/-! # `ssd_scheduler_alpha/sfq-sched_15.c` -/

namespace SsdScheduler.Sched15

open Framework Framework.Heap Alpha

def initQueue : GatedData := Gated.initQueue

def sfqSetRequest (wrap : Int → Int) (s : GatedData) (rq : Rq) (pid : Pid) (env : SetEnv Int) :
    Option (Out × GatedData) :=
  Gated.sfqSetRequest wrap s rq pid env

/-- One slot more, except for the empty heap. -/
def grow (b : Block Addr) (size : Nat) : Block Addr := if size ≠ 0 then resize b (size + 1) else b

def sfqAddRequest (s : GatedData) (rq : Rq) : Option (Out × GatedData) := Gated.sfqAddRequest grow s rq

def sfqDispatch (s : GatedData) (force : Bool) : Option (Out × GatedData) := Gated.sfqDispatch resize s force

def sfqCompleted (s : GatedData) (rq : Rq) : Option (Out × GatedData) := Gated.sfqCompleted s rq

def sfqPutRequest (s : GatedData) (rq : Rq) (env : Unit) : Option (Out × GatedData) := Gated.sfqPutRequest s rq env

def elevator (wrap : Int → Int) : ElevatorOps GatedData (SetEnv Int) Bool Unit where
  initQueue := initQueue
  possible s env := !s.live env.sfqr
  setRequest := sfqSetRequest wrap
  addRequest := sfqAddRequest
  dispatch := sfqDispatch
  completed := sfqCompleted
  putRequest := sfqPutRequest

theorem elevator_eq (wrap : Int → Int) : elevator wrap = Gated.elevator wrap grow resize := rfl

theorem keeps : Gated.Keeps grow := by
  intro b n hroom j hj
  unfold grow
  split
  case isTrue => rw [load_resize, if_pos (by omega)]
  case isFalse => rfl

/-- The block never lacks a slot. -/
theorem room {s : GatedData} {f : Nat → Addr} (h : HeapState s.toHeapArray f) : Gated.Room grow s := by
  have hblock := h.block
  unfold Gated.Room grow
  split
  case isTrue => simp
  case isFalse h0 => omega

end SsdScheduler.Sched15
