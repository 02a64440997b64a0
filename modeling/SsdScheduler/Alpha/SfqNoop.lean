import SsdScheduler.Alpha.HeapRuns
import SsdScheduler.Framework.LinkedList

/-!
# `ssd_scheduler_alpha/sfq-noop.c`

A request is linked into a list whose head is a field of its record, and `heap_swap` copies that
field with the rest of the record. The links are those of the list heads in the records and of the
requests themselves.
-/

namespace SsdScheduler.SfqNoop

open Framework Framework.Heap Framework.ListHead Alpha

def requestDepth : Int := 1

/-- The address of a `struct list_head`: the field `sfqr_queue` of a record or the field `queuelist`
of a request. -/
inductive Node
  | sfqrQueue (sfqr : Addr)
  | queuelist (rq : Rq)
deriving DecidableEq, Repr

/-- `struct sfq_data`, with the links of the requests; the own field of a record is `sfqr_queue`. -/
structure SfqData extends HeapArray (ListHead Node) where
  depth : Int
  currSfqr : Option Addr
  unplugWork : Bool
  queuelist : Rq → ListHead Node

def initQueue : SfqData where
  toHeapArray := .initial ⟨.sfqrQueue 0, .sfqrQueue 0⟩
  depth := 0
  currSfqr := none
  unplugWork := false
  queuelist := fun rq => ⟨.queuelist rq, .queuelist rq⟩

/-- The array has changed, and nothing else. -/
abbrev SfqData.withArray (s : SfqData) (h : HeapArray (ListHead Node)) : SfqData := { s with toHeapArray := h }

/-- The memory of all list heads. -/
def SfqData.links (s : SfqData) : Node → ListHead Node
  | .sfqrQueue a => (s.pool a).own
  | .queuelist rq => s.queuelist rq

def SfqData.setLinks (s : SfqData) (m : Node → ListHead Node) : SfqData :=
  { s with
    pool := fun a => { s.pool a with own := m (.sfqrQueue a) }
    queuelist := fun rq => m (.queuelist rq) }

def sfqSetRequest (wrap : Int → Int) (s : SfqData) (rq : Rq) (pid : Pid) (env : SetEnv (ListHead Node)) :
    Option (Out × SfqData) :=
  (setRequest wrap ⟨.sfqrQueue env.sfqr, .sfqrQueue env.sfqr⟩ s.toHeapArray rq pid env).map fun h =>
    (.quiet false, s.withArray h)

def sfqAddRequest (s : SfqData) (rq : Rq) : Option (Out × SfqData) := do
  let sfqr ← s.priv0 rq
  if 0 ≤ (s.pool sfqr).startTag then
    let requests := if s.size ≠ 0 then resize s.requests (s.size + 1) else s.requests
    let h ← insert s.toHeapArray requests rq sfqr
    let s := s.withArray h
    some (.quiet false, s.setLinks (listAddTail s.links (.queuelist rq) (.sfqrQueue sfqr)))
  else some (.quiet false, s)

/-- The flag `force` is not looked at. The block layer does not survive a record that is taken for a
request. -/
def sfqDispatch (s : SfqData) (_force : Bool) : Option (Out × SfqData) :=
  if 0 < s.size ∧ s.depth ≤ requestDepth then do
    let (sfqr, h) ← removeRoot 2 resize s.toHeapArray
    let s := s.withArray h
    match listFirst s.links (Node.sfqrQueue sfqr) with
    | some (Node.queuelist rq) =>
      let s := s.setLinks (listDelInit s.links (.queuelist rq))
      some (⟨1, some rq, false⟩, { s with currSfqr := some sfqr, depth := s.depth + 1 })
    | some (Node.sfqrQueue _) => none
    | none => some (.quiet false, s)
  else some (.quiet false, s)

def sfqCompleted (s : SfqData) (_rq : Rq) : Option (Out × SfqData) :=
  let s := { s with depth := s.depth - 1 }
  let kicked := decide (0 < s.depth)
  some (.quiet kicked, { s with unplugWork := kicked || s.unplugWork })

def sfqPutRequest (s : SfqData) (rq : Rq) : Option (Out × SfqData) := do
  let _ ← s.priv0 rq
  let kicked := decide (0 < s.depth)
  some (.quiet kicked, { s with unplugWork := kicked || s.unplugWork })

def elevator (wrap : Int → Int) : ElevatorOps SfqData (SetEnv (ListHead Node)) Bool Unit where
  initQueue := initQueue
  possible s env := !s.live env.sfqr
  setRequest := sfqSetRequest wrap
  addRequest := sfqAddRequest
  dispatch := sfqDispatch
  completed := sfqCompleted
  putRequest s rq _ := sfqPutRequest s rq


variable {s : SfqData} {f : Nat → Addr} {rq : Rq} {a : Addr}

/-- The request of a record that waits is linked into the empty list of the record. -/
theorem sfqAddRequest_eq (h : HeapState s.toHeapArray f) (ha : Waits s.toHeapArray f rq a) :
    ∃ h' f', sfqAddRequest s rq = some (.quiet false, (s.withArray h').setLinks
        (listAddTail (s.withArray h').links (.queuelist rq) (.sfqrQueue a))) ∧
      Inserted s.toHeapArray h' f f' rq a := by
  obtain ⟨h', f', hinsert, hi⟩ := insert_grown rq h ha.out
  refine ⟨h', f', ?_, hi⟩
  simp only [sfqAddRequest, ha.priv0, ha.tag, if_true, hinsert, Option.bind_eq_bind, Option.bind_some]

theorem sfqDispatch_idle (h : ¬ (0 < s.size ∧ s.depth ≤ requestDepth)) (force : Bool) :
    sfqDispatch s force = some (.quiet false, s) := if_neg h

/-- A root whose list leads to `rq` hands it out. -/
theorem sfqDispatch_eq (h : HeapState s.toHeapArray f) (hgo : 0 < s.size ∧ s.depth ≤ requestDepth) (force : Bool)
    (hown : (s.pool (f 0)).own = ⟨.queuelist rq, .queuelist rq⟩) :
    ∃ h' f', sfqDispatch s force = some (⟨1, some rq, false⟩,
        { (s.withArray h').setLinks (listDelInit (s.withArray h').links (.queuelist rq)) with
          currSfqr := some (f 0), depth := s.depth + 1 }) ∧
      Removed s.toHeapArray h' f f' := by
  obtain ⟨h', f', hremove, hr⟩ := removeRoot_eq h hgo.1 ⟨Nat.two_pos, le_rfl⟩ .resize
  have hfirst : listFirst (s.withArray h').links (Node.sfqrQueue (f 0)) = some (.queuelist rq) := by
    have hroot : h'.pool (f 0) = s.pool (f 0) := hr.frame _ (hr.root_notMem h)
    simp [listFirst, SfqData.links, hroot, hown]
  refine ⟨h', f', ?_, hr⟩
  simp only [sfqDispatch, if_pos hgo, hremove, hfirst, Option.bind_eq_bind, Option.bind_some]
  rfl

end SsdScheduler.SfqNoop
