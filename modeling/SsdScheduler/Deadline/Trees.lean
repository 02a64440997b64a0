import SsdScheduler.Deadline.Pending
import SsdScheduler.Elevator.RequestTree

/-!
# `deadline_example.c` on its red-black trees

The functions once more, with the sorted requests in trees under `elv_rb_add` and `elv_rb_del`. Whatever shape the
rebalancing gives the trees, the scheduler does what it does on sorted lists.
-/

namespace SsdScheduler.DeadlineExample.Trees

open Framework Framework.Rotations Elevator

structure TreeData where
  sortList : Dir → BinaryTree Rq
  fifoList : Dir → List Rq
  nextRq : Dir → Option Rq
  batching : Nat
  starved : Nat
  fifoExpire : Dir → Int
  fifoBatch : Nat
  writesStarved : Nat

structure TreeQueue where
  dd : TreeData
  fifoTime : Rq → Jiffies
  queueHead : List Rq

def deadlineInitQueue (hz : Int) : TreeQueue where
  dd :=
    { sortList := fun _ => .nil, fifoList := fun _ => [], nextRq := fun _ => none, batching := 0, starved := 0
      fifoExpire := fun
        | .read => readExpire hz
        | .write => writeExpire hz
      fifoBatch := DeadlineExample.fifoBatch, writesStarved := DeadlineExample.writesStarved }
  fifoTime := fun _ => 0
  queueHead := []

variable (k : RbOps) (request : Rq → Request)

/-- `rb_next` on the node of the request. -/
def deadlineLatterRequest (dd : TreeData) (rq : Rq) : Option Rq :=
  elvRbLatterRequest (dd.sortList (request rq).dataDir) rq

def deadlineAddRqRb (dd : TreeData) (rq : Rq) : TreeData :=
  let root := (request rq).dataDir
  let tree := k.elvRbAdd (fun rq => (request rq).sector) (dd.sortList root) rq
  { dd with sortList := Function.update dd.sortList root tree }

def deadlineDelRqRb (dd : TreeData) (rq : Rq) : Option TreeData :=
  let dataDir := (request rq).dataDir
  let dd := if dd.nextRq dataDir = some rq then
      { dd with nextRq := Function.update dd.nextRq dataDir (deadlineLatterRequest request dd rq) }
    else dd
  (k.elvRbDel (dd.sortList dataDir) rq).map fun tree => { dd with sortList := Function.update dd.sortList dataDir tree }

def deadlineMoveToDispatch (q : TreeQueue) (rq : Rq) : Option TreeQueue := do
  let dir := (request rq).dataDir
  let dd := { q.dd with fifoList := Function.update q.dd.fifoList dir ((q.dd.fifoList dir).erase rq) }
  let dd ← deadlineDelRqRb k request dd rq
  some { q with dd := dd, queueHead := q.queueHead ++ [rq] }

def deadlineMoveRequest (q : TreeQueue) (rq : Rq) : Option TreeQueue :=
  let dataDir := (request rq).dataDir
  let nextRq := Function.update (fun _ => none) dataDir (deadlineLatterRequest request q.dd rq)
  deadlineMoveToDispatch k request { q with dd := { q.dd with nextRq := nextRq } } rq

def deadlineCheckFifo (jiffies : Jiffies) (q : TreeQueue) (ddir : Dir) : Option Bool := do
  let rq ← (q.dd.fifoList ddir).head?
  some (timeAfterEq jiffies (q.fifoTime rq))

def dispatchRequest (q : TreeQueue) (rq : Rq) : Option (Out × TreeQueue) := do
  let q ← deadlineMoveRequest k request { q with dd := { q.dd with batching := q.dd.batching + 1 } } rq
  some (⟨0, some rq, false⟩, q)

def dispatchFindRequest (jiffies : Jiffies) (q : TreeQueue) (dataDir : Dir) : Option (Out × TreeQueue) := do
  let expired ← deadlineCheckFifo jiffies q dataDir
  let rq ← if expired ∨ q.dd.nextRq dataDir = none then (q.dd.fifoList dataDir).head? else q.dd.nextRq dataDir
  dispatchRequest k request { q with dd := { q.dd with batching := 0 } } rq

/-- `BUG_ON(RB_EMPTY_ROOT(...))` comes first. -/
def dispatchWrites (jiffies : Jiffies) (q : TreeQueue) : Option (Out × TreeQueue) :=
  if q.dd.sortList .write = .nil then none
  else dispatchFindRequest k request jiffies { q with dd := { q.dd with starved := 0 } } .write

def selectDirection (jiffies : Jiffies) (q : TreeQueue) : Option (Out × TreeQueue) :=
  if q.dd.fifoList .read ≠ [] then
    if q.dd.sortList .read = .nil then none
    else if q.dd.fifoList .write ≠ [] then
      let q' := { q with dd := { q.dd with starved := q.dd.starved + 1 } }
      if q.dd.writesStarved ≤ q.dd.starved then dispatchWrites k request jiffies q'
      else dispatchFindRequest k request jiffies q' .read
    else dispatchFindRequest k request jiffies q .read
  else if q.dd.fifoList .write ≠ [] then dispatchWrites k request jiffies q
  else none

def deadlineDispatchRequests (jiffies : Jiffies) (q : TreeQueue) (_force : Bool) : Option (Out × TreeQueue) :=
  match (if q.dd.nextRq .write ≠ none then q.dd.nextRq .write else q.dd.nextRq .read) with
  | some rq =>
    if q.dd.batching < q.dd.fifoBatch then dispatchRequest k request q rq else selectDirection k request jiffies q
  | none => selectDirection k request jiffies q

def deadlineAddRequest (jiffies : Jiffies) (q : TreeQueue) (rq : Rq) : TreeQueue :=
  let dataDir := (request rq).dataDir
  let dd := deadlineAddRqRb k request q.dd rq
  { q with
    dd := { dd with fifoList := Function.update dd.fifoList dataDir (dd.fifoList dataDir ++ [rq]) }
    fifoTime := Function.update q.fifoTime rq (jiffies + BitVec.ofInt 64 (q.dd.fifoExpire dataDir)) }

/-- The queue and the requests added so far. -/
structure TreeExperiment where
  queue : TreeQueue
  added : List Rq

def elevator : Machine TreeExperiment ElevatorCall Out where
  legal x
    | .addRequest _ rq => rq ∉ x.added
    | .dispatch _ _ => True
  step x
    | .addRequest jiffies rq => some (.quiet false, ⟨deadlineAddRequest k request jiffies x.queue rq, x.added ++ [rq]⟩)
    | .dispatch jiffies force =>
      (deadlineDispatchRequests k request jiffies x.queue force).map fun p => (p.1, { x with queue := p.2 })

def init (hz : Int) : TreeExperiment := ⟨deadlineInitQueue hz, []⟩

section Flattening

/-- The trees read from left to right. -/
def TreeData.flat (dd : TreeData) : DeadlineData where
  sortList d := inorder (dd.sortList d)
  fifoList := dd.fifoList
  nextRq := dd.nextRq
  batching := dd.batching
  starved := dd.starved
  fifoExpire := dd.fifoExpire
  fifoBatch := dd.fifoBatch
  writesStarved := dd.writesStarved

def TreeQueue.flat (q : TreeQueue) : RequestQueue := ⟨q.dd.flat, q.fifoTime, q.queueHead⟩

def TreeExperiment.flat (x : TreeExperiment) : Experiment := ⟨x.queue.flat, x.added⟩

variable {d : Dir}

theorem inorder_update {roots : Dir → BinaryTree Rq} {t : BinaryTree Rq} :
    (fun d' => inorder (Function.update roots d t d')) = Function.update (fun d' => inorder (roots d')) d (inorder t) := by
  funext d'
  exact Function.apply_update (fun _ => inorder) roots d t d'

theorem inorder_eq_nil {t : BinaryTree Rq} : inorder t = [] ↔ t = .nil := by
  cases t <;> simp

/-- The trees hold every request once. -/
def TreeData.Distinct (dd : TreeData) : Prop := ∀ d, (inorder (dd.sortList d)).Nodup

theorem flat_sortList {dd : TreeData} {t : BinaryTree Rq} :
    TreeData.flat { dd with sortList := Function.update dd.sortList d t } =
      { dd.flat with sortList := Function.update dd.flat.sortList d (inorder t) } := by
  unfold TreeData.flat
  simp only [inorder_update]

theorem elvRbDel_flat (dd : TreeData) (h : dd.Distinct) (rq : Rq) (d : Dir) :
    ((k.elvRbDel (dd.sortList d) rq).map fun t => { dd with sortList := Function.update dd.sortList d t }).map TreeData.flat =
      if rq ∈ dd.flat.sortList d then
        some { dd.flat with sortList := Function.update dd.flat.sortList d ((dd.flat.sortList d).erase rq) }
      else none := by
  have hdel := inorder_elvRbDel (k := k) (h d) rq
  rw [Option.map_map]
  calc (k.elvRbDel (dd.sortList d) rq).map (TreeData.flat ∘ fun t => { dd with sortList := Function.update dd.sortList d t })
      = ((k.elvRbDel (dd.sortList d) rq).map inorder).map fun l =>
          { dd.flat with sortList := Function.update dd.flat.sortList d l } := by
        rw [Option.map_map]
        congr 1
        funext t
        exact flat_sortList
    _ = _ := by
        rw [hdel]
        split
        case isTrue hin => exact (if_pos hin).symm
        case isFalse hnot => exact (if_neg hnot).symm

theorem deadlineDelRqRb_flat (dd : TreeData) (h : dd.Distinct) (rq : Rq) :
    (deadlineDelRqRb k request dd rq).map TreeData.flat = DeadlineExample.deadlineDelRqRb request dd.flat rq := by
  unfold deadlineDelRqRb DeadlineExample.deadlineDelRqRb
  dsimp only
  by_cases hnext : dd.nextRq (request rq).dataDir = some rq
  · rw [if_pos hnext, if_pos (show dd.flat.nextRq (request rq).dataDir = some rq from hnext)]
    exact elvRbDel_flat k { dd with
      nextRq := Function.update dd.nextRq (request rq).dataDir (deadlineLatterRequest request dd rq) } h rq _
  · rw [if_neg hnext, if_neg (show ¬ dd.flat.nextRq (request rq).dataDir = some rq from hnext)]
    exact elvRbDel_flat k dd h rq _

theorem deadlineMoveToDispatch_flat (q : TreeQueue) (h : q.dd.Distinct) (rq : Rq) :
    (deadlineMoveToDispatch k request q rq).map TreeQueue.flat =
      DeadlineExample.deadlineMoveToDispatch request q.flat rq := by
  obtain ⟨dd, fifoTime, queueHead⟩ := q
  have hdel := deadlineDelRqRb_flat k request { dd with
    fifoList := Function.update dd.fifoList (request rq).dataDir ((dd.fifoList (request rq).dataDir).erase rq) } h rq
  unfold deadlineMoveToDispatch DeadlineExample.deadlineMoveToDispatch
  change _ = Option.bind (DeadlineExample.deadlineDelRqRb request (TreeData.flat { dd with
    fifoList := Function.update dd.fifoList (request rq).dataDir ((dd.fifoList (request rq).dataDir).erase rq) }) rq) _
  rw [← hdel]
  dsimp only
  cases deadlineDelRqRb k request { dd with
    fifoList := Function.update dd.fifoList (request rq).dataDir ((dd.fifoList (request rq).dataDir).erase rq) } rq <;> rfl

theorem deadlineMoveRequest_flat (q : TreeQueue) (h : q.dd.Distinct) (rq : Rq) :
    (deadlineMoveRequest k request q rq).map TreeQueue.flat = DeadlineExample.deadlineMoveRequest request q.flat rq :=
  deadlineMoveToDispatch_flat k request { q with dd := { q.dd with
    nextRq := Function.update (fun _ => none) (request rq).dataDir (deadlineLatterRequest request q.dd rq) } } h rq

theorem dispatchRequest_flat (q : TreeQueue) (h : q.dd.Distinct) (rq : Rq) :
    (dispatchRequest k request q rq).map (Prod.map id TreeQueue.flat) =
      DeadlineExample.dispatchRequest request q.flat rq := by
  have hmove := deadlineMoveRequest_flat k request
    { q with dd := { q.dd with batching := q.dd.batching + 1 } } h rq
  unfold dispatchRequest DeadlineExample.dispatchRequest
  change _ = Option.bind (DeadlineExample.deadlineMoveRequest request
    (TreeQueue.flat { q with dd := { q.dd with batching := q.dd.batching + 1 } }) rq) _
  rw [← hmove]
  cases deadlineMoveRequest k request { q with dd := { q.dd with batching := q.dd.batching + 1 } } rq <;> rfl

theorem deadlineCheckFifo_flat (q : TreeQueue) (jiffies : Jiffies) (d : Dir) :
    deadlineCheckFifo jiffies q d = DeadlineExample.deadlineCheckFifo jiffies q.flat d := rfl

theorem dispatchFindRequest_flat (q : TreeQueue) (h : q.dd.Distinct) (jiffies : Jiffies) (d : Dir) :
    (dispatchFindRequest k request jiffies q d).map (Prod.map id TreeQueue.flat) =
      DeadlineExample.dispatchFindRequest request jiffies q.flat d := by
  have hdispatch := dispatchRequest_flat k request { q with dd := { q.dd with batching := 0 } } h
  have hchosen (rq : Option Rq) :
      (rq.bind (dispatchRequest k request { q with dd := { q.dd with batching := 0 } })).map (Prod.map id TreeQueue.flat) =
        rq.bind (DeadlineExample.dispatchRequest request (TreeQueue.flat { q with dd := { q.dd with batching := 0 } })) := by
    cases rq with
    | none => rfl
    | some rq => exact hdispatch rq
  unfold dispatchFindRequest DeadlineExample.dispatchFindRequest
  rw [← deadlineCheckFifo_flat]
  cases deadlineCheckFifo jiffies q d with
  | none => rfl
  | some expired =>
    simp only [Option.bind_eq_bind, Option.bind_some]
    change _ = if expired = true ∨ q.dd.nextRq d = none then _ else _
    split
    case isTrue => exact hchosen _
    case isFalse => exact hchosen _

theorem dispatchWrites_flat (q : TreeQueue) (h : q.dd.Distinct) (jiffies : Jiffies) :
    (dispatchWrites k request jiffies q).map (Prod.map id TreeQueue.flat) =
      DeadlineExample.dispatchWrites request jiffies q.flat := by
  have hempty : q.flat.dd.sortList .write = [] ↔ q.dd.sortList .write = .nil := inorder_eq_nil
  unfold dispatchWrites DeadlineExample.dispatchWrites
  rw [if_congr hempty rfl rfl]
  split
  case isTrue => rfl
  case isFalse => exact dispatchFindRequest_flat k request { q with dd := { q.dd with starved := 0 } } h jiffies .write

theorem selectDirection_flat (q : TreeQueue) (h : q.dd.Distinct) (jiffies : Jiffies) :
    (selectDirection k request jiffies q).map (Prod.map id TreeQueue.flat) =
      DeadlineExample.selectDirection request jiffies q.flat := by
  have hempty : q.flat.dd.sortList .read = [] ↔ q.dd.sortList .read = .nil := inorder_eq_nil
  unfold selectDirection DeadlineExample.selectDirection
  simp only [hempty]
  change _ = if q.dd.fifoList .read ≠ [] then _ else if q.dd.fifoList .write ≠ [] then _ else _
  split
  case isTrue =>
    split
    case isTrue => rfl
    case isFalse =>
      change _ = if q.dd.fifoList .write ≠ [] then if q.dd.writesStarved ≤ q.dd.starved then _ else _ else _
      split
      case isTrue =>
        split
        case isTrue =>
          exact dispatchWrites_flat k request { q with dd := { q.dd with starved := q.dd.starved + 1 } } h jiffies
        case isFalse =>
          exact dispatchFindRequest_flat k request { q with dd := { q.dd with starved := q.dd.starved + 1 } } h jiffies .read
      case isFalse => exact dispatchFindRequest_flat k request q h jiffies .read
  case isFalse =>
    split
    case isTrue => exact dispatchWrites_flat k request q h jiffies
    case isFalse => rfl

theorem deadlineDispatchRequests_flat (q : TreeQueue) (h : q.dd.Distinct) (jiffies : Jiffies) (force : Bool) :
    (deadlineDispatchRequests k request jiffies q force).map (Prod.map id TreeQueue.flat) =
      DeadlineExample.deadlineDispatchRequests request jiffies q.flat force := by
  unfold deadlineDispatchRequests DeadlineExample.deadlineDispatchRequests
  change _ = match (if q.dd.nextRq .write ≠ none then q.dd.nextRq .write else q.dd.nextRq .read) with
    | some rq => if q.dd.batching < q.dd.fifoBatch then _ else _
    | none => _
  cases (if q.dd.nextRq .write ≠ none then q.dd.nextRq .write else q.dd.nextRq .read) with
  | none => exact selectDirection_flat k request q h jiffies
  | some rq =>
    dsimp only
    split
    case isTrue => exact dispatchRequest_flat k request q h rq
    case isFalse => exact selectDirection_flat k request q h jiffies

theorem deadlineAddRequest_flat (q : TreeQueue) {rq : Rq}
    (h : SortedList.Sorted (fun rq => (request rq).sector) (inorder (q.dd.sortList (request rq).dataDir)))
    (jiffies : Jiffies) :
    (deadlineAddRequest k request jiffies q rq).flat = DeadlineExample.deadlineAddRequest request jiffies q.flat rq := by
  have hroot : (deadlineAddRqRb k request q.dd rq).flat = DeadlineExample.deadlineAddRqRb request q.flat.dd rq := by
    unfold deadlineAddRqRb
    rw [flat_sortList, inorder_elvRbAdd h]
    rfl
  unfold deadlineAddRequest DeadlineExample.deadlineAddRequest
  rw [← hroot]
  rfl

end Flattening

section Refinement

variable {k request} {x : TreeExperiment} {hz : Int}

theorem image (k : RbOps) (request : Rq → Request) :
    Machine.Image (elevator k request) (DeadlineExample.elevator request) TreeExperiment.flat (Inv request) where
  legal x c := by
    cases c <;> exact Iff.rfl
  step x c h _ := by
    cases c with
    | addRequest jiffies rq =>
      have hadd := deadlineAddRequest_flat k request x.queue (h.views.sorted (request rq).dataDir) jiffies
      show some (Out.quiet false, (⟨(deadlineAddRequest k request jiffies x.queue rq).flat, x.added ++ [rq]⟩ : Experiment)) =
        _
      rw [hadd]
      rfl
    | dispatch jiffies force =>
      have hdistinct : x.queue.dd.Distinct := fun d => (h.views.perm d).nodup_iff.mp (h.views.nodup d)
      have hdispatch := deadlineDispatchRequests_flat k request x.queue hdistinct jiffies force
      change _ = (DeadlineExample.deadlineDispatchRequests request jiffies x.queue.flat force).map _
      rw [← hdispatch, Option.map_map]
      show ((deadlineDispatchRequests k request jiffies x.queue force).map _).map _ = _
      rw [Option.map_map]
      rfl
  keep _ _ _ _ h hl hs := h.step hl hs

/-- However the trees are rebalanced, a run of the scheduler on them is a run of the scheduler on sorted lists, with the
same calls and results, and the two fail at the same calls. -/
theorem trees_refine_lists {tr : List (Event TreeExperiment ElevatorCall Out)}
    (h : (elevator k request).Run (init hz) tr x) :
    (DeadlineExample.elevator request).Run (DeadlineExample.init hz)
        (tr.map fun e => ⟨e.pre.flat, e.call, e.out, e.post.flat⟩) x.flat ∧
      ∀ c, (elevator k request).legal x c →
        ((elevator k request).Returns x c ↔ (DeadlineExample.elevator request).Returns x.flat c) := by
  have hinit : Inv request (init hz).flat := Inv.of_reachable (show Reachable request hz (init hz).flat from .init)
  obtain ⟨hrun, hinv⟩ := (image k request).run h hinit
  exact ⟨hrun, fun c hl => (image k request).returns_iff hinv hl⟩

instance (x : TreeExperiment) : (c : ElevatorCall) → Decidable ((elevator k request).legal x c)
  | .addRequest _ rq => inferInstanceAs (Decidable (rq ∉ x.added))
  | .dispatch _ _ => inferInstanceAs (Decidable True)

theorem trees_refine_lists_two :
    ∃ tr u, (elevator .plain fun rq => ⟨.read, 8 * rq⟩).Run (init 100) tr u ∧ u.queue.queueHead = [2] ∧
      (DeadlineExample.elevator fun rq => ⟨.read, 8 * rq⟩).Run (DeadlineExample.init 100)
        (tr.map fun e => ⟨e.pre.flat, e.call, e.out, e.post.flat⟩) u.flat := by
  have hplays : (elevator .plain fun rq => ⟨.read, 8 * rq⟩).Plays (init 100)
      [.addRequest 0 2, .addRequest 0 1, .dispatch 900 false] (fun _ u => u.queue.queueHead = [2]) := by decide
  obtain ⟨tr, u, hr, -, hq⟩ := hplays.exists_run
  exact ⟨tr, u, hr, hq, (trees_refine_lists hr).1⟩

end Refinement

end SsdScheduler.DeadlineExample.Trees
