import SsdScheduler.Sfq.Cursor

/-!
# One request on its way through the heap

The heap section of a dispatch runs right after the transfer of at most one request, so the heap
is empty between calls, and its capacity test compares `0` with the number of processes less one.
-/

namespace SsdScheduler.Sfq

open Framework Framework.Heap

/-- The head of a queue is handed out. -/
def Core.serve (c : Core) (k : Nat) (q : SfqQueue) (rest : List Addr) : Core :=
  { c.setQueue k { q with queue := rest } with depth := c.depth + 1 }

namespace SfqData

/-- Between calls: an empty heap with room, if it has been allocated, for every process. -/
structure HeapIdle (d : SfqData) : Prop where
  empty : d.heapSize = 0
  limit : d.heapLimitSize = d.queue.length
  slots : ∀ b, d.requests = some b → b.length = d.heapLimitSize

variable {d : SfqData} {k : Nat} {q : SfqQueue} {a : Addr} {rest : List Addr} {rq : Rq}
  {b : Block Addr}

theorem heapSort_idle (h : d.heapSize = 0) : d.heapSort = some (none, d) := by
  simp [heapSort, h]

theorem transfer_nil (hk : d.sfqq? k = some q) (hq : q.queue = []) :
    d.transfer k = some (true, d) := by
  simp [transfer, hk, hq]

/-- With a single process the heap has no room. -/
theorem transfer_full (h : d.HeapIdle) (hk : d.sfqq? k = some q) (hq : q.queue = a :: rest)
    (hn : d.queue.length ≤ 1) : d.transfer k = some (false, d) := by
  have hfull : ¬ 0 < d.queue.length - 1 := by omega
  simp [transfer, hk, hq, h.empty, h.limit, hfull]

theorem transfer_null (h : d.HeapIdle) (hk : d.sfqq? k = some q) (hq : q.queue = a :: rest)
    (hn : 2 ≤ d.queue.length) (hr : d.requests = none) : d.transfer k = none := by
  have hroom : 0 < d.queue.length - 1 := by omega
  simp [transfer, hk, hq, h.empty, h.limit, hroom, hr]

/-- The head `a` of the queue at `k` has moved to the root of the empty heap. -/
def rooted (d : SfqData) (k : Nat) (q : SfqQueue) (a : Addr) (rest : List Addr) (b : Block Addr) : SfqData :=
  { d with
    toCore := d.toCore.setQueue k { q with queue := rest }
    requests := some (b.set 0 (some a)), heapSize := 1 }

theorem transfer_eq (h : d.HeapIdle) (hk : d.sfqq? k = some q) (hq : q.queue = a :: rest)
    (hn : 2 ≤ d.queue.length) (hr : d.requests = some b) :
    d.transfer k = some (true, d.rooted k q a rest b) := by
  have hroom : 0 < d.queue.length - 1 := by omega
  have hb : 0 < b.length := by rw [h.slots b hr, h.limit]; omega
  simp [transfer, hk, hq, h.empty, h.limit, hroom, hr, siftUp, store_eq hb, rooted]

/-- What the transfer leaves alone. -/
structure Kept (d d' : SfqData) : Prop where
  osSfqq : d'.osSfqq = d.osSfqq
  sfqqSize : d'.sfqqSize = d.sfqqSize
  length : d'.queue.length = d.queue.length
  idleSliceTimer : d'.idleSliceTimer = d.idleSliceTimer

theorem Kept.trans {d' d'' : SfqData} (h : Kept d d') (h' : Kept d' d'') : Kept d d'' :=
  ⟨h'.osSfqq.trans h.osSfqq, h'.sfqqSize.trans h.sfqqSize, h'.length.trans h.length,
    h'.idleSliceTimer.trans h.idleSliceTimer⟩

theorem transfer_kept {room : Bool} {d' : SfqData} (h : d.transfer k = some (room, d')) : Kept d d' := by
  simp only [transfer, Option.bind_eq_bind, Option.bind_eq_some_iff] at h
  obtain ⟨q, -, h⟩ := h
  split at h
  case h_1 =>
    obtain ⟨-, rfl⟩ := Prod.mk.inj (Option.some.inj h)
    exact ⟨rfl, rfl, rfl, rfl⟩
  case h_2 =>
    split at h
    case isTrue =>
      simp only [Option.bind_eq_some_iff, Option.some.injEq, Prod.mk.injEq] at h
      obtain ⟨requests, -, ⟨b, index⟩, -, b', -, -, rfl⟩ := h
      exact ⟨rfl, rfl, Core.length_setQueue _, rfl⟩
    case isFalse =>
      obtain ⟨-, rfl⟩ := Prod.mk.inj (Option.some.inj h)
      exact ⟨rfl, rfl, rfl, rfl⟩

/-- The request that was just transferred is handed out and leaves the heap empty again. -/
theorem heapSort_rooted (hb : 0 < b.length) (hrq : (d.pool a).rq = some rq) :
    (d.rooted k q a rest b).heapSort = some (some rq, { d with
      toCore := d.toCore.serve k q rest, requests := some (b.set 0 (some a)), heapSize := 0 }) := by
  have hload : Heap.load (b.set 0 (some a)) 0 = some a := by simp [load_set hb]
  have hstore : store (b.set 0 (some a)) 0 a = some (b.set 0 (some a)) := by
    rw [store_eq (by simpa using hb), List.set_set]
  simp [heapSort, rooted, hload, hrq, hstore, Core.serve, Core.setQueue]

theorem completed_agrees (d : SfqData) : d.completed.1.Agrees (.quiet false) := by
  unfold completed
  dsimp only
  split <;> exact ⟨rfl, rfl⟩

theorem completed_osSfqq (d : SfqData) : d.completed.2.osSfqq = d.osSfqq := by
  unfold completed
  dsimp only
  split <;> rfl

theorem completed_toCore (d : SfqData) : d.completed.2.toCore = d.toCore.complete := by
  unfold completed
  dsimp only
  split <;> rfl

theorem completed_requests (d : SfqData) : d.completed.2.requests = d.requests := by
  unfold completed
  dsimp only
  split <;> rfl

theorem HeapIdle.completed (h : d.HeapIdle) : d.completed.2.HeapIdle := by
  unfold SfqData.completed
  dsimp only
  split <;> exact ⟨h.empty, h.limit, h.slots⟩

theorem HeapIdle.addRequest {wrap : Int → Int} {c : Core} (h : d.HeapIdle)
    (hc : d.toCore.addRequest wrap rq = some c) : HeapIdle { d with toCore := c } :=
  ⟨h.empty, h.limit.trans (Core.length_addRequest hc).symm, h.slots⟩

theorem HeapIdle.put {junk : SfqRequest} (h : d.HeapIdle) : (d.putRequest rq junk).2.HeapIdle :=
  ⟨h.empty, h.limit.trans (Core.length_put junk).symm, h.slots⟩

/-- `requests[]` as `sfq_set_request` leaves it, one slot longer for an unknown process. -/
def grown (d : SfqData) (pid : Pid) (env : SetEnv) : SfqData :=
  if d.queue.any (·.pid == pid) then d else d.growRequests env.requests

@[simp] theorem grown_osSfqq {pid : Pid} {env : SetEnv} : (d.grown pid env).osSfqq = d.osSfqq := by
  unfold grown
  split <;> rfl

theorem setRequest_eq {checksBio : Bool} {pid : Pid} {env : SetEnv} (hbio : (checksBio && !env.bio) = false) :
    d.setRequest checksBio rq pid env =
      if d.queue.any (·.pid == pid) || env.sfqq then
        some (.quiet false, { d.grown pid env with
          toCore := (d.toCore.register pid).2.allocSfqr rq (d.toCore.register pid).1 env.sfqr })
      else none := by
  unfold setRequest Core.register grown
  cases hf : d.queue.findIdx? (·.pid == pid) with
  | some k =>
    have hany : d.queue.any (·.pid == pid) = true := by
      rw [← List.findIdx?_isSome, hf]
      rfl
    simp only [hbio, hany, Bool.false_eq_true, if_false, Bool.true_or, if_true]
  | none =>
    have hany : d.queue.any (·.pid == pid) = false := by
      rw [← List.findIdx?_isSome, hf]
      rfl
    simp only [hbio, hany, Bool.false_eq_true, if_false, Bool.false_or]
    simp [growRequests, Core.newQueue]

theorem setRequest_frame {checksBio : Bool} {pid : Pid} {env : SetEnv} {o : Out} {d' : SfqData}
    (h : d.setRequest checksBio rq pid env = some (o, d')) :
    d'.osSfqq = d.osSfqq ∧ d.queue.length ≤ d'.queue.length := by
  cases hbio : checksBio && !env.bio with
  | true =>
    obtain ⟨-, rfl⟩ : .quiet false = o ∧ d = d' := by simpa [setRequest, hbio] using h
    exact ⟨rfl, le_rfl⟩
  | false =>
    rw [setRequest_eq hbio] at h
    split at h
    case isTrue =>
      obtain ⟨-, rfl⟩ := Prod.mk.inj (Option.some.inj h)
      refine ⟨grown_osSfqq, ?_⟩
      change _ ≤ (Core.allocSfqr _ rq _ _).queue.length
      rw [Core.allocSfqr_queue]
      exact Core.length_register _ _
    case isFalse => cases h

theorem setRequest_sfqqSize {checksBio : Bool} {pid : Pid} {env : SetEnv} {o : Out} {d' : SfqData}
    (h : d.setRequest checksBio rq pid env = some (o, d')) (hsize : d.sfqqSize = d.queue.length) :
    d'.sfqqSize = d'.queue.length := by
  unfold setRequest at h
  split at h
  case isTrue =>
    obtain ⟨-, rfl⟩ := Prod.mk.inj (Option.some.inj h)
    exact hsize
  case isFalse =>
    split at h
    case h_1 =>
      obtain ⟨-, rfl⟩ := Prod.mk.inj (Option.some.inj h)
      cases env.sfqr <;> exact hsize
    case h_2 =>
      split at h
      case isTrue =>
        obtain ⟨-, rfl⟩ := Prod.mk.inj (Option.some.inj h)
        cases env.sfqr <;> simp [growRequests, Core.newQueue, Core.allocSfqr, hsize]
      case isFalse => cases h

theorem setRequest_wakeups {checksBio : Bool} {pid : Pid} {env : SetEnv} {o : Out} {d' : SfqData}
    (h : d.setRequest checksBio rq pid env = some (o, d')) :
    d'.idleSliceTimer = d.idleSliceTimer ∧ d'.unplugWork = d.unplugWork := by
  unfold setRequest at h
  split at h
  case isTrue =>
    obtain ⟨-, rfl⟩ := Prod.mk.inj (Option.some.inj h)
    exact ⟨rfl, rfl⟩
  case isFalse =>
    split at h
    case h_1 =>
      obtain ⟨-, rfl⟩ := Prod.mk.inj (Option.some.inj h)
      exact ⟨rfl, rfl⟩
    case h_2 =>
      split at h
      case isTrue =>
        obtain ⟨-, rfl⟩ := Prod.mk.inj (Option.some.inj h)
        exact ⟨rfl, rfl⟩
      case isFalse => cases h

theorem slots_growRequests (succeeds : Bool) (hb : (d.growRequests succeeds).requests = some b) :
    b.length = d.heapLimitSize + 1 := by
  unfold growRequests at hb
  cases succeeds with
  | false => simp at hb
  | true =>
    by_cases h0 : d.heapLimitSize = 0
    · simp only [h0, if_true, Option.some.injEq] at hb
      rw [← hb, h0]
      exact length_alloc
    · simp only [h0, if_true, if_false, Option.some.injEq] at hb
      rw [← hb]
      exact length_resize

theorem HeapIdle.set {pid : Pid} {env : SetEnv} {sfqr : Option Addr} {k : Nat} (h : d.HeapIdle) :
    HeapIdle { d.grown pid env with toCore := (d.toCore.register pid).2.allocSfqr rq k sfqr } := by
  unfold grown
  cases hany : d.queue.any (·.pid == pid) with
  | true =>
    rw [Core.register_of_any hany]
    exact ⟨h.empty, by simpa using h.limit, h.slots⟩
  | false =>
    rw [Core.register_of_not_any hany]
    refine ⟨h.empty, ?_, fun b hb => slots_growRequests env.requests hb⟩
    rw [Core.allocSfqr_queue]
    simp [growRequests, Core.newQueue, h.limit]

end SfqData
end SsdScheduler.Sfq
