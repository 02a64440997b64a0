import Mathlib.Data.List.Nodup
import SsdScheduler.Sfq.Data

/-! # The process queues as a map from pids -/

namespace SsdScheduler.Sfq.Core

variable {c : Core} {q q' : SfqQueue} {p : Pid} {k : Nat} {l : List Addr} {a : Addr}

/-- The position of the queue of `pid` after `sfq_set_request` looked for it, and the core with
that queue registered. -/
def register (c : Core) (pid : Pid) : Nat × Core :=
  match c.queue.findIdx? (·.pid == pid) with
  | some k => (k + 1, c)
  | none => (c.queue.length + 1, c.newQueue pid)

private theorem eq_of_pid (hp : (c.queue.map SfqQueue.pid).Nodup) (hq : q ∈ c.queue)
    (hq' : q' ∈ c.queue) (h : q.pid = q'.pid) : q = q' :=
  List.inj_on_of_nodup_map hp hq hq' h

theorem queueOf_congr {c' : Core} (h : c'.queue = c.queue) : c'.queueOf p = c.queueOf p := by
  unfold queueOf
  rw [h]

theorem queueOf_of_mem (hp : (c.queue.map SfqQueue.pid).Nodup) (hq : q ∈ c.queue) :
    c.queueOf q.pid = q.queue := by
  unfold queueOf
  cases hf : c.queue.find? (·.pid == q.pid) with
  | none => exact absurd (List.find?_eq_none.mp hf q hq) (by simp)
  | some q' =>
    have he : q' = q := eq_of_pid hp (List.mem_of_find?_eq_some hf) hq (by
      simpa using List.find?_some hf)
    simp only [he]

theorem queueOf_of_unregistered (h : ∀ q ∈ c.queue, q.pid ≠ p) : c.queueOf p = [] := by
  unfold queueOf
  rw [List.find?_eq_none.mpr fun q hq => by simpa using h q hq]

theorem registered_or (c : Core) (p : Pid) :
    (∃ q ∈ c.queue, q.pid = p) ∨ ∀ q ∈ c.queue, q.pid ≠ p := by
  by_cases h : ∃ q ∈ c.queue, q.pid = p
  · exact .inl h
  · exact .inr fun q hq he => h ⟨q, hq, he⟩

theorem mem_queueOf (hp : (c.queue.map SfqQueue.pid).Nodup) :
    a ∈ c.queueOf p ↔ ∃ q ∈ c.queue, q.pid = p ∧ a ∈ q.queue := by
  constructor
  · intro ha
    rcases registered_or c p with ⟨q, hq, rfl⟩ | h
    · rw [queueOf_of_mem hp hq] at ha
      exact ⟨q, hq, rfl, ha⟩
    · simp [queueOf_of_unregistered h] at ha
  · rintro ⟨q, hq, rfl, ha⟩
    rwa [queueOf_of_mem hp hq]

theorem sfqq?_eq_some {j : Nat} : c.sfqq? j = some q ↔ ∃ k, j = k + 1 ∧ c.queue[k]? = some q := by
  cases j with
  | zero => simp [sfqq?]
  | succ k => simp [sfqq?]

theorem exists_sfqq {c : Core} {k : Nat} (hk : 1 ≤ k) (hn : k ≤ c.queue.length) :
    ∃ q ∈ c.queue, c.sfqq? k = some q := by
  have hlt : k - 1 < c.queue.length := by omega
  exact ⟨c.queue[k - 1], List.getElem_mem hlt,
    sfqq?_eq_some.mpr ⟨k - 1, (Nat.sub_add_cancel hk).symm, List.getElem?_eq_getElem hlt⟩⟩

@[simp] theorem setQueue_queue (q : SfqQueue) :
    (c.setQueue (k + 1) q).queue = c.queue.set k q := rfl

@[simp] theorem setQueue_sfqqSize (q : SfqQueue) : (c.setQueue k q).sfqqSize = c.sfqqSize := rfl

theorem pids_setQueue (hk : c.queue[k]? = some q) (hq : q'.pid = q.pid) :
    (c.setQueue (k + 1) q').queue.map SfqQueue.pid = c.queue.map SfqQueue.pid := by
  obtain ⟨hlt, he⟩ := List.getElem?_eq_some_iff.mp hk
  rw [setQueue_queue, List.map_set, hq, ← he]
  apply List.ext_getElem (by simp)
  intro j hj hj'
  by_cases hjk : k = j
  · subst hjk; simp
  · simp [List.getElem_set_ne hjk]

theorem nodup_setQueue (hp : (c.queue.map SfqQueue.pid).Nodup) (hk : c.queue[k]? = some q)
    (hq : q'.pid = q.pid) : ((c.setQueue (k + 1) q').queue.map SfqQueue.pid).Nodup :=
  pids_setQueue hk hq ▸ hp

theorem mem_setQueue (hp : (c.queue.map SfqQueue.pid).Nodup) (hk : c.queue[k]? = some q)
    {r : SfqQueue} :
    r ∈ (c.setQueue (k + 1) q').queue ↔ r = q' ∨ r ∈ c.queue ∧ r.pid ≠ q.pid := by
  obtain ⟨hlt, he⟩ := List.getElem?_eq_some_iff.mp hk
  rw [setQueue_queue, List.mem_iff_getElem?]
  constructor
  · rintro ⟨j, hj⟩
    rw [List.getElem?_set] at hj
    split at hj
    · obtain rfl : q' = r := by simpa [hlt] using hj
      exact .inl rfl
    · rename_i hjk
      refine .inr ⟨List.mem_of_getElem? hj, fun hpid => hjk ?_⟩
      apply (List.getElem?_inj (by simpa using hlt) hp).mp
      simp [hk, hj, hpid]
  · rintro (rfl | ⟨hr, hne⟩)
    · exact ⟨k, by simp [hlt]⟩
    · obtain ⟨j, hj⟩ := List.mem_iff_getElem?.mp hr
      have hjk : k ≠ j := by
        rintro rfl
        rw [hk, Option.some_inj] at hj
        exact hne (congrArg SfqQueue.pid hj.symm)
      exact ⟨j, by rwa [List.getElem?_set_ne hjk]⟩

theorem queueOf_setQueue (hp : (c.queue.map SfqQueue.pid).Nodup) (hk : c.queue[k]? = some q)
    (hq : q'.pid = q.pid) (p : Pid) :
    (c.setQueue (k + 1) q').queueOf p = if p = q.pid then q'.queue else c.queueOf p := by
  have hp' := nodup_setQueue hp hk hq
  split
  · rename_i he
    rw [he, ← hq]
    exact queueOf_of_mem hp' ((mem_setQueue hp hk).mpr (.inl rfl))
  · rename_i hne
    rcases registered_or c p with ⟨r, hr, rfl⟩ | h
    · rw [queueOf_of_mem hp hr]
      exact queueOf_of_mem hp' ((mem_setQueue hp hk).mpr (.inr ⟨hr, hne⟩))
    · rw [queueOf_of_unregistered h]
      apply queueOf_of_unregistered
      intro r hr
      rcases (mem_setQueue hp hk).mp hr with rfl | ⟨hr, -⟩
      · exact fun he => hne (he.symm.trans hq)
      · exact h r hr

/-- The waiting requests after the record `a` of `rq` was put at the end of a queue. -/
theorem waiting_append {c' : Core} {rq : Rq} (hp : (c.queue.map SfqQueue.pid).Nodup) (hk : c.queue[k]? = some q)
    (hqueue : c'.queue = (c.setQueue (k + 1) { q with queue := q.queue ++ [a] }).queue)
    (hpool : ∀ r ∈ c.queue, ∀ b ∈ r.queue, (c'.pool b).rq = (c.pool b).rq) (hrq : (c'.pool a).rq = some rq) (p : Pid) :
    c'.waiting p = c.waiting p ++ if q.pid = p then [rq] else [] := by
  have hof : c'.queueOf p = if p = q.pid then q.queue ++ [a] else c.queueOf p :=
    (queueOf_congr hqueue).trans (queueOf_setQueue hp hk (by rfl) p)
  have hold : (c.queueOf p).filterMap (fun b => (c'.pool b).rq) = c.waiting p := by
    refine List.filterMap_congr fun b hb => ?_
    obtain ⟨r, hr, -, hbr⟩ := (mem_queueOf hp).mp hb
    exact hpool r hr b hbr
  unfold waiting at hold ⊢
  rw [hof, ← hold]
  by_cases hpid : q.pid = p
  · subst hpid
    rw [if_pos rfl, if_pos rfl, List.filterMap_append, queueOf_of_mem hp (List.mem_of_getElem? hk)]
    simp [hrq]
  · rw [if_neg (Ne.symm hpid), if_neg hpid, List.append_nil]

/-- The waiting requests before the head of a queue was taken, which is the record of `rq`. -/
theorem waiting_tail {c' : Core} {rq : Rq} (hp : (c.queue.map SfqQueue.pid).Nodup) (hk : c.queue[k]? = some q)
    (hq : q.queue = a :: l) (hqueue : c'.queue = (c.setQueue (k + 1) { q with queue := l }).queue)
    (hpool : c'.pool = c.pool) (hrq : (c.pool a).rq = some rq) (p : Pid) :
    c.waiting p = (if q.pid = p then [rq] else []) ++ c'.waiting p := by
  have hof : c'.queueOf p = if p = q.pid then l else c.queueOf p :=
    (queueOf_congr hqueue).trans (queueOf_setQueue hp hk (by rfl) p)
  unfold waiting
  rw [hof, hpool]
  by_cases hpid : q.pid = p
  · subst hpid
    rw [if_pos rfl, if_pos rfl, queueOf_of_mem hp (List.mem_of_getElem? hk), hq]
    exact List.filterMap_cons_some hrq
  · rw [if_neg (Ne.symm hpid), if_neg hpid, List.nil_append]

private theorem sum_set (l : List SfqQueue) (k : Nat) (hk : l[k]? = some q) :
    ((l.set k q').map fun q => q.queue.length).sum + q.queue.length =
      (l.map fun q => q.queue.length).sum + q'.queue.length := by
  induction l generalizing k with
  | nil => simp at hk
  | cons r l ih =>
    cases k with
    | zero =>
      obtain rfl : r = q := by simpa using hk
      simp only [List.set_cons_zero, List.map_cons, List.sum_cons]
      omega
    | succ k =>
      have := ih k (by simpa using hk)
      simp only [List.set_cons_succ, List.map_cons, List.sum_cons]
      omega

theorem load_setQueue (hk : c.queue[k]? = some q) (q' : SfqQueue) :
    (c.setQueue (k + 1) q').load + q.queue.length = c.load + q'.queue.length :=
  sum_set c.queue k hk

@[simp] theorem allocSfqr_queue {rq : Rq} (sfqr : Option Addr) :
    (c.allocSfqr rq k sfqr).queue = c.queue := by cases sfqr <;> rfl

@[simp] theorem allocSfqr_priv1 {rq : Rq} (sfqr : Option Addr) :
    (c.allocSfqr rq k sfqr).priv1 = Function.update c.priv1 rq sfqr := by cases sfqr <;> rfl

@[simp] theorem allocSfqr_depth {rq : Rq} (sfqr : Option Addr) : (c.allocSfqr rq k sfqr).depth = c.depth := by
  cases sfqr <;> rfl

@[simp] theorem register_depth (c : Core) (pid : Pid) : (c.register pid).2.depth = c.depth := by
  unfold register
  split <;> rfl

@[simp] theorem register_priv1 (c : Core) (pid : Pid) : (c.register pid).2.priv1 = c.priv1 := by
  unfold register
  split <;> rfl

theorem length_setQueue (q : SfqQueue) : (c.setQueue k q).queue.length = c.queue.length := by
  simp [setQueue]

theorem length_addRequest {wrap : Int → Int} {rq : Rq} {c' : Core} (h : c.addRequest wrap rq = some c') :
    c'.queue.length = c.queue.length := by
  simp only [addRequest, Option.bind_eq_bind, Option.bind_eq_some_iff, Option.some.injEq] at h
  obtain ⟨k, -, a, -, q, -, rfl⟩ := h
  exact length_setQueue _

theorem addRequest_priv1 {wrap : Int → Int} {rq : Rq} {c' : Core} (h : c.addRequest wrap rq = some c') :
    c'.priv1 = c.priv1 := by
  simp only [addRequest, Option.bind_eq_bind, Option.bind_eq_some_iff, Option.some.injEq] at h
  obtain ⟨k, -, a, -, q, -, rfl⟩ := h
  rfl

theorem addRequest_live {wrap : Int → Int} {rq : Rq} {c' : Core} (h : c.addRequest wrap rq = some c') :
    c'.live = c.live := by
  simp only [addRequest, Option.bind_eq_bind, Option.bind_eq_some_iff, Option.some.injEq] at h
  obtain ⟨k, -, a, -, q, -, rfl⟩ := h
  rfl

theorem addRequest_depth {wrap : Int → Int} {rq : Rq} {c' : Core} (h : c.addRequest wrap rq = some c') :
    c'.depth = c.depth := by
  simp only [addRequest, Option.bind_eq_bind, Option.bind_eq_some_iff, Option.some.injEq] at h
  obtain ⟨k, -, a, -, q, -, rfl⟩ := h
  rfl

theorem addRequest_sfqqSize {wrap : Int → Int} {rq : Rq} {c' : Core} (h : c.addRequest wrap rq = some c') :
    c'.sfqqSize = c.sfqqSize := by
  simp only [addRequest, Option.bind_eq_bind, Option.bind_eq_some_iff, Option.some.injEq] at h
  obtain ⟨k, -, a, -, q, -, rfl⟩ := h
  rfl

theorem put_priv1 {rq : Rq} (junk : SfqRequest) : (c.put rq junk).priv1 = c.priv1 := by
  unfold put
  split <;> rfl

theorem put_depth {rq : Rq} (junk : SfqRequest) : (c.put rq junk).depth = c.depth := by
  unfold put
  split <;> rfl

theorem put_sfqqSize {rq : Rq} (junk : SfqRequest) : (c.put rq junk).sfqqSize = c.sfqqSize := by
  unfold put
  split <;> rfl

theorem length_put {rq : Rq} (junk : SfqRequest) : (c.put rq junk).queue.length = c.queue.length := by
  unfold put
  split <;> rfl

theorem length_register (c : Core) (pid : Pid) : c.queue.length ≤ (c.register pid).2.queue.length := by
  unfold register
  split
  · exact Nat.le_refl _
  · simp [newQueue]

theorem register_of_any {pid : Pid} (h : c.queue.any (·.pid == pid) = true) :
    (c.register pid).2 = c := by
  rw [← List.findIdx?_isSome, Option.isSome_iff_exists] at h
  obtain ⟨k, hk⟩ := h
  simp [register, hk]

theorem register_of_not_any {pid : Pid} (h : c.queue.any (·.pid == pid) = false) :
    (c.register pid).2 = c.newQueue pid := by
  rw [← List.findIdx?_isSome, Option.isSome_eq_false_iff, Option.isNone_iff_eq_none] at h
  simp [register, h]

theorem register_spec (c : Core) (pid : Pid) :
    ∃ k q, (c.register pid).1 = k + 1 ∧ (c.register pid).2.queue[k]? = some q ∧ q.pid = pid ∧
      ((c.register pid).2 = c ∨ (c.register pid).2 = c.newQueue pid ∧ ∀ q ∈ c.queue, q.pid ≠ pid) := by
  unfold register
  split
  · rename_i k hf
    obtain ⟨hk, hpid, -⟩ := List.findIdx?_eq_some_iff_getElem.mp hf
    exact ⟨k, c.queue[k], rfl, by simp [hk], by simpa using hpid, .inl rfl⟩
  · rename_i hf
    refine ⟨c.queue.length, ⟨pid, []⟩, rfl, by simp [newQueue], rfl, .inr ⟨rfl, ?_⟩⟩
    intro q hq
    simpa using List.findIdx?_eq_none_iff.mp hf q hq

/-- Registering a process leaves every queue as it is. -/
theorem queueOf_register (c : Core) (pid p : Pid) :
    (c.register pid).2.queueOf p = c.queueOf p := by
  obtain ⟨k, q, -, -, -, he | ⟨he, hnew⟩⟩ := c.register_spec pid
  · rw [he]
  · rw [he]
    unfold queueOf newQueue
    rw [List.find?_append]
    cases hf : c.queue.find? (·.pid == p) with
    | some r => rfl
    | none =>
      by_cases hpid : pid = p
      · simp [hpid]
      · simp [hpid]

end SsdScheduler.Sfq.Core
