import SsdScheduler.Beta.Iosched12
import SsdScheduler.Sfq.HeapPath

/-!
# One call of `sfq_dispatch`

With a process registered, a call of `sfq_dispatch` moves the cursor and then does one of three
things: it hands out nothing, it hands out the head of the queue under the cursor, or it runs into
a `requests[]` array that was never allocated.
-/

namespace SsdScheduler.Iosched12

open Framework Framework.Heap Framework.RoundRobin Sfq

/-- The cursor stands on the next queue and the timer is cancelled. -/
def turned (s : SeekData) : SeekData := { s.moved with idleSliceTimer := false }

/-- Whether a call that finds `q` under the cursor and hands out nothing schedules the work. -/
def kicks (s : SeekData) (q : SfqQueue) : Bool :=
  if q.queue = [] ∧ s.osSfqq ≠ none ∨ requestDepth < s.depth then decide (s.sfqrSize ≠ 0)
  else decide (q.queue ≠ [])

/-- A call that finds `q` under the cursor hands out nothing. -/
def Passes (s : SeekData) (q : SfqQueue) : Prop :=
  q.queue = [] ∨ requestDepth < s.depth ∨ s.queue.length ≤ 1

instance (s : SeekData) (q : SfqQueue) : Decidable (Passes s q) :=
  inferInstanceAs (Decidable (_ ∨ _ ∨ _))

/-- What `sfq_dispatch` needs to find: a cursor in step with its counter, and an empty heap. -/
structure Ready (s : SeekData) : Prop where
  seeks : s.Seeks
  size : s.sfqqSize = s.queue.length
  heap : s.HeapIdle

variable {s : SeekData} {force : Bool} {q : SfqQueue} {a : Addr} {rest : List Addr}

theorem turned_osSfqq : (turned s).osSfqq = some (next s.queue.length s.sfqqTotalSeek) := rfl

theorem turned_depth : (turned s).depth = s.depth := rfl

theorem Ready.heap_turned (h : Ready s) : (turned s).HeapIdle :=
  ⟨h.heap.empty, h.heap.limit, h.heap.slots⟩

theorem sfqDispatch_empty (h : Ready s) (hn : s.queue = []) :
    sfqDispatch s force = some (.quiet false, { s with idleSliceTimer := false }) := by
  apply SeekData.dispatchWith_empty
  · exact h.seeks
  · exact hn

private theorem sfqDispatch_cases (h : Ready s)
    (hq : s.sfqq? (next s.queue.length s.sfqqTotalSeek) = some q) :
    sfqDispatch s force =
      if s.osSfqq ≠ none ∧ q.queue = [] then
        SeekData.finish (fun d _ => d.heapSort) (decide (s.sfqrSize ≠ 0)) (turned s)
      else SeekData.limited SfqData.transfer (fun d _ => d.heapSort) (turned s) := by
  have hs : SeekData.Seeks { s with idleSliceTimer := false } := h.seeks
  exact SeekData.dispatchWith_eq hs h.size hq

theorem sfqDispatch_passes (h : Ready s)
    (hq : s.sfqq? (next s.queue.length s.sfqqTotalSeek) = some q) (hp : Passes s q) :
    sfqDispatch s force =
      some (.quiet (kicks s q), { turned s with unplugWork := kicks s q || s.unplugWork }) := by
  have hidle : (turned s).heapSize = 0 := h.heap.empty
  have hheap := h.heap_turned
  have hq' : (turned s).sfqq? (next s.queue.length s.sfqqTotalSeek) = some q := hq
  rw [sfqDispatch_cases h hq]
  by_cases hjump : s.osSfqq ≠ none ∧ q.queue = []
  · have hk : kicks s q = decide (s.sfqrSize ≠ 0) := if_pos (.inl hjump.symm)
    rw [if_pos hjump, hk]
    simp only [SeekData.finish, turned_osSfqq, Option.bind_eq_bind, Option.bind_some,
      SfqData.heapSort_idle hidle]
    rfl
  · rw [if_neg hjump]
    by_cases hd : requestDepth < s.depth
    · have hk : kicks s q = decide (s.sfqrSize ≠ 0) := if_pos (.inr hd)
      rw [SeekData.limited, turned_depth, if_pos hd, hk]
      rfl
    · have hk : kicks s q = decide (q.queue ≠ []) := if_neg (by tauto)
      rw [SeekData.limited, turned_depth, if_neg hd, hk]
      cases hl : q.queue with
      | nil =>
        simp only [turned_osSfqq, Option.bind_eq_bind, Option.bind_some,
          SfqData.transfer_nil hq' hl, SeekData.finish, SfqData.heapSort_idle hidle]
        rfl
      | cons a rest =>
        have hn : s.queue.length ≤ 1 := by
          rcases hp with hp | hp | hp
          · simp [hl] at hp
          · exact absurd hp hd
          · exact hp
        simp only [turned_osSfqq, Option.bind_eq_bind, Option.bind_some,
          SfqData.transfer_full hheap hq' hl hn, SeekData.finish, SfqData.heapSort_idle hidle]
        rfl

section Serving

variable (h : Ready s) (hq : s.sfqq? (next s.queue.length s.sfqqTotalSeek) = some q)
  (hl : q.queue = a :: rest) (hp : ¬ Passes s q)

include h hq hl hp

theorem sfqDispatch_serves {b : Block Addr} {rq : Rq} (hr : s.requests = some b)
    (hrq : (s.pool a).rq = some rq) :
    sfqDispatch s force = some (⟨1, some rq, false⟩, { turned s with
      toCore := s.toCore.serve (next s.queue.length s.sfqqTotalSeek) q rest
      requests := some (b.set 0 (some a)) }) := by
  have hheap := h.heap_turned
  have hn : 2 ≤ s.queue.length := by unfold Passes at hp; omega
  have hb : 0 < b.length := by rw [h.heap.slots b hr, h.heap.limit]; omega
  have hd : ¬ requestDepth < s.depth := fun hd => hp (.inr (.inl hd))
  have hmove := SfqData.transfer_eq hheap hq hl hn hr
  have hsort : ((turned s).rooted (next s.queue.length s.sfqqTotalSeek) q a rest b).heapSort = _ :=
    SfqData.heapSort_rooted hb hrq
  have hempty : s.heapSize = 0 := h.heap.empty
  rw [sfqDispatch_cases h hq, if_neg (by simp [hl]), SeekData.limited, turned_depth, if_neg hd]
  simp only [turned_osSfqq, Option.bind_eq_bind, Option.bind_some, hmove, SeekData.finish, hsort]
  simp [dispatchOut, SfqData.rooted, SfqData.kickIf, turned, SeekData.moved, hempty]

theorem sfqDispatch_null (hr : s.requests = none) : sfqDispatch s force = none := by
  have hheap := h.heap_turned
  have hn : 2 ≤ s.queue.length := by unfold Passes at hp; omega
  have hd : ¬ requestDepth < s.depth := fun hd => hp (.inr (.inl hd))
  rw [sfqDispatch_cases h hq, if_neg (by simp [hl]), SeekData.limited, turned_depth, if_neg hd]
  simp only [turned_osSfqq, Option.bind_eq_bind, Option.bind_some,
    SfqData.transfer_null (d := (turned s).toSfqData) hheap hq hl hn hr, Option.bind_none]

end Serving

theorem sfqSetRequest_eq_some {rq : Rq} {pid : Pid} {env : SetEnv} {o : Out} {s' : SeekData} :
    sfqSetRequest s rq pid env = some (o, s') ↔
      (s.queue.any (·.pid == pid) || env.sfqq) = true ∧ o = .quiet false ∧
        s' = { s with toSfqData := { s.grown pid env with
          toCore := (s.toCore.register pid).2.allocSfqr rq (s.toCore.register pid).1 env.sfqr } } := by
  rw [sfqSetRequest, SfqData.setRequest_eq rfl]
  by_cases hq : (s.queue.any (·.pid == pid) || env.sfqq) = true
  · simp only [hq, if_true, Option.map_some, Option.some.injEq, Prod.mk.injEq, true_and]
    exact and_congr eq_comm eq_comm
  · simp only [hq, Bool.false_eq_true, if_false, Option.map_none, reduceCtorEq, false_and]

theorem sfqCompleted_eq_some (rq : Rq) {o : Out} {s' : SeekData} :
    sfqCompleted s rq = some (o, s') ↔ o = s.completed.1 ∧ s' = { s with toSfqData := s.completed.2 } := by
  rw [sfqCompleted, Option.some.injEq, Prod.mk.injEq]
  exact and_congr eq_comm eq_comm

theorem sfqAddRequest_eq_some {wrap : Int → Int} {rq : Rq} {o : Out} {s' : SeekData} :
    sfqAddRequest wrap s rq = some (o, s') ↔
      ∃ c, s.toCore.addRequest wrap rq = some c ∧ o = .quiet false ∧ s' = { s with toCore := c } := by
  simp only [sfqAddRequest, SfqData.addRequest, Option.map_map, Option.map_eq_some_iff,
    Function.comp_apply, Prod.mk.injEq]
  exact exists_congr fun c => and_congr_right' (and_congr eq_comm eq_comm)

/-- The calls of `sfq_dispatch` that return. -/
inductive Turn (s : SeekData) : Out → SeekData → Prop
  | empty (hn : s.queue = []) : Turn s (.quiet false) { s with idleSliceTimer := false }
  | passes {q : SfqQueue} (hq : s.sfqq? (next s.queue.length s.sfqqTotalSeek) = some q)
      (hp : Passes s q) :
      Turn s (.quiet (kicks s q)) { turned s with unplugWork := kicks s q || s.unplugWork }
  | serves {q : SfqQueue} {a : Addr} {rest : List Addr} {b : Block Addr} {rq : Rq}
      (hq : s.sfqq? (next s.queue.length s.sfqqTotalSeek) = some q) (hl : q.queue = a :: rest)
      (hp : ¬ Passes s q) (hr : s.requests = some b) (hrq : (s.pool a).rq = some rq) :
      Turn s ⟨1, some rq, false⟩ { turned s with
        toCore := s.toCore.serve (next s.queue.length s.sfqqTotalSeek) q rest
        requests := some (b.set 0 (some a)) }

theorem Turn.seeks {o : Out} {s' : SeekData} (h : s.Seeks) (ht : Turn s o s') : s'.Seeks := by
  have hmoved {q : SfqQueue} (hq : s.sfqq? (next s.queue.length s.sfqqTotalSeek) = some q) :
      s.moved.Seeks := by
    obtain ⟨k, -, hk⟩ := Core.sfqq?_eq_some.mp hq
    have hlt := (List.getElem?_eq_some_iff.mp hk).1
    exact .moved (by omega)
  cases ht with
  | empty hn => exact h
  | passes hq hp => exact hmoved hq
  | serves hq hl hp hr hrq => exact (hmoved hq).congr rfl rfl (Core.length_setQueue _).symm.le

theorem Turn.heap {o : Out} {s' : SeekData} (h : s.HeapIdle) (ht : Turn s o s') : s'.HeapIdle := by
  cases ht with
  | empty hn => exact ⟨h.empty, h.limit, h.slots⟩
  | passes hq hp => exact ⟨h.empty, h.limit, h.slots⟩
  | serves hq hl hp hr hrq =>
    refine ⟨h.empty, h.limit.trans (Core.length_setQueue _).symm, ?_⟩
    intro b' hb'
    cases hb'
    exact List.length_set.trans (h.slots _ hr)

theorem exists_turn (hrq : ∀ q ∈ s.queue, ∀ a ∈ q.queue, (s.pool a).rq ≠ none)
    (hr : s.queue ≠ [] → s.requests ≠ none) : ∃ o s', Turn s o s' := by
  rcases eq_or_ne s.queue [] with hn | hn
  · exact ⟨_, _, .empty hn⟩
  · obtain ⟨q, hq⟩ := Core.exists_sfqq_next hn s.sfqqTotalSeek
    by_cases hp : Passes s q
    · exact ⟨_, _, .passes hq hp⟩
    · obtain ⟨k, -, hk⟩ := Core.sfqq?_eq_some.mp hq
      obtain ⟨b, hb⟩ := Option.ne_none_iff_exists'.mp (hr hn)
      cases hl : q.queue with
      | nil => exact absurd (.inl hl) hp
      | cons a rest =>
        obtain ⟨rq, hrq⟩ := Option.ne_none_iff_exists'.mp (hrq q (List.mem_of_getElem? hk) a (by simp [hl]))
        exact ⟨_, _, .serves hq hl hp hb hrq⟩

/-- `sfq_dispatch` is the relation `Turn` as long as the waiting records know their requests. -/
theorem sfqDispatch_iff {o : Out} {s' : SeekData} (force : Bool) (h : Ready s)
    (hrq : ∀ q ∈ s.queue, ∀ a ∈ q.queue, (s.pool a).rq ≠ none) :
    sfqDispatch s force = some (o, s') ↔ Turn s o s' := by
  constructor
  · intro hd
    rcases eq_or_ne s.queue [] with hn | hn
    · rw [sfqDispatch_empty h hn] at hd
      cases hd
      exact .empty hn
    · obtain ⟨q, hq⟩ := Core.exists_sfqq_next hn s.sfqqTotalSeek
      by_cases hp : Passes s q
      · rw [sfqDispatch_passes h hq hp] at hd
        cases hd
        exact .passes hq hp
      · cases hl : q.queue with
        | nil => exact absurd (.inl hl) hp
        | cons a rest =>
          obtain ⟨k, -, hk⟩ := Core.sfqq?_eq_some.mp hq
          obtain ⟨rq, hrq⟩ := Option.ne_none_iff_exists'.mp
            (hrq q (List.mem_of_getElem? hk) a (by simp [hl]))
          cases hr : s.requests with
          | none => simp [sfqDispatch_null h hq hl hp hr] at hd
          | some b =>
            rw [sfqDispatch_serves h hq hl hp hr hrq] at hd
            cases hd
            exact .serves hq hl hp hr hrq
  · intro ht
    cases ht with
    | empty hn => exact sfqDispatch_empty h hn
    | passes hq hp => exact sfqDispatch_passes h hq hp
    | serves hq hl hp hr hrq => exact sfqDispatch_serves h hq hl hp hr hrq

end SsdScheduler.Iosched12
