import Mathlib.Data.Set.Card
import SsdScheduler.Sfq.CoreQueues

/-!
# Process queues served from the head

`CoreStep` is the system every version runs: processes register, requests are tagged and queued,
and a dispatch may serve the head of any queue or none. Which queue is served, and when, is left
open here. `CoreInv` collects what holds whatever the choice: records and requests belong to each
other, nothing is lost or duplicated, and each queue is in arrival and start-tag order.
-/

namespace SsdScheduler.Sfq

open Framework.Heap

inductive CoreStep (wrap : Int → Int) : World Core → World Core → Prop
  | skip (w : World Core) : CoreStep wrap w w
  | set {w : World Core} (rq : Rq) (pid : Pid) (sfqr : Option Addr) (hi : w.phase rq = .idle)
      (hf : ∀ a, sfqr = some a → w.elv.live a = false) :
      CoreStep wrap w
        (w.onSet ((w.elv.register pid).2.allocSfqr rq (w.elv.register pid).1 sfqr) rq pid)
  | add {w : World Core} {c : Core} (rq : Rq) (hs : w.phase rq = .set)
      (hc : w.elv.addRequest wrap rq = some c) : CoreStep wrap w (w.onAdd c rq)
  | serve {w : World Core} {k : Nat} {q : SfqQueue} {a : Addr} {rest : List Addr} {rq : Rq}
      (hk : w.elv.queue[k]? = some q) (hq : q.queue = a :: rest)
      (hrq : (w.elv.pool a).rq = some rq) :
      CoreStep wrap w (w.onDispatch
        { w.elv.setQueue (k + 1) { q with queue := rest } with depth := w.elv.depth + 1 } (some rq))
  | complete {w : World Core} (rq : Rq) (hd : w.phase rq = .dispatched) :
      CoreStep wrap w (w.onCompleted w.elv.complete rq)
  | put {w : World Core} (rq : Rq) (junk : SfqRequest)
      (hs : w.phase rq = .set ∨ w.phase rq = .completed) :
      CoreStep wrap w (w.onPut (w.elv.put rq junk) rq)

structure CoreInv (w : World Core) : Prop where
  pids : (w.elv.queue.map SfqQueue.pid).Nodup
  size : w.elv.sfqqSize = w.elv.queue.length
  home : ∀ rq, w.phase rq ≠ .idle →
    ∃ k q, w.elv.priv0 rq = some (k + 1) ∧ w.elv.queue[k]? = some q ∧ q.pid = w.owner rq
  live : ∀ rq a, w.phase rq ≠ .idle → w.elv.priv1 rq = some a → w.elv.live a = true
  unique : ∀ rq rq' a, w.phase rq ≠ .idle → w.phase rq' ≠ .idle → w.elv.priv1 rq = some a →
    w.elv.priv1 rq' = some a → rq = rq'
  linked : ∀ q ∈ w.elv.queue, ∀ a ∈ q.queue, ∃ rq, (w.elv.pool a).rq = some rq ∧
    w.phase rq = .added ∧ w.elv.priv1 rq = some a ∧ w.owner rq = q.pid
  nodup : ∀ q ∈ w.elv.queue, q.queue.Nodup
  waits : ∀ rq, w.phase rq = .added →
    ∃ q ∈ w.elv.queue, ∃ a ∈ q.queue, (w.elv.pool a).rq = some rq
  outstanding : ∃ F : Finset Rq, (∀ rq, rq ∈ F ↔ w.phase rq = .dispatched) ∧ w.elv.depth = F.card
  count : w.elv.sfqrSize = w.elv.load + w.elv.depth
  fifo : ∀ p, w.addedBy p = w.dispatchedBy p ++ w.elv.waiting p
  sorted : ∀ q ∈ w.elv.queue,
    q.queue.Pairwise fun a b => (w.elv.pool a).startTag ≤ (w.elv.pool b).startTag
  recent : ∀ q ∈ w.elv.queue, ∀ a ∈ q.queue, (w.elv.pool a).startTag ≤ w.elv.virtualTime

namespace CoreInv

variable {w : World Core} {rq : Rq} {a : Addr} {q : SfqQueue} {k : Nat}

/-- A linked record belongs to one request, which has been added. -/
theorem linked_of_priv1 (h : CoreInv w) (hq : q ∈ w.elv.queue) (ha : a ∈ q.queue)
    (hi : w.phase rq ≠ .idle) (hp : w.elv.priv1 rq = some a) :
    (w.elv.pool a).rq = some rq ∧ w.phase rq = .added ∧ w.owner rq = q.pid := by
  obtain ⟨rq', hrq, hph, hpr, how⟩ := h.linked q hq a ha
  obtain rfl := h.unique rq' rq a (by simp [hph]) hi hpr hp
  exact ⟨hrq, hph, how⟩

theorem live_of_linked (h : CoreInv w) (hq : q ∈ w.elv.queue) (ha : a ∈ q.queue) :
    w.elv.live a = true := by
  obtain ⟨rq, -, hph, hpr, -⟩ := h.linked q hq a ha
  exact h.live rq a (by simp [hph]) hpr

/-- The start tags never fall behind the virtual time. -/
theorem virtualTime_le_nextStartTag (c : Core) : c.virtualTime ≤ c.nextStartTag := by
  unfold Core.nextStartTag
  split
  · split <;> omega
  · exact le_rfl

theorem waiting_congr {c c' : Core} {p : Pid} (hq : c'.queueOf p = c.queueOf p)
    (hpool : ∀ a ∈ c.queueOf p, (c'.pool a).rq = (c.pool a).rq) : c'.waiting p = c.waiting p := by
  unfold Core.waiting
  rw [hq]
  exact List.filterMap_congr hpool

theorem mem_waiting (h : CoreInv w) {p : Pid} :
    rq ∈ w.elv.waiting p ↔ w.phase rq = .added ∧ w.owner rq = p := by
  unfold Core.waiting
  rw [List.mem_filterMap]
  constructor
  · rintro ⟨a, ha, hrq⟩
    obtain ⟨q, hq, rfl, haq⟩ := (Core.mem_queueOf h.pids).mp ha
    obtain ⟨rq', hrq', hph, -, how⟩ := h.linked q hq a haq
    obtain rfl : rq' = rq := Option.some.inj (hrq'.symm.trans hrq)
    exact ⟨hph, how⟩
  · rintro ⟨hph, rfl⟩
    obtain ⟨q, hq, a, ha, hrq⟩ := h.waits rq hph
    obtain ⟨rq', hrq', -, -, how⟩ := h.linked q hq a ha
    obtain rfl : rq' = rq := Option.some.inj (hrq'.symm.trans hrq)
    exact ⟨a, (Core.mem_queueOf h.pids).mpr ⟨q, hq, how.symm, ha⟩, hrq⟩

theorem nodup_waiting (h : CoreInv w) (p : Pid) : (w.elv.waiting p).Nodup := by
  have hnd : (w.elv.queueOf p).Nodup := by
    rcases Core.registered_or w.elv p with ⟨q, hq, rfl⟩ | hnone
    · rw [Core.queueOf_of_mem h.pids hq]
      exact h.nodup q hq
    · rw [Core.queueOf_of_unregistered hnone]
      exact List.nodup_nil
  unfold Core.waiting List.Nodup
  rw [List.pairwise_filterMap]
  refine hnd.imp_of_mem fun {a b} ha hb hne rq hrq rq' hrq' he => hne ?_
  obtain ⟨q, hq, -, ha⟩ := (Core.mem_queueOf h.pids).mp ha
  obtain ⟨q', hq', -, hb⟩ := (Core.mem_queueOf h.pids).mp hb
  obtain ⟨r, hr, -, hpr, -⟩ := h.linked q hq a ha
  obtain ⟨r', hr', -, hpr', -⟩ := h.linked q' hq' b hb
  obtain rfl : r = rq := Option.some.inj (hr.symm.trans hrq)
  obtain rfl : r' = rq' := Option.some.inj (hr'.symm.trans hrq')
  exact Option.some.inj (hpr.symm.trans (he ▸ hpr'))

/-- An added request is in the queue of its own process, once, and no other request is in any. -/
theorem count_waiting (h : CoreInv w) (rq : Rq) (p : Pid) :
    (w.elv.waiting p).count rq = if w.phase rq = .added ∧ w.owner rq = p then 1 else 0 := by
  by_cases hm : rq ∈ w.elv.waiting p
  · rw [if_pos (h.mem_waiting.mp hm)]
    exact List.count_eq_one_of_mem (h.nodup_waiting p) hm
  · rw [if_neg fun hc => hm (h.mem_waiting.mpr hc)]
    exact List.count_eq_zero_of_not_mem hm

/-- The head of a queue carries the smallest start tag among the waiting requests of its process. -/
theorem head_oldest (h : CoreInv w) {rest : List Addr} (hq : q ∈ w.elv.queue) (hl : q.queue = a :: rest)
    (hrq : rq ∈ w.elv.waiting q.pid) :
    ∃ a', w.elv.priv1 rq = some a' ∧ (w.elv.pool a).startTag ≤ (w.elv.pool a').startTag := by
  obtain ⟨hph, how⟩ := h.mem_waiting.mp hrq
  obtain ⟨q', hq', a', ha', hrq'⟩ := h.waits rq hph
  obtain ⟨r, hr, -, hpriv, how'⟩ := h.linked q' hq' a' ha'
  obtain rfl : r = rq := Option.some.inj (hr.symm.trans hrq')
  obtain rfl : q' = q := List.inj_on_of_nodup_map h.pids hq' hq (how'.symm.trans how)
  refine ⟨a', hpriv, ?_⟩
  have hsorted := h.sorted q' hq
  rw [hl, List.pairwise_cons] at hsorted
  rw [hl, List.mem_cons] at ha'
  rcases ha' with rfl | ha'
  · exact le_rfl
  · exact hsorted.1 a' ha'

theorem depth_eq_ncard (h : CoreInv w) :
    w.outstanding.Finite ∧ w.elv.depth = w.outstanding.ncard := by
  obtain ⟨F, hF, hd⟩ := h.outstanding
  have he : w.outstanding = ↑F := by
    ext rq
    exact (hF rq).symm
  rw [he]
  exact ⟨F.finite_toSet, by rw [Set.ncard_coe_finset, hd]⟩

/-- The outstanding requests after a step that neither dispatches nor completes one. -/
theorem outstanding_update (h : CoreInv w) (ph : Phase) (hold : w.phase rq ≠ .dispatched) (hne : ph ≠ .dispatched) :
    ∃ F : Finset Rq, (∀ r, r ∈ F ↔ Function.update w.phase rq ph r = .dispatched) ∧ w.elv.depth = F.card := by
  obtain ⟨F, hF, hd⟩ := h.outstanding
  exact ⟨F, fun r => (hF r).trans (World.phase_update_iff hold hne).symm, hd⟩

/-- A request keeps its queue when that is replaced by one of the same process. -/
theorem home_setQueue (h : CoreInv w) {q' : SfqQueue} (hk : w.elv.queue[k]? = some q) (hpid : q'.pid = q.pid)
    (hrq : w.phase rq ≠ .idle) : ∃ j r, w.elv.priv0 rq = some (j + 1) ∧
      (w.elv.setQueue (k + 1) q').queue[j]? = some r ∧ r.pid = w.owner rq := by
  obtain ⟨j, r, hp, hj, hown⟩ := h.home rq hrq
  rcases eq_or_ne k j with rfl | hkj
  · obtain rfl : q = r := Option.some.inj (hk.symm.trans hj)
    exact ⟨k, q', hp, by simp [(List.getElem?_eq_some_iff.mp hk).1], hpid.trans hown⟩
  · exact ⟨j, r, hp, by simpa [List.getElem?_set_ne hkj] using hj, hown⟩

/-- The invariant after a step that touches no waiting request. -/
private theorem frame {w' : World Core} (h : CoreInv w) (hqueue : w'.elv.queue = w.elv.queue)
    (hsize : w'.elv.sfqqSize = w.elv.sfqqSize)
    (hpool : ∀ q ∈ w.elv.queue, ∀ a ∈ q.queue, w'.elv.pool a = w.elv.pool a)
    (hvt : w'.elv.virtualTime = w.elv.virtualTime)
    (hlog : w'.addLog = w.addLog ∧ w'.dispatchLog = w.dispatchLog)
    (hadded : ∀ rq, w'.phase rq = .added ↔ w.phase rq = .added)
    (hwait : ∀ rq, w.phase rq = .added → w'.elv.priv1 rq = w.elv.priv1 rq ∧ w'.owner rq = w.owner rq)
    (home : ∀ rq, w'.phase rq ≠ .idle →
      ∃ k q, w'.elv.priv0 rq = some (k + 1) ∧ w.elv.queue[k]? = some q ∧ q.pid = w'.owner rq)
    (live : ∀ rq a, w'.phase rq ≠ .idle → w'.elv.priv1 rq = some a → w'.elv.live a = true)
    (unique : ∀ rq rq' a, w'.phase rq ≠ .idle → w'.phase rq' ≠ .idle → w'.elv.priv1 rq = some a →
      w'.elv.priv1 rq' = some a → rq = rq')
    (outstanding : ∃ F : Finset Rq, (∀ rq, rq ∈ F ↔ w'.phase rq = .dispatched) ∧
      w'.elv.depth = F.card)
    (count : w'.elv.sfqrSize - w'.elv.depth = w.elv.sfqrSize - w.elv.depth) : CoreInv w' where
  pids := by rw [hqueue]; exact h.pids
  size := by rw [hqueue, hsize]; exact h.size
  home := by rw [hqueue]; exact home
  live := live
  unique := unique
  linked := by
    rw [hqueue]
    intro q hq a ha
    obtain ⟨rq, hrq, hph, hpr, how⟩ := h.linked q hq a ha
    have hsame := hwait rq hph
    exact ⟨rq, by rw [hpool q hq a ha, hrq], (hadded rq).mpr hph, hsame.1.trans hpr, hsame.2.trans how⟩
  nodup := by rw [hqueue]; exact h.nodup
  waits := by
    rw [hqueue]
    intro rq hrq
    obtain ⟨q, hq, a, ha, hp⟩ := h.waits rq ((hadded rq).mp hrq)
    exact ⟨q, hq, a, ha, by rw [hpool q hq a ha, hp]⟩
  outstanding := outstanding
  count := by
    have hload : w'.elv.load = w.elv.load := by unfold Core.load; rw [hqueue]
    have := h.count
    omega
  fifo p := by
    have hof : w'.elv.queueOf p = w.elv.queueOf p := Core.queueOf_congr hqueue
    have hwaiting : w'.elv.waiting p = w.elv.waiting p := waiting_congr hof fun a ha => by
      obtain ⟨q, hq, -, ha⟩ := (Core.mem_queueOf h.pids).mp ha
      rw [hpool q hq a ha]
    unfold World.addedBy World.dispatchedBy
    rw [hlog.1, hlog.2, hwaiting]
    exact h.fifo p
  sorted := by
    rw [hqueue]
    intro q hq
    refine (h.sorted q hq).imp_of_mem fun ha hb hle => ?_
    rwa [hpool q hq _ ha, hpool q hq _ hb]
  recent := by
    rw [hqueue, hvt]
    intro q hq a ha
    rw [hpool q hq a ha]
    exact h.recent q hq a ha

theorem init : CoreInv
    (⟨⟨0, 0, none, [], 0, 0, fun _ => .zero, fun _ => false, fun _ => none, fun _ => none⟩,
      fun _ => .idle, fun _ => 0, [], []⟩ : World Core) := by
  constructor <;> simp [Core.load, World.addedBy, World.dispatchedBy, Core.waiting, Core.queueOf]
  exact ⟨∅, by simp, rfl⟩

theorem register (h : CoreInv w) (pid : Pid) : CoreInv { w with elv := (w.elv.register pid).2 } := by
  have hof := w.elv.queueOf_register pid
  obtain ⟨-, -, -, -, -, he | ⟨he, hnew⟩⟩ := w.elv.register_spec pid
  · rw [he]
    exact h
  rw [he] at hof ⊢
  have hmem {q : SfqQueue} (hq : q ∈ (w.elv.newQueue pid).queue) : q ∈ w.elv.queue ∨ q = ⟨pid, []⟩ := by
    simpa [Core.newQueue] using hq
  refine { pids := ?_, size := ?_, home := ?_, live := h.live, unique := h.unique, linked := ?_,
           nodup := ?_, waits := ?_, outstanding := h.outstanding, count := ?_, fifo := ?_,
           sorted := ?_, recent := ?_ }
  · simp only [Core.newQueue, List.map_append, List.map_cons, List.map_nil]
    rw [List.nodup_append]
    refine ⟨h.pids, List.nodup_singleton _, ?_⟩
    simpa using fun q hq => hnew q hq
  · simp [Core.newQueue, h.size]
  · intro rq hrq
    obtain ⟨k, q, hp, hk, hq⟩ := h.home rq hrq
    have hlt := (List.getElem?_eq_some_iff.mp hk).1
    exact ⟨k, q, hp, by simpa [Core.newQueue, List.getElem?_append_left hlt] using hk, hq⟩
  · intro q hq a ha
    rcases hmem hq with hq | rfl
    · exact h.linked q hq a ha
    · simp at ha
  · intro q hq
    rcases hmem hq with hq | rfl
    · exact h.nodup q hq
    · exact List.nodup_nil
  · intro rq hrq
    obtain ⟨q, hq, a, ha, hp⟩ := h.waits rq hrq
    exact ⟨q, by simp [Core.newQueue, hq], a, ha, hp⟩
  · have hload : (w.elv.newQueue pid).load = w.elv.load := by simp [Core.load, Core.newQueue]
    have := h.count
    simp only [Core.newQueue] at hload ⊢
    rw [hload]
    exact this
  · intro p
    have hwaiting : (w.elv.newQueue pid).waiting p = w.elv.waiting p :=
      waiting_congr (hof p) fun _ _ => rfl
    simp only [hwaiting]
    exact h.fifo p
  · intro q hq
    rcases hmem hq with hq | rfl
    · exact h.sorted q hq
    · exact List.Pairwise.nil
  · intro q hq a ha
    rcases hmem hq with hq | rfl
    · exact h.recent q hq a ha
    · simp at ha

/-- Setting a request of a registered process, with a record that was free. -/
theorem alloc (h : CoreInv w) {pid : Pid} {sfqr : Option Addr} (hi : w.phase rq = .idle)
    (hf : ∀ a, sfqr = some a → w.elv.live a = false) (hk : w.elv.queue[k]? = some q)
    (hq : q.pid = pid) : CoreInv (w.onSet (w.elv.allocSfqr rq (k + 1) sfqr) rq pid) := by
  have hpriv0 : (w.elv.allocSfqr rq (k + 1) sfqr).priv0 =
      Function.update w.elv.priv0 rq (some (k + 1)) := by cases sfqr <;> rfl
  have hpriv1 : (w.elv.allocSfqr rq (k + 1) sfqr).priv1 = Function.update w.elv.priv1 rq sfqr := by
    cases sfqr <;> rfl
  have hne {b : Addr} (hb : w.elv.live b = true) : ∀ a, sfqr = some a → b ≠ a := by
    rintro a ha rfl
    simp [hf b ha] at hb
  have hlive {b : Addr} (hb : w.elv.live b = true) :
      (w.elv.allocSfqr rq (k + 1) sfqr).live b = true := by
    cases sfqr with
    | none => exact hb
    | some a => simp [Core.allocSfqr, Function.update_of_ne (hne hb a rfl), hb]
  have hphase {rq' : Rq} (hr : rq' ≠ rq) :
      (w.onSet (w.elv.allocSfqr rq (k + 1) sfqr) rq pid).phase rq' = w.phase rq' :=
    Function.update_of_ne hr _ _
  have hother {rq' : Rq} {b : Addr} (hr : rq' ≠ rq)
      (hp : (w.elv.allocSfqr rq (k + 1) sfqr).priv1 rq' = some b) : w.elv.priv1 rq' = some b := by
    rwa [hpriv1, Function.update_of_ne hr] at hp
  refine h.frame (by cases sfqr <;> rfl) (by cases sfqr <;> rfl) ?_ (by cases sfqr <;> rfl)
    ⟨rfl, rfl⟩ (fun _ => World.phase_update_iff (by simp [hi]) (by decide)) ?_ ?_ ?_ ?_ ?_ (by cases sfqr <;> rfl)
  · intro q hq b hb
    cases sfqr with
    | none => rfl
    | some a => exact Function.update_of_ne (hne (h.live_of_linked hq hb) a rfl) _ _
  · intro rq' hph
    have hr : rq' ≠ rq := by rintro rfl; simp [hi] at hph
    exact ⟨by simp only [World.onSet, hpriv1, Function.update_of_ne hr], Function.update_of_ne hr _ _⟩
  · intro rq' hph
    rcases eq_or_ne rq' rq with rfl | hr
    · exact ⟨k, q, by simp [World.onSet, hpriv0], hk, by simp [World.onSet, hq]⟩
    · rw [hphase hr] at hph
      obtain ⟨j, r, hp, hj, how⟩ := h.home rq' hph
      exact ⟨j, r, by simpa [World.onSet, hpriv0, hr] using hp, hj, by simpa [World.onSet, hr] using how⟩
  · intro rq' b hph hp
    rcases eq_or_ne rq' rq with rfl | hr
    · cases sfqr with
      | none => simp [World.onSet] at hp
      | some a =>
        obtain rfl : a = b := by simpa [World.onSet, hpriv1] using hp
        exact Function.update_self _ _ _
    · rw [hphase hr] at hph
      exact hlive (h.live rq' b hph (hother hr hp))
  · intro r r' b hr hr' hp hp'
    have hnew {r : Rq} (hrne : r ≠ rq)
        (hph : (w.onSet (w.elv.allocSfqr rq (k + 1) sfqr) rq pid).phase r ≠ .idle)
        (hpr : (w.elv.allocSfqr rq (k + 1) sfqr).priv1 r = some b) : sfqr ≠ some b := by
      intro he
      rw [hphase hrne] at hph
      exact hne (h.live r b hph (hother hrne hpr)) b he rfl
    have hown {r : Rq} (he : r = rq)
        (hpr : (w.elv.allocSfqr rq (k + 1) sfqr).priv1 r = some b) : sfqr = some b := by
      rwa [hpriv1, he, Function.update_self] at hpr
    rcases eq_or_ne r rq with h1 | h1 <;> rcases eq_or_ne r' rq with h2 | h2
    · exact h1.trans h2.symm
    · exact absurd (hown h1 hp) (hnew h2 hr' hp')
    · exact absurd (hown h2 hp') (hnew h1 hr hp)
    · rw [hphase h1] at hr
      rw [hphase h2] at hr'
      exact h.unique r r' b hr hr' (hother h1 hp) (hother h2 hp')
  · have hold : w.phase rq ≠ .dispatched := by simp [hi]
    obtain ⟨F, hF, hd⟩ := h.outstanding_update .set hold (by decide)
    exact ⟨F, hF, by cases sfqr <;> exact hd⟩

theorem complete (h : CoreInv w) (hd : w.phase rq = .dispatched) :
    CoreInv (w.onCompleted w.elv.complete rq) := by
  have hidle {r : Rq} (hr : (w.onCompleted w.elv.complete rq).phase r ≠ .idle) : w.phase r ≠ .idle :=
    World.busy_of_update (by simp [hd]) hr
  refine h.frame rfl rfl (fun _ _ _ _ => rfl) rfl ⟨rfl, rfl⟩
    (fun _ => World.phase_update_iff (by simp [hd]) (by decide)) (fun _ _ => ⟨rfl, rfl⟩)
    (fun r hr => h.home r (hidle hr)) (fun r a hr => h.live r a (hidle hr))
    (fun r r' a hr hr' => h.unique r r' a (hidle hr) (hidle hr')) ?_ ?_
  · obtain ⟨F, hF, hdep⟩ := h.outstanding
    refine ⟨F.erase rq, fun r => ?_, ?_⟩
    · change _ ↔ Function.update w.phase rq .completed r = .dispatched
      rw [Finset.mem_erase, hF]
      rcases eq_or_ne r rq with rfl | hne
      · simp
      · simp [hne]
    · have hcard := Finset.card_erase_add_one ((hF rq).mpr hd)
      simp only [World.onCompleted, Core.complete]
      omega
  · simp only [World.onCompleted, Core.complete]
    omega

theorem put (h : CoreInv w) {junk : SfqRequest} (hs : w.phase rq = .set ∨ w.phase rq = .completed) :
    CoreInv (w.onPut (w.elv.put rq junk) rq) := by
  have hbusy {rq' : Rq} (hph : (w.onPut (w.elv.put rq junk) rq).phase rq' ≠ .idle) :
      rq' ≠ rq ∧ w.phase rq' ≠ .idle := (World.phase_of_update hph.symm rfl).imp_right fun h => h.trans_ne hph
  have hpriv0 : (w.elv.put rq junk).priv0 = w.elv.priv0 := by unfold Core.put; split <;> rfl
  have hpriv1 : (w.elv.put rq junk).priv1 = w.elv.priv1 := by unfold Core.put; split <;> rfl
  have hkeep {b : Addr} (hb : w.elv.priv1 rq ≠ some b) :
      (w.elv.put rq junk).pool b = w.elv.pool b ∧ (w.elv.put rq junk).live b = w.elv.live b := by
    unfold Core.put
    split
    · rename_i a ha
      have hne : b ≠ a := by rintro rfl; exact hb ha
      exact ⟨Function.update_of_ne hne _ _, Function.update_of_ne hne _ _⟩
    · exact ⟨rfl, rfl⟩
  obtain ⟨hrq, hadd, hold⟩ := World.phase_of_put hs
  refine h.frame (by simp only [World.onPut, Core.put]; split <;> rfl)
    (by simp only [World.onPut, Core.put]; split <;> rfl) ?_
    (by simp only [World.onPut, Core.put]; split <;> rfl) ⟨rfl, rfl⟩
    (fun _ => World.phase_update_iff hadd (by decide)) ?_ ?_ ?_ ?_ ?_
    (by simp only [World.onPut, Core.put]; split <;> rfl)
  · intro q hq b hb
    refine (hkeep fun hp => ?_).1
    exact hadd (h.linked_of_priv1 hq hb hrq hp).2.1
  · exact fun rq' _ => ⟨by simp only [World.onPut, hpriv1], rfl⟩
  · intro rq' hph
    have := h.home rq' (hbusy hph).2
    simpa only [World.onPut, hpriv0] using this
  · intro rq' b hph hp
    simp only [World.onPut, hpriv1] at hp ⊢
    rw [(hkeep fun hp' => (hbusy hph).1 (h.unique rq' rq b (hbusy hph).2 hrq hp hp')).2]
    exact h.live rq' b (hbusy hph).2 hp
  · intro r r' b hr hr' hp hp'
    simp only [World.onPut, hpriv1] at hp hp'
    exact h.unique r r' b (hbusy hr).2 (hbusy hr').2 hp hp'
  · obtain ⟨F, hF, hd⟩ := h.outstanding_update .idle hold (by decide)
    refine ⟨F, hF, ?_⟩
    simp only [World.onPut, Core.put]
    split <;> exact hd

theorem addRequest_eq {wrap : Int → Int} {c c' : Core} (h0 : c.priv0 rq = some (k + 1))
    (hk : c.queue[k]? = some q) (hc : c.addRequest wrap rq = some c') :
    ∃ a, c.priv1 rq = some a ∧
      c' = { c.setQueue (k + 1) { q with queue := q.queue ++ [a] } with
        virtualTime := c.nextStartTag, prevSfqr := some a, sfqrSize := c.sfqrSize + 1,
        pool := Function.update c.pool a
          ⟨c.nextStartTag, wrap (c.nextStartTag + requestLength / requestWeight), some rq⟩ } := by
  cases h1 : c.priv1 rq with
  | none => simp [Core.addRequest, h0, h1] at hc
  | some a =>
    refine ⟨a, rfl, ?_⟩
    simp only [Core.addRequest, h0, h1, Core.sfqq?, hk, Option.bind_eq_bind, Option.bind_some,
      Option.some.injEq] at hc
    exact hc.symm

/-- A request with a record can be added. -/
theorem addRequest_ne_none (h : CoreInv w) (wrap : Int → Int) (hs : w.phase rq = .set)
    (h1 : w.elv.priv1 rq ≠ none) : w.elv.addRequest wrap rq ≠ none := by
  obtain ⟨k, q, h0, hk, -⟩ := h.home rq (by simp [hs])
  obtain ⟨a, ha⟩ := Option.ne_none_iff_exists'.mp h1
  simp [Core.addRequest, h0, ha, Core.sfqq?, hk]

theorem add (h : CoreInv w) {wrap : Int → Int} {c : Core} (hs : w.phase rq = .set)
    (hc : w.elv.addRequest wrap rq = some c) : CoreInv (w.onAdd c rq) := by
  obtain ⟨k, q, h0, hk, how⟩ := h.home rq (by simp [hs])
  obtain ⟨a, h1, rfl⟩ := addRequest_eq h0 hk hc
  have hqm : q ∈ w.elv.queue := List.mem_of_getElem? hk
  have hfree : ∀ r ∈ w.elv.queue, ∀ b ∈ r.queue, b ≠ a := by
    rintro r hr b hb rfl
    simp [(h.linked_of_priv1 hr hb (by simp [hs]) h1).2.1] at hs
  have htag := virtualTime_le_nextStartTag w.elv
  set q' : SfqQueue := { q with queue := q.queue ++ [a] } with hq'
  set sfqr : SfqRequest :=
    ⟨w.elv.nextStartTag, wrap (w.elv.nextStartTag + requestLength / requestWeight), some rq⟩ with hsfqr
  have hmem {r : SfqQueue} : r ∈ (w.elv.setQueue (k + 1) q').queue ↔
      r = q' ∨ r ∈ w.elv.queue ∧ r.pid ≠ q.pid := Core.mem_setQueue h.pids hk
  have hphase {rq' : Rq} (hr : rq' ≠ rq) {c : Core} : (w.onAdd c rq).phase rq' = w.phase rq' :=
    Function.update_of_ne hr _ _
  have hbusy {rq' : Rq} {c : Core} (hph : (w.onAdd c rq).phase rq' ≠ .idle) : w.phase rq' ≠ .idle :=
    World.busy_of_update (by simp [hs]) hph
  have hpool {r : SfqQueue} {b : Addr} (hr : r ∈ w.elv.queue) (hb : b ∈ r.queue) :
      Function.update w.elv.pool a sfqr b = w.elv.pool b := Function.update_of_ne (hfree r hr b hb) _ _
  -- what is linked now is the new record, or was linked before in a queue of the same process
  have hold : ∀ r ∈ (w.elv.setQueue (k + 1) q').queue, ∀ b ∈ r.queue,
      b = a ∧ r.pid = q.pid ∨ ∃ r₀ ∈ w.elv.queue, r₀.pid = r.pid ∧ b ∈ r₀.queue := by
    intro r hr b hb
    rcases hmem.mp hr with rfl | ⟨hr, -⟩
    · rcases List.mem_append.mp hb with hb | hb
      · exact .inr ⟨q, hqm, rfl, hb⟩
      · exact .inl ⟨List.mem_singleton.mp hb, rfl⟩
    · exact .inr ⟨r, hr, rfl, hb⟩
  constructor
  case pids => exact Core.nodup_setQueue h.pids hk rfl
  case size => simpa [World.onAdd] using h.size
  case home => exact fun rq' hph => h.home_setQueue hk rfl (hbusy hph)
  case live => exact fun rq' b hph => h.live rq' b (hbusy hph)
  case unique => exact fun r r' b hr hr' => h.unique r r' b (hbusy hr) (hbusy hr')
  case linked =>
    intro r hr b hb
    rcases hold r hr b hb with ⟨rfl, hpid⟩ | ⟨r₀, hr₀, hpid, hb₀⟩
    · exact ⟨rq, by simp [World.onAdd, sfqr], Function.update_self .., h1, how.symm.trans hpid.symm⟩
    · obtain ⟨rq', hrq, hph, hpr, hown⟩ := h.linked r₀ hr₀ b hb₀
      have hne : rq' ≠ rq := by rintro rfl; simp [hs] at hph
      exact ⟨rq', (congrArg SfqRequest.rq (hpool hr₀ hb₀)).trans hrq, (hphase hne).trans hph, hpr, hown.trans hpid⟩
  case nodup =>
    intro r hr
    rcases hmem.mp hr with rfl | ⟨hr, -⟩
    · have ha : a ∉ q.queue := fun ha => hfree q hqm a ha rfl
      exact (List.nodup_append.mpr ⟨h.nodup q hqm, List.nodup_singleton a, by
        intro b hb b' hb' he
        exact ha (List.mem_singleton.mp hb' ▸ he ▸ hb)⟩)
    · exact h.nodup r hr
  case waits =>
    intro rq' hph
    rcases eq_or_ne rq' rq with rfl | hne
    · exact ⟨q', hmem.mpr (.inl rfl), a, by simp [q'], by simp [World.onAdd, sfqr]⟩
    · rw [hphase hne] at hph
      obtain ⟨r, hr, b, hb, hp⟩ := h.waits rq' hph
      have hp' : (Function.update w.elv.pool a sfqr b).rq = some rq' := by rw [hpool hr hb, hp]
      by_cases hpid : r.pid = q.pid
      · obtain rfl : r = q := List.inj_on_of_nodup_map h.pids hr hqm hpid
        exact ⟨q', hmem.mpr (.inl rfl), b, by simp [q', hb], hp'⟩
      · exact ⟨r, hmem.mpr (.inr ⟨hr, hpid⟩), b, hb, hp'⟩
  case outstanding => exact h.outstanding_update .added (by simp [hs]) (by decide)
  case count =>
    have hload := Core.load_setQueue hk q'
    have hlen : q'.queue.length = q.queue.length + 1 := by simp [q']
    have hc := h.count
    change w.elv.sfqrSize + 1 = (w.elv.setQueue (k + 1) q').load + w.elv.depth
    omega
  case fifo =>
    intro p
    rw [World.addedBy_onAdd, h.fifo p, List.append_assoc, ← how]
    congr 1
    refine (Core.waiting_append h.pids hk (by rfl) (fun r hr b hb => ?_) ?_ p).symm
    · exact congrArg SfqRequest.rq (hpool hr hb)
    · show (Function.update w.elv.pool a sfqr a).rq = some rq
      rw [Function.update_self]
  case sorted =>
    have hold : ∀ r ∈ w.elv.queue, r.queue.Pairwise fun b b' =>
        (Function.update w.elv.pool a sfqr b).startTag ≤
          (Function.update w.elv.pool a sfqr b').startTag := by
      intro r hr
      refine (h.sorted r hr).imp_of_mem fun hb hb' hle => ?_
      rwa [hpool hr hb, hpool hr hb']
    intro r hr
    rcases hmem.mp hr with rfl | ⟨hr, -⟩
    · refine List.pairwise_append.mpr ⟨hold q hqm, List.pairwise_singleton _ _, ?_⟩
      intro b hb b' hb'
      obtain rfl := List.mem_singleton.mp hb'
      have hle := h.recent q hqm b hb
      simp only [World.onAdd, hpool hqm hb, Function.update_self, sfqr]
      omega
    · exact hold r hr
  case recent =>
    intro r hr b hb
    rcases hold r hr b hb with ⟨rfl, -⟩ | ⟨r₀, hr₀, -, hb₀⟩
    · simp [World.onAdd, sfqr]
    · have hle := h.recent r₀ hr₀ b hb₀
      simp only [World.onAdd, hpool hr₀ hb₀]
      omega

theorem serve (h : CoreInv w) {rest : List Addr} (hk : w.elv.queue[k]? = some q)
    (hq : q.queue = a :: rest) (hrq : (w.elv.pool a).rq = some rq) :
    CoreInv (w.onDispatch
      { w.elv.setQueue (k + 1) { q with queue := rest } with depth := w.elv.depth + 1 } (some rq)) := by
  have hqm : q ∈ w.elv.queue := List.mem_of_getElem? hk
  have haq : a ∈ q.queue := by simp [hq]
  have hnd := h.nodup q hqm
  rw [hq, List.nodup_cons] at hnd
  have hsub : ∀ b ∈ rest, b ∈ q.queue := by intro b hb; simp [hq, hb]
  obtain ⟨hph, hpr, how⟩ : w.phase rq = .added ∧ w.elv.priv1 rq = some a ∧ w.owner rq = q.pid := by
    obtain ⟨rq', hrq', hrest⟩ := h.linked q hqm a haq
    obtain rfl : rq' = rq := by simpa [hrq] using hrq'.symm
    exact hrest
  set q' : SfqQueue := { q with queue := rest } with hq'
  set c : Core := { w.elv.setQueue (k + 1) q' with depth := w.elv.depth + 1 } with hcdef
  have hmem {r : SfqQueue} : r ∈ c.queue ↔ r = q' ∨ r ∈ w.elv.queue ∧ r.pid ≠ q.pid :=
    Core.mem_setQueue h.pids hk
  have hphase {rq' : Rq} (hr : rq' ≠ rq) : (w.onDispatch c (some rq)).phase rq' = w.phase rq' :=
    Function.update_of_ne hr _ _
  have hbusy {rq' : Rq} (hp : (w.onDispatch c (some rq)).phase rq' ≠ .idle) : w.phase rq' ≠ .idle :=
    World.busy_of_update (by simp [hph]) hp
  -- what is linked now was linked before, in a queue of the same process, and is not `a`
  have hold : ∀ r ∈ c.queue, ∀ b ∈ r.queue, ∃ r₀ ∈ w.elv.queue, r₀.pid = r.pid ∧ b ∈ r₀.queue ∧ b ≠ a := by
    intro r hr b hb
    rcases hmem.mp hr with rfl | ⟨hr, hne⟩
    · exact ⟨q, hqm, rfl, hsub b hb, fun he => hnd.1 (he ▸ hb)⟩
    · refine ⟨r, hr, rfl, hb, ?_⟩
      rintro rfl
      exact hne ((h.linked_of_priv1 hr hb (by simp [hph]) hpr).2.2.symm.trans how)
  constructor
  case pids => exact Core.nodup_setQueue h.pids hk rfl
  case size => simpa [World.onDispatch, c] using h.size
  case home => exact fun rq' hp => h.home_setQueue hk rfl (hbusy hp)
  case live => exact fun rq' b hp => h.live rq' b (hbusy hp)
  case unique => exact fun r r' b hr hr' => h.unique r r' b (hbusy hr) (hbusy hr')
  case linked =>
    intro r hr b hb
    obtain ⟨r₀, hr₀, hpid, hb₀, hne⟩ := hold r hr b hb
    obtain ⟨rq', hrq', hph', hpr', hown⟩ := h.linked r₀ hr₀ b hb₀
    have hrne : rq' ≠ rq := by
      rintro rfl
      exact hne (by simpa [hpr] using hpr'.symm)
    exact ⟨rq', hrq', by rw [hphase hrne, hph'], hpr', hown.trans hpid⟩
  case nodup =>
    intro r hr
    rcases hmem.mp hr with rfl | ⟨hr, -⟩
    · exact hnd.2
    · exact h.nodup r hr
  case waits =>
    intro rq' hp
    obtain ⟨hrne, hp⟩ := World.phase_of_update (by decide) hp
    obtain ⟨r, hr, b, hb, hpool⟩ := h.waits rq' hp
    by_cases hpid : r.pid = q.pid
    · obtain rfl : r = q := List.inj_on_of_nodup_map h.pids hr hqm hpid
      rw [hq] at hb
      rcases List.mem_cons.mp hb with rfl | hb
      · exact absurd (by simpa [hrq] using hpool.symm) hrne
      · exact ⟨q', hmem.mpr (.inl rfl), b, hb, hpool⟩
    · exact ⟨r, hmem.mpr (.inr ⟨hr, hpid⟩), b, hb, hpool⟩
  case outstanding =>
    obtain ⟨F, hF, hd⟩ := h.outstanding
    refine ⟨insert rq F, fun rq' => ?_, ?_⟩
    · rw [Finset.mem_insert, hF]
      rcases eq_or_ne rq' rq with rfl | hr
      · simp [World.onDispatch]
      · rw [hphase hr]
        simp [hr]
    · have hnot : rq ∉ F := by rw [hF]; simp [hph]
      rw [Finset.card_insert_of_notMem hnot]
      simp only [World.onDispatch, c]
      omega
  case count =>
    have hload := Core.load_setQueue hk q'
    have hlen : q.queue.length = q'.queue.length + 1 := by simp [hq, q']
    have hc := h.count
    change w.elv.sfqrSize = (w.elv.setQueue (k + 1) q').load + (w.elv.depth + 1)
    omega
  case fifo =>
    intro p
    rw [World.dispatchedBy_onDispatch, List.append_assoc, how]
    exact (h.fifo p).trans (congrArg _ (Core.waiting_tail h.pids hk hq rfl rfl hrq p))
  case sorted =>
    intro r hr
    rcases hmem.mp hr with rfl | ⟨hr, -⟩
    · have := h.sorted q hqm
      rw [hq] at this
      exact (List.pairwise_cons.mp this).2
    · exact h.sorted r hr
  case recent =>
    intro r hr b hb
    obtain ⟨r₀, hr₀, -, hb₀, -⟩ := hold r hr b hb
    exact h.recent r₀ hr₀ b hb₀

/-- The invariant survives every step, whichever queue a dispatch serves. -/
theorem step {wrap : Int → Int} {w' : World Core} (h : CoreInv w) (hs : CoreStep wrap w w') :
    CoreInv w' := by
  cases hs with
  | skip => exact h
  | set rq pid sfqr hi hf =>
    obtain ⟨k, q, hk, hq, hpid, -⟩ := w.elv.register_spec pid
    have hlive : ∀ a, sfqr = some a → (w.elv.register pid).2.live a = false := by
      intro a ha
      unfold Core.register
      split <;> exact hf a ha
    have : CoreInv (w.onSet ((w.elv.register pid).2.allocSfqr rq (k + 1) sfqr) rq pid) :=
      (h.register pid).alloc hi hlive hq hpid
    rwa [← hk] at this
  | add rq hs hc => exact h.add hs hc
  | serve hk hq hrq => exact h.serve hk hq hrq
  | complete rq hd => exact h.complete hd
  | put rq junk hs => exact h.put hs

/-- Processes stay registered, in their places. -/
theorem pids_step {wrap : Int → Int} {w' : World Core} (h : CoreInv w) (hs : CoreStep wrap w w') :
    ∃ l, w'.elv.queue.map SfqQueue.pid = w.elv.queue.map SfqQueue.pid ++ l := by
  cases hs with
  | skip => exact ⟨[], (List.append_nil _).symm⟩
  | set rq pid sfqr hi hf =>
    obtain ⟨-, -, -, -, -, he | ⟨he, -⟩⟩ := w.elv.register_spec pid
    · exact ⟨[], by simp [World.onSet, he]⟩
    · exact ⟨[pid], by simp [World.onSet, he, Core.newQueue]⟩
  | add rq hs hc =>
    obtain ⟨k, q, h0, hk, -⟩ := h.home rq (by simp [hs])
    obtain ⟨a, -, rfl⟩ := addRequest_eq h0 hk hc
    exact ⟨[], by rw [List.append_nil]; exact Core.pids_setQueue hk rfl⟩
  | serve hk hq hrq => exact ⟨[], by rw [List.append_nil]; exact Core.pids_setQueue hk rfl⟩
  | complete rq hd => exact ⟨[], (List.append_nil _).symm⟩
  | put rq junk hs =>
    refine ⟨[], ?_⟩
    simp only [World.onPut, Core.put, List.append_nil]
    split <;> rfl

end CoreInv
end SsdScheduler.Sfq
