import SsdScheduler.Deadline.DeadlineExample

/-!
# The pending requests of `deadline_example.c`

The FIFO list and the tree of a direction hold the same requests. Whatever way a dispatch takes, it moves
one pending request to the dispatch queue and points `next_rq` at the node behind it.
-/

namespace SsdScheduler.DeadlineExample

open Framework

variable {request : Rq → Request}

/-- The two views of the pending requests and the cached pointers into them agree. -/
structure Views (request : Rq → Request) (sortList fifoList : Dir → List Rq) (nextRq : Dir → Option Rq) : Prop where
  perm : ∀ d, (fifoList d).Perm (sortList d)
  nodup : ∀ d, (fifoList d).Nodup
  sorted : ∀ d, SortedList.Sorted (fun rq => (request rq).sector) (sortList d)
  dirs : ∀ d, ∀ rq ∈ fifoList d, (request rq).dataDir = d
  next : ∀ d, ∀ rq ∈ nextRq d, rq ∈ fifoList d
  one : nextRq .read = none ∨ nextRq .write = none

/-- The queue once `rq` has moved to the dispatch queue. -/
def moved (request : Rq → Request) (q : RequestQueue) (rq : Rq) (batching starved : Nat) : RequestQueue :=
  let d := (request rq).dataDir
  { q with
    dd := { q.dd with
      sortList := Function.update q.dd.sortList d ((q.dd.sortList d).erase rq)
      fifoList := Function.update q.dd.fifoList d ((q.dd.fifoList d).erase rq)
      nextRq := Function.update (fun _ => none) d (SortedList.next rq (q.dd.sortList d))
      batching := batching
      starved := starved }
    queueHead := q.queueHead ++ [rq] }

/-- The ways to the section `dispatch_request`: the request taken, `batching` and `starved` afterwards. -/
inductive Route (dd : DeadlineData) : Rq → Nat → Nat → Prop
  | batch {d : Dir} {rq : Rq} (hn : dd.nextRq d = some rq) (hb : dd.batching < dd.fifoBatch) :
      Route dd rq (dd.batching + 1) dd.starved
  | reads {rq : Rq} (hb : ∀ d, dd.nextRq d ≠ none → dd.fifoBatch ≤ dd.batching) (hr : rq ∈ dd.fifoList .read)
      (hw : dd.fifoList .write ≠ [] → dd.starved < dd.writesStarved) :
      Route dd rq 1 (if dd.fifoList .write ≠ [] then dd.starved + 1 else dd.starved)
  | writes {rq : Rq} (hb : ∀ d, dd.nextRq d ≠ none → dd.fifoBatch ≤ dd.batching) (hw : rq ∈ dd.fifoList .write)
      (hr : dd.fifoList .read ≠ [] → dd.writesStarved ≤ dd.starved) : Route dd rq 1 0

section Step

variable {q : RequestQueue} {rq : Rq} {d : Dir} {batching starved : Nat}

theorem deadlineDelRqRb_eq {dd : DeadlineData} (h : rq ∈ dd.sortList (request rq).dataDir)
    (hnext : dd.nextRq (request rq).dataDir = deadlineLatterRequest request dd rq) :
    deadlineDelRqRb request dd rq = some { dd with
      sortList := Function.update dd.sortList (request rq).dataDir ((dd.sortList (request rq).dataDir).erase rq) } := by
  dsimp only [deadlineDelRqRb]
  rw [← hnext, Function.update_eq_self, ite_self]
  exact if_pos h

theorem deadlineMoveRequest_eq (h : rq ∈ q.dd.sortList (request rq).dataDir) :
    deadlineMoveRequest request q rq = some (moved request q rq q.dd.batching q.dd.starved) := by
  dsimp only [deadlineMoveRequest, deadlineMoveToDispatch]
  rw [deadlineDelRqRb_eq]
  · rfl
  · exact h
  · simp [deadlineLatterRequest]

theorem dispatchRequest_eq (h : rq ∈ q.dd.sortList (request rq).dataDir) :
    dispatchRequest request q rq =
      some (⟨0, some rq, false⟩, moved request q rq (q.dd.batching + 1) q.dd.starved) := by
  have hmove := deadlineMoveRequest_eq (q := { q with dd := { q.dd with batching := q.dd.batching + 1 } }) h
  simp [dispatchRequest, hmove, moved]

namespace Views

theorem mem_tree (h : Views request q.dd.sortList q.dd.fifoList q.dd.nextRq) (hrq : rq ∈ q.dd.fifoList d) :
    rq ∈ q.dd.sortList (request rq).dataDir := by
  rw [h.dirs d rq hrq]
  exact (h.perm d).mem_iff.mp hrq

theorem tree_ne (h : Views request q.dd.sortList q.dd.fifoList q.dd.nextRq) (hd : q.dd.fifoList d ≠ []) :
    q.dd.sortList d ≠ [] := by
  intro hn
  have hp := h.perm d
  rw [hn] at hp
  exact hd hp.eq_nil

/-- The section finds the head of the FIFO list or the cached request. -/
theorem dispatchFindRequest_eq (h : Views request q.dd.sortList q.dd.fifoList q.dd.nextRq)
    (hd : q.dd.fifoList d ≠ []) (jiffies : Jiffies) :
    ∃ rq ∈ q.dd.fifoList d, dispatchFindRequest request jiffies q d =
      some (⟨0, some rq, false⟩, moved request q rq 1 q.dd.starved) := by
  obtain ⟨first, hfirst⟩ : ∃ first, (q.dd.fifoList d).head? = some first :=
    Option.ne_none_iff_exists'.mp fun hn => hd (List.head?_eq_none_iff.mp hn)
  have hcheck : deadlineCheckFifo jiffies q d = some (timeAfterEq jiffies (q.fifoTime first)) := by
    simp [deadlineCheckFifo, hfirst]
  have hdispatch : ∀ rq ∈ q.dd.fifoList d,
      dispatchRequest request { q with dd := { q.dd with batching := 0 } } rq =
        some (⟨0, some rq, false⟩, moved request q rq 1 q.dd.starved) :=
    fun rq hrq => dispatchRequest_eq (q := { q with dd := { q.dd with batching := 0 } }) (h.mem_tree hrq)
  simp only [dispatchFindRequest, hcheck, Option.bind_eq_bind, Option.bind_some]
  split
  case isTrue =>
    have hmem : first ∈ q.dd.fifoList d := List.mem_of_mem_head? hfirst
    exact ⟨first, hmem, by simp [hfirst, hdispatch first hmem]⟩
  case isFalse hcached =>
    obtain ⟨rq, hrq⟩ : ∃ rq, q.dd.nextRq d = some rq :=
      Option.ne_none_iff_exists'.mp fun hn => hcached (.inr hn)
    have hmem : rq ∈ q.dd.fifoList d := h.next d rq hrq
    exact ⟨rq, hmem, by simp [hrq, hdispatch rq hmem]⟩

theorem dispatchWrites_eq (h : Views request q.dd.sortList q.dd.fifoList q.dd.nextRq)
    (hw : q.dd.fifoList .write ≠ []) (jiffies : Jiffies) :
    ∃ rq ∈ q.dd.fifoList .write, dispatchWrites request jiffies q =
      some (⟨0, some rq, false⟩, moved request q rq 1 0) := by
  have h0 : Views request q.dd.sortList q.dd.fifoList q.dd.nextRq := h
  obtain ⟨rq, hrq, he⟩ :=
    dispatchFindRequest_eq (q := { q with dd := { q.dd with starved := 0 } }) h0 hw jiffies
  refine ⟨rq, hrq, ?_⟩
  rw [dispatchWrites, if_neg (h.tree_ne hw)]
  exact he

theorem selectDirection_eq (h : Views request q.dd.sortList q.dd.fifoList q.dd.nextRq)
    (hb : ∀ d, q.dd.nextRq d ≠ none → q.dd.fifoBatch ≤ q.dd.batching) (hp : Pending q) (jiffies : Jiffies) :
    ∃ rq b s, Route q.dd rq b s ∧
      selectDirection request jiffies q = some (⟨0, some rq, false⟩, moved request q rq b s) := by
  unfold selectDirection
  by_cases hr : q.dd.fifoList .read = []
  · have hw : q.dd.fifoList .write ≠ [] := by
      obtain ⟨d, hd⟩ := hp
      cases d with
      | read => exact absurd hr hd
      | write => exact hd
    obtain ⟨rq, hrq, he⟩ := h.dispatchWrites_eq hw jiffies
    exact ⟨rq, 1, 0, .writes hb hrq (absurd hr), by simp [hr, hw, he]⟩
  · have hroot := h.tree_ne hr
    by_cases hw : q.dd.fifoList .write = []
    · obtain ⟨rq, hrq, he⟩ := h.dispatchFindRequest_eq hr jiffies
      have hroute := Route.reads hb hrq (absurd hw)
      rw [if_neg (not_not.mpr hw)] at hroute
      exact ⟨rq, 1, q.dd.starved, hroute, by simp [hr, hw, hroot, he]⟩
    · by_cases hs : q.dd.writesStarved ≤ q.dd.starved
      · obtain ⟨rq, hrq, he⟩ := dispatchWrites_eq
          (q := { q with dd := { q.dd with starved := q.dd.starved + 1 } }) h hw jiffies
        refine ⟨rq, 1, 0, .writes hb hrq fun _ => hs, ?_⟩
        simp only [hr, hw, hroot, hs, ne_eq, not_false_eq_true, if_true, if_false]
        exact he
      · obtain ⟨rq, hrq, he⟩ := dispatchFindRequest_eq
          (q := { q with dd := { q.dd with starved := q.dd.starved + 1 } }) h hr jiffies
        have hroute := Route.reads hb hrq fun _ => not_le.mp hs
        rw [if_pos hw] at hroute
        refine ⟨rq, 1, q.dd.starved + 1, hroute, ?_⟩
        simp only [hr, hw, hroot, hs, ne_eq, not_false_eq_true, if_true, if_false]
        exact he

/-- While a request is pending a dispatch takes one of the routes, and moves the request it finds. -/
theorem dispatch_eq (h : Views request q.dd.sortList q.dd.fifoList q.dd.nextRq) (hp : Pending q)
    (jiffies : Jiffies) (force : Bool) :
    ∃ rq b s, Route q.dd rq b s ∧
      deadlineDispatchRequests request jiffies q force = some (⟨0, some rq, false⟩, moved request q rq b s) := by
  unfold deadlineDispatchRequests
  generalize hn : (if q.dd.nextRq .write ≠ none then q.dd.nextRq .write else q.dd.nextRq .read) = next
  cases next with
  | none =>
    apply h.selectDirection_eq _ hp
    intro d hd
    by_cases hw : q.dd.nextRq .write = none
    · have hr : q.dd.nextRq .read = none := by simpa [hw] using hn
      cases d with
      | read => exact absurd hr hd
      | write => exact absurd hw hd
    · simp [hw] at hn
  | some rq =>
    obtain ⟨d, hd⟩ : ∃ d, q.dd.nextRq d = some rq := by
      split at hn
      · exact ⟨.write, hn⟩
      · exact ⟨.read, hn⟩
    by_cases hb : q.dd.batching < q.dd.fifoBatch
    · refine ⟨rq, _, _, .batch hd hb, ?_⟩
      simp only [hb, if_true]
      exact dispatchRequest_eq (h.mem_tree (h.next d rq hd))
    · simp only [hb, if_false]
      exact h.selectDirection_eq (fun _ _ => not_lt.mp hb) hp jiffies

end Views

end Step

/-- The settings stay as `deadline_init_queue` leaves them, and the counters stay small. -/
structure Settings (dd : DeadlineData) : Prop where
  fifoBatch : dd.fifoBatch = fifoBatch
  writesStarved : dd.writesStarved = writesStarved
  batching : dd.batching ≤ dd.fifoBatch
  starved : dd.starved ≤ dd.writesStarved

/-- The pending requests of both directions. -/
def pending (q : RequestQueue) : List Rq := q.dd.fifoList .read ++ q.dd.fifoList .write

structure Inv (request : Rq → Request) (x : Experiment) : Prop where
  views : Views request x.queue.dd.sortList x.queue.dd.fifoList x.queue.dd.nextRq
  settings : Settings x.queue.dd
  log : x.added.Perm (x.queue.queueHead ++ pending x.queue)
  nodup : x.added.Nodup

section Steps

variable {q : RequestQueue} {x x' : Experiment} {rq : Rq} {d : Dir} {b s : Nat} {hz : Int} {jiffies : Jiffies}
  {sortList fifoList : Dir → List Rq} {nextRq : Dir → Option Rq}

theorem mem_pending : rq ∈ pending q ↔ ∃ d, rq ∈ q.dd.fifoList d := by
  unfold pending
  rw [List.mem_append]
  constructor
  · intro h
    rcases h with h | h
    · exact ⟨_, h⟩
    · exact ⟨_, h⟩
  · intro ⟨d, h⟩
    cases d with
    | read => exact .inl h
    | write => exact .inr h

theorem Views.empty : Views request (fun _ => []) (fun _ => []) fun _ => none where
  perm _ := .nil
  nodup _ := .nil
  sorted _ := .nil
  dirs _ _ h := nomatch h
  next _ _ h := nomatch h
  one := .inl rfl

/-- Two views that are changed in one direction only still agree. -/
theorem Views.update (h : Views request sortList fifoList nextRq) {tree fifo : List Rq} (hperm : fifo.Perm tree)
    (hnodup : fifo.Nodup) (hsorted : SortedList.Sorted (fun rq => (request rq).sector) tree)
    (hdirs : ∀ rq ∈ fifo, (request rq).dataDir = d) {next : Dir → Option Rq}
    (hnext : ∀ d', ∀ rq ∈ next d', rq ∈ Function.update fifoList d fifo d')
    (hone : next .read = none ∨ next .write = none) :
    Views request (Function.update sortList d tree) (Function.update fifoList d fifo) next where
  perm d' := by
    by_cases hd : d' = d
    · subst hd
      simpa using hperm
    · simpa [hd] using h.perm d'
  nodup := (Function.forall_update_iff fifoList fun _ l => l.Nodup).mpr ⟨hnodup, fun d' _ => h.nodup d'⟩
  sorted := (Function.forall_update_iff sortList fun _ l => SortedList.Sorted _ l).mpr
    ⟨hsorted, fun d' _ => h.sorted d'⟩
  dirs := (Function.forall_update_iff fifoList fun d' l => ∀ rq ∈ l, (request rq).dataDir = d').mpr
    ⟨hdirs, fun d' _ => h.dirs d'⟩
  next := hnext
  one := hone

/-- A new request joins both views of its direction. -/
theorem Views.add (h : Views request sortList fifoList nextRq) (hd : (request rq).dataDir = d)
    (hnew : rq ∉ fifoList d) :
    Views request
      (Function.update sortList d (SortedList.insert (fun rq => (request rq).sector) rq (sortList d)))
      (Function.update fifoList d (fifoList d ++ [rq])) nextRq := by
  have hfifo : (fifoList d ++ [rq]).Perm (rq :: fifoList d) := List.perm_append_singleton rq _
  apply h.update
  · exact hfifo.trans (((h.perm d).cons rq).trans (SortedList.insert_perm _ rq _).symm)
  · exact hfifo.nodup_iff.mpr (List.nodup_cons.mpr ⟨hnew, h.nodup d⟩)
  · exact (h.sorted d).insert rq
  · intro r hr
    rcases List.mem_cons.mp (hfifo.mem_iff.mp hr) with rfl | hr
    · exact hd
    · exact h.dirs d r hr
  · intro d' r hr
    have hold := h.next d' r hr
    by_cases hdd : d' = d
    · subst hdd
      simp [hold]
    · simpa [hdd] using hold
  · exact h.one

/-- A pending request leaves both views, and the cached pointer is the node behind it. -/
theorem Views.move (h : Views request sortList fifoList nextRq) (rq : Rq) (d : Dir) :
    Views request (Function.update sortList d ((sortList d).erase rq))
      (Function.update fifoList d ((fifoList d).erase rq))
      (Function.update (fun _ => none) d (SortedList.next rq (sortList d))) := by
  apply h.update
  · exact (h.perm d).erase rq
  · exact (h.nodup d).erase rq
  · exact (h.sorted d).erase rq
  · exact fun r hr => h.dirs d r (List.mem_of_mem_erase hr)
  · intro d' r hr
    by_cases hdd : d' = d
    · subst hdd
      rw [Function.update_self] at hr ⊢
      have htree : r ∈ (sortList d').erase rq :=
        SortedList.mem_erase_of_next ((h.perm d').nodup_iff.mp (h.nodup d')) hr
      exact ((h.perm d').erase rq).mem_iff.mpr htree
    · simp [hdd] at hr
  · cases d with
    | read => exact .inr (Function.update_of_ne (by decide) _ _)
    | write => exact .inl (Function.update_of_ne (by decide) _ _)

/-- Every route leads to a pending request. -/
theorem Route.mem (hroute : Route q.dd rq b s) (h : Views request q.dd.sortList q.dd.fifoList q.dd.nextRq) :
    rq ∈ q.dd.fifoList (request rq).dataDir := by
  have hdir : ∀ d, rq ∈ q.dd.fifoList d → rq ∈ q.dd.fifoList (request rq).dataDir := by
    intro d hrq
    rwa [h.dirs d rq hrq]
  cases hroute with
  | batch hn hb => exact hdir _ (h.next _ rq hn)
  | reads hb hr hw => exact hdir _ hr
  | writes hb hw hr => exact hdir _ hw

theorem Route.settings (hroute : Route q.dd rq b s) (h : Settings q.dd) : Settings (moved request q rq b s).dd where
  fifoBatch := h.fifoBatch
  writesStarved := h.writesStarved
  batching := by
    have hone : 1 ≤ q.dd.fifoBatch := by
      rw [h.fifoBatch]
      decide
    cases hroute with
    | batch hn hb => exact hb
    | reads hb hr hw => exact hone
    | writes hb hw hr => exact hone
  starved := by
    have hle := h.starved
    cases hroute with
    | batch hn hb => exact hle
    | reads hb hr hw =>
      change (if q.dd.fifoList .write ≠ [] then q.dd.starved + 1 else q.dd.starved) ≤ q.dd.writesStarved
      split
      case isTrue hne => exact hw hne
      case isFalse => exact hle
    | writes hb hw hr => exact Nat.zero_le _

theorem pending_moved (hrq : rq ∈ q.dd.fifoList (request rq).dataDir) :
    (pending q).Perm (rq :: pending (moved request q rq b s)) := by
  unfold pending moved
  generalize (request rq).dataDir = d at *
  have hperm := List.perm_cons_erase hrq
  cases d with
  | read => simpa using hperm.append_right (q.dd.fifoList .write)
  | write => simpa using (hperm.append_left (q.dd.fifoList .read)).trans List.perm_middle

theorem pending_add (jiffies : Jiffies) :
    (pending (deadlineAddRequest request jiffies q rq)).Perm (pending q ++ [rq]) := by
  unfold pending deadlineAddRequest deadlineAddRqRb
  have hback : (rq :: q.dd.fifoList .write).Perm (q.dd.fifoList .write ++ [rq]) :=
    (List.perm_append_singleton rq _).symm
  cases (request rq).dataDir with
  | read => simpa using hback.append_left (q.dd.fifoList .read)
  | write => simp

theorem Inv.add (h : Inv request x) (hnew : rq ∉ x.added) :
    Inv request ⟨deadlineAddRequest request jiffies x.queue rq, x.added ++ [rq]⟩ where
  views := by
    apply h.views.add rfl
    intro hrq
    apply hnew
    rw [h.log.mem_iff, List.mem_append]
    exact .inr (mem_pending.mpr ⟨_, hrq⟩)
  settings := ⟨h.settings.fifoBatch, h.settings.writesStarved, h.settings.batching, h.settings.starved⟩
  log := by
    have hlog := h.log.append_right [rq]
    rw [List.append_assoc] at hlog
    exact hlog.trans ((pending_add jiffies).symm.append_left _)
  nodup := by
    have hperm : (x.added ++ [rq]).Perm (rq :: x.added) := List.perm_append_singleton rq _
    exact hperm.nodup_iff.mpr (List.nodup_cons.mpr ⟨hnew, h.nodup⟩)

theorem Inv.move (h : Inv request x) (hroute : Route x.queue.dd rq b s) :
    Inv request { x with queue := moved request x.queue rq b s } where
  views := h.views.move rq _
  settings := hroute.settings h.settings
  log := by
    have hpending : (pending x.queue).Perm (rq :: pending (moved request x.queue rq b s)) :=
      pending_moved (hroute.mem h.views)
    have hsplit := h.log.trans (hpending.append_left x.queue.queueHead)
    exact hsplit.trans (by simp [moved])
  nodup := h.nodup

/-- While a request is pending, a dispatch moves one by one of the routes. -/
theorem Inv.dispatch (h : Inv request x) (hp : Pending x.queue) (jiffies : Jiffies) (force : Bool) :
    ∃ rq b s, Route x.queue.dd rq b s ∧ (elevator request).step x (.dispatch jiffies force) =
      some (⟨0, some rq, false⟩, { x with queue := moved request x.queue rq b s }) := by
  obtain ⟨rq, b, s, hroute, hd⟩ := h.views.dispatch_eq hp jiffies force
  exact ⟨rq, b, s, hroute, by simp [elevator, hd]⟩

end Steps

section Idle

variable {x x' : Experiment} {o : Out} {c : ElevatorCall} {hz : Int}

/-- With no request pending `data_dir` is never set. -/
theorem Inv.idle (h : Inv request x) (hp : ¬ Pending x.queue) (jiffies : Jiffies) (force : Bool) :
    deadlineDispatchRequests request jiffies x.queue force = none := by
  have hempty : ∀ d, x.queue.dd.fifoList d = [] := by
    intro d
    by_contra hd
    exact hp ⟨d, hd⟩
  have hnext : ∀ d, x.queue.dd.nextRq d = none := by
    intro d
    by_contra hd
    obtain ⟨rq, hrq⟩ := Option.ne_none_iff_exists'.mp hd
    have hmem := h.views.next d rq hrq
    simp [hempty d] at hmem
  simp [deadlineDispatchRequests, selectDirection, hempty, hnext]

theorem Inv.step (h : Inv request x) (hl : (elevator request).legal x c)
    (hs : (elevator request).step x c = some (o, x')) : Inv request x' := by
  cases c with
  | addRequest jiffies rq =>
    obtain ⟨-, rfl⟩ := Prod.mk.inj (Option.some.inj hs)
    exact h.add hl
  | dispatch jiffies force =>
    by_cases hp : Pending x.queue
    · obtain ⟨rq, b, s, hroute, hd⟩ := h.dispatch hp jiffies force
      obtain ⟨-, rfl⟩ := Prod.mk.inj (Option.some.inj (hd.symm.trans hs))
      exact h.move hroute
    · simp [elevator, h.idle hp jiffies force] at hs

theorem Inv.of_reachable (h : Reachable request hz x) : Inv request x := by
  apply Machine.Reachable.invariant h
  · intro x c o x' hx hl hs
    exact hx.step hl hs
  · exact ⟨.empty, ⟨rfl, rfl, Nat.zero_le _, Nat.zero_le _⟩, .nil, .nil⟩

/-- In every run the two views of the pending requests and the cached pointers agree, no call runs into a
`BUG_ON`, and a dispatch with a request pending moves exactly one; what was added is in the dispatch queue
or pending. -/
theorem views_agree (h : Reachable request hz x) :
    (∀ d, (x.queue.dd.fifoList d).Perm (x.queue.dd.sortList d) ∧ (x.queue.dd.fifoList d).Nodup ∧
        SortedList.Sorted (fun rq => (request rq).sector) (x.queue.dd.sortList d) ∧
        ∀ rq ∈ x.queue.dd.fifoList d, (request rq).dataDir = d) ∧
      (x.queue.dd.nextRq .read = none ∨ x.queue.dd.nextRq .write = none) ∧
      (∀ d, ∀ rq ∈ x.queue.dd.nextRq d, rq ∈ x.queue.dd.fifoList d) ∧
      (∀ jiffies rq, rq ∉ x.added → ∃ x', (elevator request).step x (.addRequest jiffies rq) = some (.quiet false, x') ∧
        (pending x'.queue).Perm (rq :: pending x.queue)) ∧
      (∀ jiffies force, Pending x.queue → ∃ rq x', rq ∈ pending x.queue ∧
        (elevator request).step x (.dispatch jiffies force) = some (⟨0, some rq, false⟩, x') ∧
        x'.queue.queueHead = x.queue.queueHead ++ [rq] ∧ (pending x.queue).Perm (rq :: pending x'.queue)) ∧
      x.added.Perm (x.queue.queueHead ++ pending x.queue) ∧ x.added.Nodup := by
  have hinv := Inv.of_reachable h
  have hviews := hinv.views
  refine ⟨fun d => ⟨hviews.perm d, hviews.nodup d, hviews.sorted d, hviews.dirs d⟩, hviews.one, hviews.next, ?_, ?_,
    hinv.log, hinv.nodup⟩
  · intro jiffies rq hnew
    exact ⟨_, rfl, (pending_add jiffies).trans (List.perm_append_singleton rq _)⟩
  · intro jiffies force hp
    obtain ⟨rq, b, s, hroute, hd⟩ := hinv.dispatch hp jiffies force
    have hmem := hroute.mem hviews
    exact ⟨rq, _, mem_pending.mpr ⟨_, hmem⟩, hd, rfl, pending_moved hmem⟩

end Idle

/-- Odd requests are reads; sectors descend. -/
private def parity (rq : Rq) : Request := ⟨if rq % 2 = 1 then .read else .write, 100 - rq⟩

theorem views_agree_three :
    ∃ x, Reachable parity 250 x ∧ x.queue.queueHead = [1] ∧ x.queue.dd.fifoList .read = [3] ∧
      x.queue.dd.fifoList .write = [2] ∧ x.added.Perm (x.queue.queueHead ++ pending x.queue) := by
  have hplay : (elevator parity).Plays (init 250)
      [.addRequest 0 1, .addRequest 7 2, .addRequest 9 3, .dispatch 10 false] fun _ x =>
        x.queue.queueHead = [1] ∧ x.queue.dd.fifoList .read = [3] ∧ x.queue.dd.fifoList .write = [2] := by decide
  obtain ⟨tr, x, hr, -, hhead, hread, hwrite⟩ := hplay.exists_run
  obtain ⟨-, -, -, -, -, hlog, -⟩ := views_agree ⟨tr, hr⟩
  exact ⟨x, ⟨tr, hr⟩, hhead, hread, hwrite, hlog⟩


end SsdScheduler.DeadlineExample
