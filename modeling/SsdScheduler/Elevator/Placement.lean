import SsdScheduler.Elevator.MergeHash
import SsdScheduler.Elevator.Protocol

/-!
# Where the requests are

In every state a request is in exactly the list its place says, its phase in the scheduler's world and its flags
are those of the place, and the hash table and `last_merge` lead only to requests that wait. `Placed` is this
invariant without the scheduler; there is one lemma for every way in which the elevator core moves a request.
-/

namespace SsdScheduler.Elevator

open Framework RequestQueue

/-- The phase in which the scheduler sees a request. -/
def Place.phase (r : Request) : Place → Phase
  | .free => .idle
  | .held | .arriving => if r.elvpriv then .set else .idle
  | .waiting => .added
  | .queued | .driving => if r.sorted then .dispatched else if r.elvpriv then .set else .idle
  | .ended => if r.sorted then .completed else if r.elvpriv then .set else .idle

/-- The flags of a request at a place. -/
structure Flags (p : Place) (r : Request) : Prop where
  held : p = .held → r.Fresh
  arriving : p = .arriving → r.sorted = false ∧ r.softbarrier = true
  waiting : p = .waiting → r.sorted = true ∧ r.started = false ∧ r.softbarrier = false
  driving : p = .driving → r.started = true
  hashed : r.hashed = true → p = .waiting
  sorted : r.sorted = true → r.fs = true ∧ r.elvpriv = true

variable {σ α π Bio : Type} {e : ElevatorType σ α π} {k : BlkOps Bio} {s s' : Stack σ} {rq next x : Rq} {merging : Bool}

/-- At a place that asks nothing of a request. -/
theorem Flags.idle {p : Place} {r : Request} (hp : p = .free ∨ p = .queued ∨ p = .ended) (hh : r.hashed = false)
    (hs : r.sorted = true → r.fs = true ∧ r.elvpriv = true) : Flags p r := by
  have hne : p ≠ .held ∧ p ≠ .arriving ∧ p ≠ .waiting ∧ p ≠ .driving := by
    rcases hp with rfl | rfl | rfl <;> decide
  exact ⟨fun h => absurd h hne.1, fun h => absurd h hne.2.1, fun h => absurd h hne.2.2.1, fun h => absurd h hne.2.2.2,
    by simp [hh], hs⟩

/-- What is known of one request. -/
structure Located (k : BlkOps Bio) (s : Stack σ) (x : Rq) : Prop where
  waiting : x ∈ s.waiting ↔ s.place x = .waiting
  queued : x ∈ s.queue.queueHead ↔ s.place x = .queued
  driving : x ∈ s.driving ↔ s.place x = .driving
  phase : s.world.phase x = (s.place x).phase (s.queue.rqs x)
  flags : Flags (s.place x) (s.queue.rqs x)
  mergeable : s.place x = .waiting → k.mergeable (s.queue.rqs x) = true → (s.queue.rqs x).hashed = true
  last : s.queue.lastMerge = some x → s.place x = .waiting

/-- A request that counts in `in_flight[i]`. -/
def flies (k : BlkOps Bio) (i : Bool) (r : Request) : Bool := k.account r && r.isSync == i

/-- The requests the driver has taken and that count in `in_flight[i]`. -/
def flights (k : BlkOps Bio) (s : Stack σ) (i : Bool) : Nat := s.driving.countP fun x => flies k i (s.queue.rqs x)

/-- Every request is where its place says. -/
structure Arranged (k : BlkOps Bio) (s : Stack σ) : Prop where
  located : ∀ x, Located k s x
  nodupWaiting : s.waiting.Nodup
  nodupQueued : s.queue.queueHead.Nodup
  nodupDriving : s.driving.Nodup
  nrSorted : s.queue.nrSorted = s.waiting.length
  inFlight : ∀ i, s.queue.inFlight i = flights k s i

structure Placed (k : BlkOps Bio) (s : Stack σ) : Prop extends Arranged k s where
  hash : HashOk k s.queue

/-- Nothing that is known of `x` has changed. -/
structure Unmoved (s s' : Stack σ) (x : Rq) : Prop where
  place : s'.place x = s.place x
  rqs : s'.queue.rqs x = s.queue.rqs x
  phase : s'.world.phase x = s.world.phase x
  waiting : x ∈ s'.waiting ↔ x ∈ s.waiting
  queued : x ∈ s'.queue.queueHead ↔ x ∈ s.queue.queueHead
  driving : x ∈ s'.driving ↔ x ∈ s.driving
  last : s'.queue.lastMerge = some x → s.queue.lastMerge = some x

theorem Located.frame (h : Located k s x) (hu : Unmoved s s' x) : Located k s' x where
  waiting := by rw [hu.waiting, hu.place, h.waiting]
  queued := by rw [hu.queued, hu.place, h.queued]
  driving := by rw [hu.driving, hu.place, h.driving]
  phase := by rw [hu.phase, hu.place, hu.rqs, h.phase]
  flags := by
    rw [hu.place, hu.rqs]
    exact h.flags
  mergeable := by
    rw [hu.place, hu.rqs]
    exact h.mergeable
  last hl := by
    rw [hu.place]
    exact h.last (hu.last hl)

/-- The counts of requests in flight see only what the driver has. -/
theorem flights_congr (s s' : Stack σ) (hd : s'.driving = s.driving) (hr : ∀ x ∈ s.driving, s'.queue.rqs x = s.queue.rqs x) (i : Bool) :
    flights k s' i = flights k s i := by
  unfold flights
  rw [hd]
  apply List.countP_congr
  intro x hx
  rw [hr x hx]

section Phases

variable {ops : ElevatorOps σ α Bool π} {w w' : World σ} {o : Out}

theorem phase_setRequest {pid : Pid} {env : α} (hs : ops.machine.step w (.setRequest rq pid env) = some (o, w')) :
    w'.phase = Function.update w.phase rq .set := by
  obtain ⟨d, -, rfl⟩ := ops.step_eq_some.mp hs
  rfl

theorem phase_addRequest (hs : ops.machine.step w (.addRequest rq) = some (o, w')) :
    w'.phase = Function.update w.phase rq .added := by
  obtain ⟨d, -, rfl⟩ := ops.step_eq_some.mp hs
  rfl

theorem phase_completed (hs : ops.machine.step w (.completed rq) = some (o, w')) :
    w'.phase = Function.update w.phase rq .completed := by
  obtain ⟨d, -, rfl⟩ := ops.step_eq_some.mp hs
  rfl

theorem phase_putRequest {env : π} (hs : ops.machine.step w (.putRequest rq env) = some (o, w')) :
    w'.phase = Function.update w.phase rq .idle := by
  obtain ⟨d, -, rfl⟩ := ops.step_eq_some.mp hs
  rfl

theorem phase_dispatch_none {force : Bool} (hs : ops.machine.step w (.dispatch force) = some (o, w'))
    (ho : o.dispatched = none) : w'.phase = w.phase := by
  obtain ⟨d, -, rfl⟩ := ops.step_eq_some.mp hs
  simp [World.after, World.onDispatch, ho]

theorem phase_dispatch_some {force : Bool} (hs : ops.machine.step w (.dispatch force) = some (o, w'))
    (ho : o.dispatched = some rq) : w'.phase = Function.update w.phase rq .dispatched := by
  obtain ⟨d, -, rfl⟩ := ops.step_eq_some.mp hs
  simp [World.after, World.onDispatch, ho]

end Phases

/-- Nothing is in use at the beginning. -/
theorem Placed.init (e : ElevatorType σ α π) (k : BlkOps Bio) (nomerges noxmerges : Bool) :
    Placed k (Stack.init e nomerges noxmerges) where
  located x :=
    { waiting := by simp [Stack.init], queued := by simp [Stack.init], driving := by simp [Stack.init]
      phase := rfl
      flags := by constructor <;> simp [Stack.init]
      mergeable := by simp [Stack.init], last := by simp [Stack.init] }
  nodupWaiting := List.nodup_nil
  nodupQueued := List.nodup_nil
  nodupDriving := List.nodup_nil
  nrSorted := rfl
  inFlight _ := rfl
  hash := ⟨fun _ => List.nodup_nil, fun _ _ => by simp [Stack.init]⟩

namespace Arranged

/-- A request is in one list at most. -/
theorem nodup (h : Arranged k s) : (s.waiting ++ (s.queue.queueHead ++ s.driving)).Nodup := by
  refine List.nodup_append.mpr ⟨h.nodupWaiting, List.nodup_append.mpr ⟨h.nodupQueued, h.nodupDriving, ?_⟩, ?_⟩
  · intro x hx y hy he
    have hp := (h.located x).queued.mp hx
    rw [he, (h.located y).driving.mp hy] at hp
    cases hp
  · intro x hx y hy he
    have hp := (h.located x).waiting.mp hx
    rw [he] at hp
    rcases List.mem_append.mp hy with hy | hy
    · rw [(h.located y).queued.mp hy] at hp
      cases hp
    · rw [(h.located y).driving.mp hy] at hp
      cases hp

theorem notMem_driving (h : Arranged k s) (hp : s.place rq ≠ .driving) : rq ∉ s.driving := mt (h.located rq).driving.mp hp

theorem notMem_waiting (h : Arranged k s) (hp : s.place rq ≠ .waiting) : rq ∉ s.waiting := mt (h.located rq).waiting.mp hp

theorem notMem_queued (h : Arranged k s) (hp : s.place rq ≠ .queued) : rq ∉ s.queue.queueHead :=
  mt (h.located rq).queued.mp hp

theorem last_ne (h : Arranged k s) (hp : s.place rq ≠ .waiting) : s.queue.lastMerge ≠ some rq :=
  mt (h.located rq).last hp

/-- A move of a request that does not wait leaves `last_merge` alone. -/
theorem keeps_last {P : Prop} (h : Arranged k s) (hp : s.place rq ≠ .waiting) (hl : s.queue.lastMerge = some x) :
    if x = rq then P else s.queue.lastMerge = some x := by
  rw [if_neg]
  · exact hl
  · rintro rfl
    exact h.last_ne hp hl

theorem hashed_eq_false (h : Arranged k s) (rq : Rq) (hp : s.place rq ≠ .waiting) : (s.queue.rqs rq).hashed = false :=
  Bool.eq_false_of_not_eq_true (mt (h.located rq).flags.hashed hp)

end Arranged

/-- `rq` is taken out of a list, and put into it if `b`. -/
def Relisted (b : Prop) [Decidable b] (rq : Rq) (l l' : List Rq) : Prop :=
  l'.Perm ((if b then [rq] else []) ++ l.erase rq)

section Relisted

variable {b : Prop} [Decidable b] {l l' : List Rq}

theorem relisted_same (h : rq ∈ l ↔ b) : Relisted b rq l l := by
  unfold Relisted
  by_cases hb : b
  · rw [if_pos hb]
    exact List.perm_cons_erase (h.mpr hb)
  · rw [if_neg hb, List.erase_of_not_mem (mt h.mp hb)]
    exact .refl l

theorem relisted_erase (rq : Rq) (l : List Rq) (hb : ¬ b) : Relisted b rq l (l.erase rq) := by
  unfold Relisted
  rw [if_neg hb]
  exact .refl _

theorem relisted_new (hb : b) (h : rq ∉ l) (hp : l'.Perm (rq :: l)) : Relisted b rq l l' := by
  unfold Relisted
  rw [if_pos hb, List.erase_of_not_mem h]
  exact hp

theorem Relisted.self (h : Relisted b rq l l') (hn : l.Nodup) : rq ∈ l' ↔ b := by
  unfold Relisted at h
  rw [h.mem_iff]
  by_cases hb : b
  · simp [hb]
  · simp [hb, hn.mem_erase_iff]

theorem Relisted.of_ne (h : Relisted b rq l l') (hx : x ≠ rq) : x ∈ l' ↔ x ∈ l := by
  unfold Relisted at h
  rw [h.mem_iff, List.mem_append, List.mem_erase_of_ne hx]
  split_ifs <;> simp [hx]

theorem Relisted.nodup (h : Relisted b rq l l') (hn : l.Nodup) : l'.Nodup := by
  unfold Relisted at h
  rw [h.nodup_iff]
  split_ifs
  · exact List.nodup_cons.mpr ⟨by simp [hn.mem_erase_iff], hn.erase rq⟩
  · exact hn.erase rq

end Relisted

/-- The step from `s` to `s'` brings `rq`, which is `r` now, to the place `p`. -/
structure Moved (k : BlkOps Bio) (s s' : Stack σ) (rq : Rq) (p : Place) (r : Request) : Prop where
  place : s'.place = Function.update s.place rq p
  rqs : s'.queue.rqs = Function.update s.queue.rqs rq r
  phase : s'.world.phase = Function.update s.world.phase rq (p.phase r)
  waiting : Relisted (p = .waiting) rq s.waiting s'.waiting
  queued : Relisted (p = .queued) rq s.queue.queueHead s'.queue.queueHead
  driving : Relisted (p = .driving) rq s.driving s'.driving
  last : ∀ x, s'.queue.lastMerge = some x → if x = rq then p = .waiting else s.queue.lastMerge = some x
  nrSorted : s'.queue.nrSorted =
    s.queue.nrSorted + (if p = .waiting then 1 else 0) - if s.place rq = .waiting then 1 else 0
  inFlight : ∀ i, s'.queue.inFlight i =
    s.queue.inFlight i + (if p = .driving ∧ flies k i r = true then 1 else 0) -
      if s.place rq = .driving ∧ flies k i (s.queue.rqs rq) = true then 1 else 0

theorem Arranged.moved (h : Arranged k s) (rq : Rq) (p : Place) (r : Request) (hm : Moved k s s' rq p r) (hf : Flags p r)
    (hmerge : p = .waiting → k.mergeable r = true → r.hashed = true) : Arranged k s' where
  located x := by
    rcases eq_or_ne x rq with rfl | hx
    · have hp : s'.place x = p := by rw [hm.place, Function.update_self]
      have hr : s'.queue.rqs x = r := by rw [hm.rqs, Function.update_self]
      constructor
      case waiting => rw [hp, hm.waiting.self h.nodupWaiting]
      case queued => rw [hp, hm.queued.self h.nodupQueued]
      case driving => rw [hp, hm.driving.self h.nodupDriving]
      case phase => rw [hm.phase, Function.update_self, hp, hr]
      case flags => rwa [hp, hr]
      case mergeable => rwa [hp, hr]
      case last =>
        intro hl
        rw [hp]
        simpa using hm.last x hl
    · apply (h.located x).frame
      constructor
      case place => rw [hm.place, Function.update_of_ne hx]
      case rqs => rw [hm.rqs, Function.update_of_ne hx]
      case phase => rw [hm.phase, Function.update_of_ne hx]
      case waiting => exact hm.waiting.of_ne hx
      case queued => exact hm.queued.of_ne hx
      case driving => exact hm.driving.of_ne hx
      case last =>
        intro hl
        simpa [hx] using hm.last x hl
  nodupWaiting := hm.waiting.nodup h.nodupWaiting
  nodupQueued := hm.queued.nodup h.nodupQueued
  nodupDriving := hm.driving.nodup h.nodupDriving
  nrSorted := by
    have hw := (h.located rq).waiting
    rw [hm.nrSorted, h.nrSorted, List.Perm.length_eq hm.waiting, List.length_append]
    by_cases hin : rq ∈ s.waiting
    · have hpos := List.length_pos_of_mem hin
      rw [List.length_erase_of_mem hin, if_pos (hw.mp hin)]
      split_ifs <;> (simp; omega)
    · rw [List.erase_of_not_mem hin, if_neg (mt hw.mpr hin)]
      by_cases hp : p = .waiting
      · simp [hp, add_comm]
      · simp [hp]
  inFlight i := by
    have hd := (h.located rq).driving
    have hrest : ∀ x ∈ s.driving.erase rq, s'.queue.rqs x = s.queue.rqs x := by
      intro x hx
      rw [hm.rqs, Function.update_of_ne fun he => ?_]
      rw [he, h.nodupDriving.mem_erase_iff] at hx
      exact hx.1 rfl
    have hcount : (s.driving.erase rq).countP (fun x => flies k i (s'.queue.rqs x)) =
        (s.driving.erase rq).countP fun x => flies k i (s.queue.rqs x) :=
      List.countP_congr fun x hx => by rw [hrest x hx]
    have hr : s'.queue.rqs rq = r := by rw [hm.rqs, Function.update_self]
    have hnew : ((if p = .driving then [rq] else []) ++ s.driving.erase rq).countP (fun x => flies k i (s'.queue.rqs x)) =
        (if p = .driving ∧ flies k i r = true then 1 else 0) + (s.driving.erase rq).countP fun x => flies k i (s.queue.rqs x) := by
      rw [List.countP_append, hcount]
      by_cases hp : p = .driving
      · simp [hp, List.countP_singleton, hr]
      · simp [hp]
    have hold : s.driving.countP (fun x => flies k i (s.queue.rqs x)) =
        (s.driving.erase rq).countP (fun x => flies k i (s.queue.rqs x)) +
          if s.place rq = .driving ∧ flies k i (s.queue.rqs rq) = true then 1 else 0 := by
      by_cases hin : rq ∈ s.driving
      · rw [(List.perm_cons_erase hin).countP_eq, List.countP_cons]
        simp [hd.mp hin]
      · rw [List.erase_of_not_mem hin]
        simp [mt hd.mpr hin]
    rw [hm.inFlight, h.inFlight, flights, flights, List.Perm.countP_eq _ hm.driving, hnew, hold]
    push_cast
    split_ifs <;> omega

end SsdScheduler.Elevator
