import Mathlib.Data.Option.Basic
import SsdScheduler.Elevator.Registry

/-!
# What one queue does to the reference counts

The steps of a queue are described once: which references it gains and gives back, and how the counts of the modules
follow. The end of `__elevator_change` has five outcomes.
-/

namespace SsdScheduler.Registry

open Framework

def Pc.claims : Pc → Ty → Nat
  | .holding e _, t => if t = e then 1 else 0
  | _, _ => 0

@[simp] theorem Pc.claims_idle (t : Ty) : Pc.idle.claims t = 0 := rfl

@[simp] theorem Pc.claims_loading (name : List Char) (caller : Caller) (t : Ty) :
    (Pc.loading name caller).claims t = 0 := rfl

@[simp] theorem Pc.claims_holding (e : Ty) (caller : Caller) (t : Ty) :
    (Pc.holding e caller).claims t = if t = e then 1 else 0 := rfl

theorem Pc.isLoading_iff {pc : Pc} : pc.isLoading = true ↔ ∃ name caller, pc = .loading name caller := by
  cases pc <;> simp [Pc.isLoading]

theorem Pc.isInitializing_iff {pc : Pc} : pc.isInitializing = true ↔ ∃ e, pc = .holding e .init := by
  cases pc with
  | idle | loading => simp [Pc.isInitializing]
  | holding e caller => cases caller <;> simp [Pc.isInitializing]

theorem Pc.isChanging_iff {pc : Pc} : pc.isChanging = true ↔ ∃ e name, pc = .holding e (.change name) := by
  cases pc with
  | idle | loading => simp [Pc.isChanging]
  | holding e caller => cases caller <;> simp [Pc.isChanging]

/-- The references that a queue has on `t`. -/
def Queue.claims (x : Queue) (t : Ty) : Nat :=
  (if some t = x.elevator.map ElevatorQueue.type then 1 else 0) + x.pc.claims t

variable {c : Config} {s s' s₁ : Schedulers} {q : QueueId} {e t : Ty} {x : Queue} {reg rereg : Int} {d d' : Ty → Int}

section Steps

/-- What happens to `q` alone: the count of each module follows the references of `q` up to `d`, and new references
are on types that are registered. -/
structure Drifts (c : Config) (q : QueueId) (d : Ty → Int) (s s' : Schedulers) : Prop where
  list : s'.elvList = s.elvList
  going : s'.going = s.going
  others : ∀ x, x ≠ q → s'.queues x = s.queues x
  count : ∀ t, c.builtin t = false →
    (s'.refcnt t : Int) - (s'.queues q).claims t = s.refcnt t - (s.queues q).claims t + d t

theorem Drifts.refl : Drifts c q (fun _ => 0) s s where
  list := rfl
  going := rfl
  others _ _ := rfl
  count _ _ := (Int.add_zero _).symm

theorem Drifts.trans (h : Drifts c q d s s₁) (h' : Drifts c q d' s₁ s') : Drifts c q (fun t => d t + d' t) s s' where
  list := h'.list.trans h.list
  going := h'.going.trans h.going
  others x hx := (h'.others x hx).trans (h.others x hx)
  count t ht := by
    have h₁ := h.count t ht
    have h₂ := h'.count t ht
    omega

theorem Drifts.setQueue (x : Queue) :
    Drifts c q (fun t => (s.queues q).claims t - x.claims t) s (s.setQueue q x) where
  list := rfl
  going := rfl
  others y hy := by simp [Schedulers.setQueue, hy]
  count t _ := by
    simp only [Schedulers.setQueue, Function.update_self]
    omega

theorem Drifts.put (h : c.builtin e = true ∨ 0 < s.refcnt e) :
    Drifts c q (fun t => if t = e then -1 else 0) s (s.elevatorPut c e) := by
  unfold Schedulers.elevatorPut
  split
  case isTrue hb =>
    refine ⟨rfl, rfl, fun _ _ => rfl, fun t ht => ?_⟩
    rw [if_neg (fun he => by simp [he, hb] at ht), Int.add_zero]
  case isFalse hb =>
    have hpos : 0 < s.refcnt e := h.resolve_left hb
    refine ⟨rfl, rfl, fun _ _ => rfl, fun t _ => ?_⟩
    rcases eq_or_ne t e with rfl | hne
    · simp only [Function.update_self, if_true]
      omega
    · simp only [Function.update_of_ne hne, hne, if_false]
      omega

theorem Drifts.imp (h : Drifts c q d s s') (hd : ∀ t, c.builtin t = false → d t = d' t) : Drifts c q d' s s' where
  list := h.list
  going := h.going
  others := h.others
  count t ht := by rw [h.count t ht, hd t ht]

/-- Changes of the queue that leave its references as they are. -/
theorem Drifts.keep (hx : ∀ t, x.claims t = (s.queues q).claims t) : Drifts c q (fun _ => 0) s (s.setQueue q x) := by
  apply (Drifts.setQueue x).imp
  intro t _
  rw [hx t]
  omega

/-- `elevator_get` finds a registered type of the name and takes a reference on its module. -/
theorem elevatorGet_spec {name : List Char} (h : s.elevatorGet c name = some (e, s')) :
    e ∈ s.elvList ∧ c.elevatorName e = name ∧ (c.builtin e = false → s.going e = false) ∧
      s'.queues = s.queues ∧ Drifts c q (fun t => if t = e then 1 else 0) s s' := by
  simp only [Schedulers.elevatorGet, Option.bind_eq_bind, Option.bind_eq_some_iff, Option.some.injEq, Prod.mk.injEq] at h
  obtain ⟨e', hfind, s₁, hget, rfl, rfl⟩ := h
  have hname : c.elevatorName e' = name := by simpa using List.find?_some hfind
  refine ⟨List.mem_of_find?_eq_some hfind, hname, ?_⟩
  unfold Schedulers.tryModuleGet at hget
  split at hget
  case isTrue hb =>
    cases hget
    refine ⟨fun h => by simp [hb] at h, rfl, rfl, rfl, fun _ _ => rfl, fun t ht => ?_⟩
    rw [if_neg (fun he => by simp [he, hb] at ht), Int.add_zero]
  case isFalse hb =>
    split at hget
    case isFalse => cases hget
    case isTrue hlive =>
      cases hget
      refine ⟨fun _ => by simpa using (Bool.and_eq_true_iff.mp hlive).1, rfl, rfl, rfl, fun _ _ => rfl, fun t _ => ?_⟩
      rcases eq_or_ne t e' with rfl | hne
      · simp only [Function.update_self, if_true]
        omega
      · simp only [Function.update_of_ne hne, hne, if_false]
        omega

end Steps

theorem setQueue_self : (s.setQueue q x).queues q = x := Function.update_self ..

section Queues

/-- Only a queue without a scheduler is initialised, and only one with a scheduler is changed. -/
def Queue.Fits (x : Queue) : Prop :=
  match x.pc with
  | .idle => True
  | .loading _ .init | .holding _ .init => x.elevator = none
  | .loading _ (.change _) | .holding _ (.change _) => x.elevator.isSome = true

theorem Queue.Fits.idle (el : Option ElevatorQueue) : Queue.Fits ⟨el, .idle⟩ := trivial

/-- A step of one queue. -/
structure QueueStep (c : Config) (q : QueueId) (d : Ty → Int) (s s' : Schedulers) : Prop extends Drifts c q d s s' where
  fits : (s'.queues q).Fits
  uses : ∀ t, (s'.queues q).claims t ≠ 0 →
    (s.queues q).claims t ≠ 0 ∨ (t ∈ s.elvList ∧ (c.builtin t = false → s.going t = false))

/-- Changes of the queue that leave its references as they are. -/
theorem QueueStep.keep (hfits : x.Fits) (hx : ∀ t, x.claims t = (s.queues q).claims t) :
    QueueStep c q (fun _ => 0) s (s.setQueue q x) := by
  refine ⟨.keep hx, ?_, fun t ht => .inl ?_⟩
  · rwa [setQueue_self]
  · rwa [setQueue_self, hx t] at ht

/-- A queue gets a reference on a type. -/
theorem took_step {name : List Char} {caller : Caller} (hpc : ∀ t, (s.queues q).pc.claims t = 0)
    (hfits : Queue.Fits { s.queues q with pc := .loading name caller }) (hget : s.elevatorGet c name = some (e, s₁)) :
    QueueStep c q (fun _ => 0) s (s₁.setQueue q { s₁.queues q with pc := .holding e caller }) := by
  obtain ⟨hin, -, hlive, hqueues, hdrift⟩ := elevatorGet_spec (q := q) hget
  refine ⟨(hdrift.trans (.setQueue _)).imp fun t _ => ?_, ?_, fun t ht => ?_⟩
  · simp only [hqueues, Queue.claims, Pc.claims_holding, hpc t]
    split_ifs <;> omega
  · rw [setQueue_self, hqueues]
    cases caller <;> exact hfits
  · rcases eq_or_ne t e with rfl | hne
    · exact .inr ⟨hin, hlive⟩
    · left
      simpa [setQueue_self, hqueues, Queue.claims, hpc t, hne] using ht

theorem got_step {name : List Char} {caller : Caller} (hpc : ∀ t, (s.queues q).pc.claims t = 0)
    (hfits : Queue.Fits { s.queues q with pc := .loading name caller }) :
    QueueStep c q (fun _ => 0) s (s.got c q name caller).2 := by
  unfold Schedulers.got
  cases hget : s.elevatorGet c name with
  | none => exact .keep (.idle _) fun t => by simp [Queue.claims, hpc t]
  | some r => exact took_step hpc hfits hget

theorem getLoading_step {name : List Char} {caller : Caller} (hpc : ∀ t, (s.queues q).pc.claims t = 0)
    (hfits : Queue.Fits { s.queues q with pc := .loading name caller }) :
    QueueStep c q (fun _ => 0) s (s.getLoading c q name caller).2 := by
  unfold Schedulers.getLoading
  cases s.elevatorFind c name with
  | some _ => exact got_step hpc hfits
  | none => exact .keep hfits fun t => by simp [Queue.claims, hpc t]

/-- The ways in which the end of `__elevator_change` leaves the queue and the two modules. -/
inductive Switched (c : Config) (s : Schedulers) (q : QueueId) (old : ElevatorQueue) (e : Ty) (name : List Char) :
    InitResult → Out → Schedulers → Prop
  | same {r : InitResult} (hname : name = c.elevatorName old.type) :
      Switched c s q old e name r ⟨some 0, none⟩ ((s.setQueue q ⟨some old, .idle⟩).elevatorPut c e)
  | replaced (registered : Bool) (hname : name ≠ c.elevatorName old.type) :
      Switched c s q old e name .ok ⟨some 0, some e⟩ ((s.setQueue q ⟨some ⟨e, registered⟩, .idle⟩).elevatorPut c old.type)
  | unregistered (registered : Bool) {reg : Int} (hreg : reg ≠ 0) (hname : name ≠ c.elevatorName old.type) :
      Switched c s q old e name .ok ⟨some reg, some e⟩
        ((s.setQueue q ⟨some ⟨old.type, registered⟩, .idle⟩).elevatorPut c e)
  | early (registered : Bool) (hname : name ≠ c.elevatorName old.type) :
      Switched c s q old e name .early ⟨some enomem, some e⟩ (s.setQueue q ⟨some ⟨old.type, registered⟩, .idle⟩)
  | late (registered : Bool) (hname : name ≠ c.elevatorName old.type) :
      Switched c s q old e name .late ⟨some enomem, some e⟩
        ((s.setQueue q ⟨some ⟨old.type, registered⟩, .idle⟩).elevatorPut c e)

theorem elevatorPut_queues : (s.elevatorPut c e).queues = s.queues := by
  unfold Schedulers.elevatorPut
  split <;> rfl

theorem elevatorPut_setQueue : (s.elevatorPut c e).setQueue q x = (s.setQueue q x).elevatorPut c e := by
  unfold Schedulers.elevatorPut
  split <;> rfl

theorem setQueue_setQueue {y : Queue} : (s.setQueue q x).setQueue q y = s.setQueue q y := by
  simp [Schedulers.setQueue]

theorem registerQueue_setQueue {r : Bool} {pc : Pc} :
    (s.setQueue q ⟨some ⟨t, r⟩, pc⟩).elvRegisterQueue q reg = s.setQueue q ⟨some ⟨t, r || reg = 0⟩, pc⟩ := by
  simp [Schedulers.elvRegisterQueue, Schedulers.setQueue]

theorem unregisterQueue_setQueue {r : Bool} {pc : Pc} :
    (s.setQueue q ⟨some ⟨t, r⟩, pc⟩).elvUnregisterQueue q = s.setQueue q ⟨some ⟨t, false⟩, pc⟩ := by
  simp [Schedulers.elvUnregisterQueue, Schedulers.setQueue]

theorem restore_setQueue {old : ElevatorQueue} {el : Option ElevatorQueue} {pc : Pc} :
    (s.setQueue q ⟨el, pc⟩).restore q old rereg = s.setQueue q ⟨some ⟨old.type, old.registered || rereg = 0⟩, pc⟩ := by
  simp [Schedulers.restore, Schedulers.elvRegisterQueue, Schedulers.setQueue]

theorem registerQueue_elevatorPut :
    (s.elevatorPut c e).elvRegisterQueue q reg = (s.elvRegisterQueue q reg).elevatorPut c e := by
  unfold Schedulers.elevatorPut
  split
  case isTrue => rfl
  case isFalse =>
    unfold Schedulers.elvRegisterQueue
    cases (s.queues q).elevator <;> rfl

theorem restore_elevatorPut {old : ElevatorQueue} :
    (s.elevatorPut c e).restore q old rereg = (s.restore q old rereg).elevatorPut c e := by
  unfold Schedulers.restore
  rw [elevatorPut_queues, elevatorPut_setQueue, registerQueue_elevatorPut]

theorem elevatorSwitch_eq {r : Bool} {i : InitResult} :
    (s.setQueue q ⟨some ⟨t, r⟩, .idle⟩).elevatorSwitch c q ⟨t, r⟩ e i reg rereg =
      match i with
      | .early => (enomem, s.setQueue q ⟨some ⟨t, rereg = 0⟩, .idle⟩)
      | .late => (enomem, (s.setQueue q ⟨some ⟨t, rereg = 0⟩, .idle⟩).elevatorPut c e)
      | .ok =>
        if r && reg ≠ 0 then (reg, (s.setQueue q ⟨some ⟨t, rereg = 0⟩, .idle⟩).elevatorPut c e)
        else (0, (s.setQueue q ⟨some ⟨e, r⟩, .idle⟩).elevatorPut c t) := by
  have hidle : (if r = true then (s.setQueue q ⟨some ⟨t, r⟩, .idle⟩).elvUnregisterQueue q
      else s.setQueue q ⟨some ⟨t, r⟩, .idle⟩) = s.setQueue q ⟨some ⟨t, false⟩, .idle⟩ := by
    cases r with
    | true => exact unregisterQueue_setQueue
    | false => rfl
  simp only [Schedulers.elevatorSwitch, hidle]
  cases i with
  | early => simp [Schedulers.elevatorInitFn, enomem, restore_setQueue]
  | late => simp [Schedulers.elevatorInitFn, enomem, restore_elevatorPut, restore_setQueue]
  | ok =>
    cases r with
    | false => simp [Schedulers.elevatorInitFn, setQueue_self, setQueue_setQueue]
    | true =>
      by_cases hreg : reg = 0
      · simp [Schedulers.elevatorInitFn, setQueue_self, setQueue_setQueue, registerQueue_setQueue, hreg]
      · simp [Schedulers.elevatorInitFn, setQueue_self, setQueue_setQueue, registerQueue_setQueue, restore_elevatorPut,
          restore_setQueue, hreg]

theorem switchTo_cases {old : ElevatorQueue} {name : List Char} {r : InitResult} {o : Out}
    (hold : (s.queues q).elevator = some old) (h : s.switchTo c q e name r reg rereg = some (o, s')) :
    Switched c s q old e name r o s' := by
  obtain ⟨told, rold⟩ := old
  simp only [Schedulers.switchTo, hold, Option.bind_eq_bind, Option.bind_some, elevatorSwitch_eq] at h
  split at h
  case isTrue hname =>
    cases h
    exact .same hname
  case isFalse hname =>
    cases r with
    | early =>
      cases h
      exact .early _ hname
    | late =>
      cases h
      exact .late _ hname
    | ok =>
      simp only at h
      split at h
      case isTrue hreg =>
        cases h
        exact .unregistered _ (by simpa using (Bool.and_eq_true_iff.mp hreg).2) hname
      case isFalse =>
        cases h
        exact .replaced _ hname

/-- A queue that gives a reference back while it moves on to `x`. -/
theorem QueueStep.move {u : Ty} (hfits : x.Fits) (hpos : c.builtin u = true ∨ 0 < s.refcnt u)
    (hd : ∀ t, ((s.queues q).claims t : Int) - x.claims t + (if t = u then -1 else 0) = d t)
    (huses : ∀ t, x.claims t ≠ 0 → (s.queues q).claims t ≠ 0) :
    QueueStep c q d s ((s.setQueue q x).elevatorPut c u) := by
  have hqueue : ((s.setQueue q x).elevatorPut c u).queues q = x := by rw [elevatorPut_queues, setQueue_self]
  refine ⟨((Drifts.setQueue x).trans (.put hpos)).imp fun t _ => hd t, ?_, fun t ht => .inl ?_⟩
  · rwa [hqueue]
  · rw [hqueue] at ht
    exact huses t ht

theorem Switched.initialized {old : ElevatorQueue} {name : List Char} {r : InitResult} {o : Out}
    (h : Switched c s q old e name r o s') (ht : o.initialized = some t) : t = e := by
  cases h with
  | same => cases ht
  | replaced | unregistered | early | late => exact (Option.some.inj ht).symm

theorem Switched.step {old : ElevatorQueue} {name : List Char} {r : InitResult} {o : Out}
    (hq : s.queues q = ⟨some old, .holding e (.change name)⟩)
    (hpos : ∀ t, (s.queues q).claims t ≠ 0 → c.builtin t = true ∨ 1 < s.refcnt t)
    (h : Switched c s q old e name r o s') :
    QueueStep c q (fun t => ((if r = .early ∧ o.initialized = some t then 1 else 0 : Nat) : Int)) s s' := by
  have hput (u : Ty) (hu : u = e ∨ u = old.type) : c.builtin u = true ∨ 0 < s.refcnt u := by
    apply (hpos u ?_).imp_right Nat.lt_of_succ_lt
    rcases hu with rfl | rfl <;> simp [hq, Queue.claims]
  cases h with
  | same hname =>
    apply QueueStep.move (.idle _) (hput e (.inl rfl))
    · intro t
      simp only [hq, Queue.claims, Pc.claims_holding, Pc.claims_idle, reduceCtorEq, and_false, if_false]
      split_ifs <;> omega
    · intro t
      simp only [hq, Queue.claims, Pc.claims_holding, Pc.claims_idle]
      omega
  | replaced registered hname =>
    apply QueueStep.move (.idle _) (hput old.type (.inr rfl))
    · intro t
      simp only [hq, Queue.claims, Pc.claims_holding, Pc.claims_idle, Option.map_some, Option.some.injEq, reduceCtorEq,
        false_and, if_false]
      split_ifs <;> omega
    · intro t
      simp only [hq, Queue.claims, Pc.claims_holding, Pc.claims_idle, Option.map_some, Option.some.injEq]
      split_ifs <;> omega
  | unregistered registered hreg hname =>
    apply QueueStep.move (.idle _) (hput e (.inl rfl))
    · intro t
      simp only [hq, Queue.claims, Pc.claims_holding, Pc.claims_idle, Option.map_some, reduceCtorEq, false_and, if_false]
      split_ifs <;> omega
    · intro t
      simp only [hq, Queue.claims, Pc.claims_holding, Pc.claims_idle, Option.map_some]
      omega
  | late registered hname =>
    apply QueueStep.move (.idle _) (hput e (.inl rfl))
    · intro t
      simp only [hq, Queue.claims, Pc.claims_holding, Pc.claims_idle, Option.map_some, reduceCtorEq, false_and, if_false]
      split_ifs <;> omega
    · intro t
      simp only [hq, Queue.claims, Pc.claims_holding, Pc.claims_idle, Option.map_some]
      omega
  | early registered hname =>
    refine ⟨(Drifts.setQueue _).imp fun t _ => ?_, ?_, fun t ht => .inl ?_⟩
    · simp only [hq, Queue.claims, Pc.claims_holding, Pc.claims_idle, Option.map_some, Option.some.injEq, true_and, eq_comm]
      split_ifs <;> omega
    · rw [setQueue_self]
      trivial
    · rw [setQueue_self] at ht
      simp only [hq, Queue.claims, Pc.claims_holding, Pc.claims_idle, Option.map_some] at ht ⊢
      omega

theorem fits_with {el : Option ElevatorQueue} (hfits : x.Fits) (hel : el.isSome = x.elevator.isSome) :
    Queue.Fits { x with elevator := el } := by
  obtain ⟨el', pc⟩ := x
  cases pc with
  | idle => trivial
  | loading name caller => cases caller <;> simp_all [Queue.Fits]
  | holding e caller => cases caller <;> simp_all [Queue.Fits]

theorem registerQueue_step (hfits : (s.queues q).Fits) : QueueStep c q (fun _ => 0) s (s.elvRegisterQueue q reg) := by
  unfold Schedulers.elvRegisterQueue
  cases he : (s.queues q).elevator with
  | none => exact ⟨.refl, hfits, fun t ht => .inl ht⟩
  | some e => exact .keep (fits_with hfits (by simp [he])) fun t => by simp [Queue.claims, he]

theorem unregisterQueue_step (hfits : (s.queues q).Fits) : QueueStep c q (fun _ => 0) s (s.elvUnregisterQueue q) := by
  unfold Schedulers.elvUnregisterQueue
  cases he : (s.queues q).elevator with
  | none => exact ⟨.refl, hfits, fun t ht => .inl ht⟩
  | some e => exact .keep (fits_with hfits (by simp [he])) fun t => by simp [Queue.claims, he]

/-- The init function under `elevator_init`, when it does not fail late. -/
theorem initFn_step {r : InitResult} {err : Int} (hq : s.queues q = ⟨none, .holding e .init⟩)
    (hpos : ∀ t, (s.queues q).claims t ≠ 0 → c.builtin t = true ∨ 1 < s.refcnt t) (hr : r ≠ .late)
    (h : (s.setQueue q ⟨none, .idle⟩).elevatorInitFn c q e r = (err, s')) :
    QueueStep c q (fun _ => 0) s (if err ≠ 0 then s'.elevatorPut c e else s') := by
  cases r with
  | late => exact absurd rfl hr
  | early =>
    cases h
    apply QueueStep.move (.idle _)
    · exact (hpos e (by simp [hq, Queue.claims])).imp_right Nat.lt_of_succ_lt
    · intro t
      simp only [hq, Queue.claims, Pc.claims_holding, Pc.claims_idle]
      split_ifs <;> omega
    · intro t
      simp [Queue.claims]
  | ok =>
    simp only [Schedulers.elevatorInitFn, setQueue_self, setQueue_setQueue, Prod.mk.injEq] at h
    obtain ⟨rfl, rfl⟩ := h
    apply QueueStep.keep (.idle _)
    intro t
    simp [hq, Queue.claims]

theorem elevatorDefault_spec (h : s.elevatorDefault c = some (e, s')) : ∃ name, s.elevatorGet c name = some (e, s') := by
  rcases (Option.orElse_eq_some _ _ _).mp h with h | ⟨-, h⟩
  · split at h
    case isTrue => cases h
    case isFalse => exact ⟨_, h⟩
  · rcases (Option.orElse_eq_some _ _ _).mp h with h | ⟨-, h⟩
    all_goals exact ⟨_, h⟩

end Queues

end SsdScheduler.Registry
