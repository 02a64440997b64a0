import Mathlib.Data.Finset.Card
import SsdScheduler.Elevator.Accounting
import SsdScheduler.Elevator.Barriers

/-!
# One list behind a test of the depth

The schedulers of the congestion experiment keep their requests in the order of arrival and hand out the first of
them unless too many are outstanding. What they do shows in that list and in the depth; the rest of their state has
to let them do it.
-/

namespace SsdScheduler.Congestion

open Framework Elevator

/-- The requests that wait, first to last, and the number of those that were handed out and not completed. -/
structure Gate where
  queue : List Rq
  depth : Int
deriving DecidableEq

/-- `depth > REQUEST_DEPTH` is false, or not tested. -/
def IsOpen (limit : Option Int) (depth : Int) : Prop := ∀ n ∈ limit, depth ≤ n

instance (limit : Option Int) (depth : Int) : Decidable (IsOpen limit depth) :=
  inferInstanceAs (Decidable (∀ n ∈ limit, depth ≤ n))

/-- The request that a dispatch hands out, if it does, and what it leaves. -/
def Gate.dispatch (limit : Option Int) (g : Gate) : Option Rq × Gate :=
  match g.queue with
  | [] => (none, g)
  | rq :: rest => if IsOpen limit g.depth then (some rq, ⟨rest, g.depth + 1⟩) else (none, g)

/-- The request that a callback hands out, if it does, and what it leaves. -/
def Gate.call {α π : Type} (limit : Option Int) (g : Gate) : Call α Bool π → Option Rq × Gate
  | .setRequest _ _ _ => (none, g)
  | .addRequest rq => (none, { g with queue := g.queue ++ [rq] })
  | .dispatch _ => g.dispatch limit
  | .completed _ => (none, { g with depth := g.depth - 1 })
  | .putRequest _ _ => (none, g)

variable {σ α π Bio : Type} {e : ElevatorType σ α π} {limit : Option Int} {view : σ → Gate} {I : World σ → Prop}
  {w w' : World σ} {c : Call α Bool π} {o : Out} {g : Gate}

/-- The scheduler is a gate as far as `view` shows it, and keeps `I` so that it stays one. -/
structure Guarded (e : ElevatorType σ α π) (limit : Option Int) (view : σ → Gate) (I : World σ → Prop) : Prop where
  quiet : e.latterReqFn = none ∧ e.formerReqFn = none
  init : I e.init ∧ view e.initQueue = ⟨[], 0⟩
  call : ∀ w c o d, I w → e.legal w c → e.call w.elv c = some (o, d) →
    I (w.after o d c) ∧ (o.dispatched, view d) = (view w.elv).call limit c ∧ (o.ret ≠ 0 ↔ o.dispatched.isSome)
  returns : ∀ w force, I w → ∃ o d, e.dispatch w.elv force = some (o, d)

/-- Requests are handed out in the order in which they were added, those that wait are in the list, and the depth
counts those that are outstanding. -/
structure Served (limit : Option Int) (g : Gate) (w : World σ) : Prop where
  fifo : w.addLog = w.dispatchLog ++ g.queue.map fun rq => (w.owner rq, rq)
  nodup : g.queue.Nodup
  mem : ∀ rq, rq ∈ g.queue ↔ w.phase rq = .added
  outstanding : ∃ F : Finset Rq, (∀ rq, rq ∈ F ↔ w.phase rq = .dispatched) ∧ g.depth = F.card
  bounded : ∀ n ∈ limit, g.depth ≤ max 0 (n + 1)

section Steps

theorem Served.init (e : ElevatorType σ α π) : Served limit ⟨[], 0⟩ e.init where
  fifo := rfl
  nodup := List.nodup_nil
  mem rq := by simp [ElevatorOps.init]
  outstanding := ⟨∅, fun rq => by simp [ElevatorOps.init], rfl⟩
  bounded n _ := le_max_left 0 (n + 1)

/-- A request that neither waits nor is outstanding moves to such a phase, and may get another owner. -/
theorem Served.frame (h : Served limit g w) {rq : Rq} {ph : Phase} {d : σ} {own : Rq → Pid}
    (hold : w.phase rq ≠ .added ∧ w.phase rq ≠ .dispatched) (hne : ph ≠ .added ∧ ph ≠ .dispatched)
    (hown : ∀ x, x ≠ rq → own x = w.owner x) :
    Served limit g ⟨d, Function.update w.phase rq ph, own, w.addLog, w.dispatchLog⟩ where
  fifo := by
    show w.addLog = w.dispatchLog ++ g.queue.map fun rq => (own rq, rq)
    rw [h.fifo]
    congr 1
    apply List.map_congr_left
    intro x hx
    rw [hown x]
    rintro rfl
    exact hold.1 ((h.mem x).mp hx)
  nodup := h.nodup
  mem x := (h.mem x).trans (World.phase_update_iff hold.1 hne.1).symm
  outstanding := by
    obtain ⟨F, hF, hd⟩ := h.outstanding
    exact ⟨F, fun x => (hF x).trans (World.phase_update_iff hold.2 hne.2).symm, hd⟩
  bounded := h.bounded

theorem Served.add (h : Served limit g w) {rq : Rq} {d : σ} (hset : w.phase rq = .set) :
    Served limit { g with queue := g.queue ++ [rq] } (w.onAdd d rq) where
  fifo := by
    show w.addLog ++ [(w.owner rq, rq)] = w.dispatchLog ++ (g.queue ++ [rq]).map fun rq => (w.owner rq, rq)
    rw [h.fifo]
    simp
  nodup := by
    apply List.nodup_append.mpr
    refine ⟨h.nodup, List.nodup_singleton rq, fun x hx y hy hxy => ?_⟩
    obtain rfl := List.mem_singleton.mp hy
    subst hxy
    rw [(h.mem x).mp hx] at hset
    cases hset
  mem x := by
    show x ∈ g.queue ++ [rq] ↔ Function.update w.phase rq .added x = .added
    by_cases hx : x = rq
    · simp [hx]
    · simp [hx, h.mem x]
  outstanding := by
    obtain ⟨F, hF, hd⟩ := h.outstanding
    exact ⟨F, fun x => (hF x).trans (World.phase_update_iff (by simp [hset]) (by simp)).symm, hd⟩
  bounded := h.bounded

theorem Served.dispatch {rq : Rq} {rest : List Rq} {depth : Int} {d : σ} (h : Served limit ⟨rq :: rest, depth⟩ w)
    (ho : IsOpen limit depth) : Served limit ⟨rest, depth + 1⟩ (w.onDispatch d (some rq)) where
  fifo := by
    show w.addLog = w.dispatchLog ++ [(w.owner rq, rq)] ++ rest.map fun rq => (w.owner rq, rq)
    rw [h.fifo]
    simp
  nodup := (List.nodup_cons.mp h.nodup).2
  mem x := by
    show x ∈ rest ↔ Function.update w.phase rq .dispatched x = .added
    have hmem := h.mem x
    have hnot := (List.nodup_cons.mp h.nodup).1
    by_cases hx : x = rq
    · simp [hx, hnot]
    · simpa [hx] using hmem
  outstanding := by
    obtain ⟨F, hF, hd⟩ := h.outstanding
    have hadded : w.phase rq = .added := (h.mem rq).mp (List.mem_cons_self ..)
    have hnot : rq ∉ F := by simp [hF, hadded]
    refine ⟨insert rq F, fun x => ?_, ?_⟩
    · show x ∈ insert rq F ↔ Function.update w.phase rq .dispatched x = .dispatched
      by_cases hx : x = rq
      · simp [hx]
      · simp [hx, hF]
    · rw [Finset.card_insert_of_notMem hnot]
      push_cast
      exact congrArg (· + 1) hd
  bounded n hn := by
    have hle := ho n hn
    show depth + 1 ≤ max 0 (n + 1)
    omega

theorem Served.complete (h : Served limit g w) {rq : Rq} {d : σ} (hdisp : w.phase rq = .dispatched) :
    Served limit { g with depth := g.depth - 1 } (w.onCompleted d rq) where
  fifo := h.fifo
  nodup := h.nodup
  mem x := (h.mem x).trans (World.phase_update_iff (by simp [hdisp]) (by simp)).symm
  outstanding := by
    obtain ⟨F, hF, hd⟩ := h.outstanding
    have hmem : rq ∈ F := (hF rq).mpr hdisp
    refine ⟨F.erase rq, fun x => ?_, ?_⟩
    · show x ∈ F.erase rq ↔ Function.update w.phase rq .completed x = .dispatched
      by_cases hx : x = rq
      · simp [hx]
      · simp [hx, hF]
    · have hcard := Finset.card_erase_add_one hmem
      show g.depth - 1 = _
      omega
  bounded n hn := by
    have hle := h.bounded n hn
    show g.depth - 1 ≤ max 0 (n + 1)
    omega

theorem dispatch_cases (limit : Option Int) (g : Gate) :
    (∃ rq rest, g.queue = rq :: rest ∧ IsOpen limit g.depth ∧ g.dispatch limit = (some rq, ⟨rest, g.depth + 1⟩)) ∨
      (g.queue = [] ∨ ¬ IsOpen limit g.depth) ∧ g.dispatch limit = (none, g) := by
  unfold Gate.dispatch
  cases hq : g.queue with
  | nil => exact .inr ⟨.inl rfl, rfl⟩
  | cons rq rest =>
    by_cases ho : IsOpen limit g.depth
    · exact .inl ⟨rq, rest, rfl, ho, if_pos ho⟩
    · exact .inr ⟨.inr ho, if_neg ho⟩

theorem Served.step (h : Served limit g w) {d : σ} {g' : Gate} (hl : e.legal w c)
    (hcall : (o.dispatched, g') = g.call limit c) : Served limit g' (w.after o d c) := by
  have hg : g' = (g.call limit c).2 := congrArg Prod.snd hcall
  cases c with
  | setRequest rq pid env =>
    subst hg
    have hidle : w.phase rq = .idle := hl.1
    apply h.frame (by simp [hidle]) (by simp)
    intro x hx
    exact Function.update_of_ne hx ..
  | addRequest rq =>
    subst hg
    exact h.add hl
  | dispatch force =>
    change (o.dispatched, g') = g.dispatch limit at hcall
    show Served limit g' (w.onDispatch d o.dispatched)
    rcases dispatch_cases limit g with ⟨rq, rest, hq, ho, hd⟩ | ⟨-, hd⟩
    · obtain ⟨ho', rfl⟩ := Prod.mk.inj (hcall.trans hd)
      obtain ⟨queue, depth⟩ := g
      obtain rfl : queue = rq :: rest := hq
      rw [ho']
      exact h.dispatch ho
    · obtain ⟨ho', rfl⟩ := Prod.mk.inj (hcall.trans hd)
      rw [ho']
      exact ⟨h.fifo, h.nodup, h.mem, h.outstanding, h.bounded⟩
  | completed rq =>
    subst hg
    exact h.complete hl
  | putRequest rq env =>
    subst hg
    have hput := World.phase_of_put hl
    exact h.frame hput.2 (by simp) fun _ _ => rfl

end Steps

section Runs

theorem Guarded.step (h : Guarded e limit view I) (hw : I w) (hs : Served limit (view w.elv) w) (hl : e.legal w c)
    (he : e.machine.step w c = some (o, w')) : I w' ∧ Served limit (view w'.elv) w' := by
  obtain ⟨d, hcall, rfl⟩ := e.step_eq_some.mp he
  obtain ⟨hI, hview, -⟩ := h.call w c o d hw hl hcall
  rw [World.after_elv]
  exact ⟨hI, hs.step hl hview⟩

theorem Guarded.of_reachable (h : Guarded e limit view I) (hr : e.Reachable w) : I w ∧ Served limit (view w.elv) w := by
  apply hr.invariant
  · intro u c o v hu hl hs
    exact h.step hu.1 hu.2 hl hs
  · refine ⟨h.init.1, ?_⟩
    show Served limit (view e.initQueue) e.init
    rw [h.init.2]
    exact .init e

theorem Guarded.dispatch_cases (h : Guarded e limit view I) (hw : I w) (force : Bool) :
    ∃ o d, e.dispatch w.elv force = some (o, d) ∧ I (w.onDispatch d o.dispatched) ∧
      ((∃ rq rest, (view w.elv).queue = rq :: rest ∧ IsOpen limit (view w.elv).depth ∧ o.ret ≠ 0 ∧ o.dispatched = some rq ∧
          view d = ⟨rest, (view w.elv).depth + 1⟩) ∨
        ((view w.elv).queue = [] ∨ ¬ IsOpen limit (view w.elv).depth) ∧ o.ret = 0 ∧ o.dispatched = none ∧
          view d = view w.elv) := by
  obtain ⟨o, d, hd⟩ := h.returns w force hw
  obtain ⟨hI, hview, hret⟩ := h.call w (.dispatch force) o d hw trivial hd
  change (o.dispatched, view d) = (view w.elv).dispatch limit at hview
  refine ⟨o, d, hd, hI, ?_⟩
  rcases Congestion.dispatch_cases limit (view w.elv) with ⟨rq, rest, hq, ho, heq⟩ | ⟨hshut, heq⟩
  · obtain ⟨hdisp, hv⟩ := Prod.mk.inj (hview.trans heq)
    exact .inl ⟨rq, rest, hq, ho, hret.mpr (by simp [hdisp]), hdisp, hv⟩
  · obtain ⟨hdisp, hv⟩ := Prod.mk.inj (hview.trans heq)
    exact .inr ⟨hshut, by simpa [hdisp] using hret, hdisp, hv⟩

/-- It keeps its side of the protocol where no waiting requests are merged. -/
theorem Guarded.contract (h : Guarded e limit view I) : e.Contract false where
  serves w hm force o d rq hd ho := by
    obtain ⟨hI, hs⟩ := h.of_reachable hm.reachable
    obtain ⟨o', d', hd', -, hcases⟩ := h.dispatch_cases hI force
    obtain ⟨rfl, rfl⟩ := Prod.mk.inj (Option.some.inj (hd'.symm.trans hd))
    rcases hcases with ⟨x, rest, hq, -, -, hx, -⟩ | ⟨-, -, hx, -⟩
    · obtain rfl : x = rq := Option.some.inj (hx.symm.trans ho)
      exact (hs.mem x).mp (by simp [hq])
    · cases hx.symm.trans ho
  latter w _ f hf := by cases h.quiet.1.symm.trans hf
  former w _ f hf := by cases h.quiet.2.symm.trans hf
  quiet _ := h.quiet

/-- The requests that a drain leaves behind the gate. -/
def Gate.left (limit : Option Int) (g : Gate) : List Rq :=
  match limit with
  | none => []
  | some n => g.queue.drop (n + 1 - g.depth).toNat

theorem left_of_shut (h : g.queue = [] ∨ ¬ IsOpen limit g.depth) : g.left limit = g.queue := by
  cases limit with
  | none =>
    have hnil : g.queue = [] := h.resolve_right (by simp [IsOpen])
    simp [Gate.left, hnil]
  | some n =>
    rcases h with hnil | hshut
    · simp [Gate.left, hnil]
    · have hle : n + 1 - g.depth ≤ 0 := by
        have hlt : n < g.depth := by simpa [IsOpen] using hshut
        omega
      simp [Gate.left, Int.toNat_of_nonpos hle]

theorem left_of_open {rq : Rq} {rest : List Rq} (hq : g.queue = rq :: rest) (ho : IsOpen limit g.depth) :
    (⟨rest, g.depth + 1⟩ : Gate).left limit = g.left limit := by
  cases limit with
  | none => rfl
  | some n =>
    have hle : g.depth ≤ n := ho n rfl
    have hsucc : (n + 1 - g.depth).toNat = (n + 1 - (g.depth + 1)).toNat + 1 := by omega
    simp [Gate.left, hq, hsucc]

/-- The loop of `elv_drain_elevator` ends with the gate closed or the list empty. -/
theorem Guarded.drain (h : Guarded e limit view I) {fuel : Nat} (hw : I w) (hf : (view w.elv).queue.length < fuel) :
    ∃ u, e.elvDrainElevator fuel w = some u ∧ (view u.elv).queue = (view w.elv).left limit := by
  induction fuel generalizing w with
  | zero => exact absurd hf (Nat.not_lt_zero _)
  | succ fuel ih =>
    obtain ⟨o, d, hd, hI, hcases⟩ := h.dispatch_cases hw true
    have hstep : e.machine.step w (.dispatch true) = some (o, w.onDispatch d o.dispatched) :=
      e.step_eq_some.mpr ⟨d, hd, rfl⟩
    have helv : (w.onDispatch d o.dispatched).elv = d := by
      cases o.dispatched <;> rfl
    rcases hcases with ⟨rq, rest, hq, ho, hret, -, hview⟩ | ⟨hshut, hret, -, hview⟩
    · have hlength : (view (w.onDispatch d o.dispatched).elv).queue.length < fuel := by
        rw [helv, hview]
        simp only [hq, List.length_cons] at hf
        exact Nat.lt_of_succ_lt_succ hf
      obtain ⟨u, hu, hleft⟩ := ih hI hlength
      refine ⟨u, by simp [ElevatorOps.elvDrainElevator, hstep, hret, hu], ?_⟩
      rw [hleft, helv, hview]
      exact left_of_open hq ho
    · refine ⟨w.onDispatch d o.dispatched, by simp [ElevatorOps.elvDrainElevator, hstep, hret], ?_⟩
      rw [helv, hview]
      exact (left_of_shut hshut).symm

end Runs

section Core

variable {k : BlkOps Bio} {s : Stack σ}

theorem Guarded.perm_waiting (h : Guarded e limit view I) (hinv : Elevator.Inv e k false s) :
    (view s.world.elv).queue.Perm s.waiting := by
  obtain ⟨-, hs⟩ := h.of_reachable hinv.meets.reachable
  exact (List.perm_ext_iff_of_nodup hs.nodup hinv.nodupWaiting).mpr fun rq =>
    (hs.mem rq).trans (hinv.toPlaced.accounted.waiting rq).symm

/-- The counters of the scheduler are those of the elevator core. -/
theorem Guarded.counters (h : Guarded e limit view I) (hinv : Elevator.Inv e k false s) :
    s.queue.nrSorted = (view s.world.elv).queue.length ∧ (view s.world.elv).depth = s.served.length := by
  have hacc := hinv.toPlaced.accounted
  obtain ⟨F, hF, hdepth⟩ := (h.of_reachable hinv.meets.reachable).2.outstanding
  rw [hacc.nrSorted, (h.perm_waiting hinv).length_eq, hacc.length_served hF]
  exact ⟨rfl, hdepth⟩

/-- `elv_drain_elevator` returns, with the requests that do not get through the gate left. -/
theorem Guarded.elvDrainElevator (h : Guarded e limit view I) (hinv : Elevator.Inv e k false s) {fuel : Nat}
    (hf : s.waiting.length < fuel) :
    ∃ s', s.elvDrainElevator e fuel = some s' ∧ s'.waiting.Perm ((view s.world.elv).left limit) := by
  have hlength : (view s.world.elv).queue.length < fuel := by rwa [(h.perm_waiting hinv).length_eq]
  obtain ⟨u, hu, hleft⟩ := h.drain (h.of_reachable hinv.meets.reachable).1 hlength
  rw [← elvDrainElevator_world] at hu
  obtain ⟨s', hs, rfl⟩ := Option.map_eq_some_iff.mp hu
  have hinv' := (elvDrainElevator_spec (a := none) h.contract hinv hs).inv
  exact ⟨s', hs, hleft ▸ (h.perm_waiting hinv').symm⟩

/-- `ELEVATOR_INSERT_BACK` puts its request behind the others only as far as these get through the gate. -/
theorem Guarded.insertBack (h : Guarded e limit view I) (hinv : Elevator.Inv e k false s) {rq : Rq} {fuel : Nat}
    (hrq : s.place rq = .held) (hf : s.waiting.length < fuel) (env : Rq → π) :
    ∃ s', s.elvAddRequest e k rq .back fuel env = some s' ∧ s'.waiting.Perm ((view s.world.elv).left limit) := by
  have hf' : (s.arrive rq).waiting.length < fuel := hf
  obtain ⟨s₁, hs, hperm⟩ := h.elvDrainElevator (hinv.arrive hrq) hf'
  exact ⟨_, (elvAddRequest_back hinv hrq).trans (congrArg (Option.map _) hs), hperm⟩

end Core

end SsdScheduler.Congestion
