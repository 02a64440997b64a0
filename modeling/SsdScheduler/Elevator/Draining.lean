import SsdScheduler.Elevator.DispatchOrder

/-!
# Draining the scheduler, and barriers

`elv_drain_elevator` calls the scheduler until it has nothing to dispatch, and whatever the order in which the
scheduler gives its requests away, the dispatch list has them in the order of a sweep. A request that
`ELEVATOR_INSERT_BACK` puts behind them is a barrier: only what goes to the front of the list gets before it.
-/

namespace SsdScheduler.Elevator

open Framework RequestQueue Relation SortedList

variable {σ σ' α α' π π' Bio Bio' : Type} {e : ElevatorType σ α π} {f : ElevatorType σ' α' π'} {k : BlkOps Bio}
  {k' : BlkOps Bio'} {s s₁ s' : Stack σ} {t t' : Stack σ'} {ds ds' : List Rq} {rq x : Rq} {o : Out}
  {merging merging' : Bool} {fuel fuel' : Nat}

/-- The scan for `a` stops at `x`, with the boundary and the requests of `q`. -/
def RequestQueue.scanStops (q : RequestQueue) (a x : Rq) : Prop := stopsAt q.endSector (q.rqs a) (q.rqs x) = true

instance (q : RequestQueue) : DecidableRel q.scanStops :=
  fun a x => inferInstanceAs (Decidable (stopsAt q.endSector (q.rqs a) (q.rqs x) = true))

/-- The requests `ds` have gone from the scheduler to the dispatch list. -/
structure Drained (s s' : Stack σ) (ds : List Rq) : Prop where
  queueHead : s'.queue.queueHead = ds.foldl (fun l a => tailInsert s.queue.scanStops a l) s.queue.queueHead
  endSector : s'.queue.endSector = s.queue.endSector
  alike : ∀ x, (s.queue.rqs x).Alike (s'.queue.rqs x)
  waiting : (ds ++ s'.waiting).Perm s.waiting

theorem Request.Alike.trans {r r' r'' : Request} (h : r.Alike r') (h' : r'.Alike r'') : r.Alike r'' :=
  ⟨h'.kind.trans h.kind, h'.pos.trans h.pos, h'.softbarrier.trans h.softbarrier, h'.started.trans h.started⟩

theorem stopsAt_congr {b : Nat} {r r' p p' : Request} (h : r.Alike r') (h' : p.Alike p') :
    stopsAt b r' p' = true ↔ stopsAt b r p = true := by
  rw [stopsAt_iff, stopsAt_iff, h.kind, h'.kind, h'.fixed, scanKey_congr h, scanKey_congr h']

theorem Drained.refl (s : Stack σ) : Drained s s [] := ⟨rfl, rfl, fun _ => .refl _, .refl _⟩

theorem Drained.scanStops (h : Drained s s' ds) (a x : Rq) : s'.queue.scanStops a x ↔ s.queue.scanStops a x := by
  unfold RequestQueue.scanStops
  rw [h.endSector]
  exact stopsAt_congr (h.alike a) (h.alike x)

theorem Drained.trans (h : Drained s s₁ ds) (h' : Drained s₁ s' ds') : Drained s s' (ds ++ ds') where
  queueHead := by
    have hscan : (fun l a => tailInsert s₁.queue.scanStops a l) = fun l a => tailInsert s.queue.scanStops a l := by
      funext l a
      exact tailInsert_congr fun x _ => h.scanStops a x
    rw [h'.queueHead, hscan, h.queueHead, List.foldl_append]
  endSector := h'.endSector.trans h.endSector
  alike x := (h.alike x).trans (h'.alike x)
  waiting := by
    rw [List.append_assoc]
    exact (h'.waiting.append_left ds).trans h.waiting

/-- One dispatch: at most one request goes to the list. -/
theorem dispatchFn_drained (hc : e.Contract merging) (h : Inv e k merging s) {force : Bool}
    (hs : s.dispatchFn e force = some (o, s')) : Drained s s' o.dispatched.toList := by
  simp only [Stack.dispatchFn, Option.bind_eq_bind, Option.bind_eq_some_iff, Prod.exists] at hs
  obtain ⟨o', w, hstep, hs⟩ := hs
  cases hd : o'.dispatched with
  | none =>
    simp only [hd, Option.some.injEq, Prod.mk.injEq] at hs
    obtain ⟨rfl, rfl⟩ := hs
    rw [hd]
    exact ⟨rfl, rfl, fun _ => .refl _, .refl _⟩
  | some rq =>
    simp only [hd, Option.some.injEq, Prod.mk.injEq] at hs
    obtain ⟨rfl, rfl⟩ := hs
    obtain ⟨d, hcall, -⟩ := (e.toElevatorOps.step_eq_some).mp hstep
    have hp := h.place_waiting (hc.serves _ h.meets force o' d rq hcall hd)
    have halike (x : Rq) : (s.queue.rqs x).Alike ((s.queue.elvDispatchSort rq).rqs x) := by
      show (s.queue.rqs x).Alike ((s.queue.forget rq).rqs x)
      rw [forget_rqs]
      apply alike_update
      exact ⟨rfl, rfl, rfl, rfl⟩
    rw [hd]
    refine ⟨?_, forget_endSector, halike, (List.perm_cons_erase ((h.located rq).waiting.mpr hp)).symm⟩
    show tailInsert _ rq (s.queue.forget rq).queueHead = _
    rw [forget_queueHead]
    apply tailInsert_congr
    intro x _
    show stopsAt (s.queue.forget rq).endSector ((s.queue.elvDispatchSort rq).rqs rq) ((s.queue.elvDispatchSort rq).rqs x) = true ↔ _
    rw [forget_endSector]
    exact stopsAt_congr (halike rq) (halike x)

theorem elvDrainElevator_drained (hc : e.Contract merging) (h : Inv e k merging s)
    (hs : s.elvDrainElevator e fuel = some s') : ∃ ds, Drained s s' ds := by
  induction fuel generalizing s with
  | zero => cases hs
  | succ fuel ih =>
    simp only [Stack.elvDrainElevator, Option.bind_eq_bind, Option.bind_eq_some_iff, Prod.exists] at hs
    obtain ⟨o, s₁, hd, hs⟩ := hs
    have hfirst := dispatchFn_drained hc h hd
    split at hs
    · obtain ⟨ds, hrest⟩ := ih (dispatchFn_spec (a := none) hc h hd).inv hs
      exact ⟨_, hfirst.trans hrest⟩
    · obtain rfl := Option.some.inj hs
      exact ⟨_, hfirst⟩

/-- What the drain of the core does to the scheduler is the drain of the scheduler. -/
theorem elvDrainElevator_world (e : ElevatorType σ α π) (fuel : Nat) (s : Stack σ) :
    (s.elvDrainElevator e fuel).map Stack.world = e.toElevatorOps.elvDrainElevator fuel s.world := by
  induction fuel generalizing s with
  | zero => rfl
  | succ fuel ih =>
    simp only [Stack.elvDrainElevator, Stack.dispatchFn, ElevatorOps.elvDrainElevator, Option.bind_eq_bind]
    cases hstep : e.toElevatorOps.machine.step s.world (.dispatch true) with
    | none => rfl
    | some res =>
      simp only [Option.bind_some]
      cases hd : res.1.dispatched
      all_goals
        simp only [Option.bind_some]
        split
        · exact ih _
        · rfl

/-- The last forced dispatch finds nothing. -/
theorem elvDrainElevator_empties (hc : e.Contract merging) (he : e.Empties merging) (h : Inv e k merging s)
    (hs : s.elvDrainElevator e fuel = some s') : s'.waiting = [] := by
  induction fuel generalizing s with
  | zero => cases hs
  | succ fuel ih =>
    simp only [Stack.elvDrainElevator, Option.bind_eq_bind, Option.bind_eq_some_iff, Prod.exists] at hs
    obtain ⟨o, s₁, hd, hs⟩ := hs
    have hdoes := dispatchFn_spec (a := none) hc h hd
    split at hs
    case isTrue => exact ih hdoes.inv hs
    case isFalse hret =>
      obtain rfl := Option.some.inj hs
      have hret : o.ret = 0 := not_not.mp hret
      have hperm := (dispatchFn_drained hc h hd).waiting
      have hnone : s.waiting = [] := by
        apply List.eq_nil_iff_forall_not_mem.mpr
        intro x hx
        have hph := h.phase_added ((h.located x).waiting.mp hx)
        simp only [Stack.dispatchFn, Option.bind_eq_bind, Option.bind_eq_some_iff, Prod.exists] at hd
        obtain ⟨o', w, hstep, hd⟩ := hd
        obtain ⟨d, hcall, -⟩ := (e.toElevatorOps.step_eq_some).mp hstep
        have ho : o' = o := by
          split at hd
          all_goals exact congrArg Prod.fst (Option.some.inj hd)
        exact he.last _ h.meets o' d hcall (ho ▸ hret) x hph
      rw [hnone] at hperm
      exact (List.append_eq_nil_iff.mp (List.Perm.eq_nil hperm)).2

theorem scanStops_iff {q : RequestQueue} {a x : Rq} : q.scanStops a x ↔
    Stops (fun x => (q.rqs x).kind) (fun x => (q.rqs x).fixed = true) (fun x => scanKey q.endSector (q.rqs x)) a x :=
  stopsAt_iff ..

/-- The last requests of a dispatch list that others of the kind `c` may be sorted around, and what is before them. -/
def RequestQueue.loose (q : RequestQueue) (c : Nat × Bool) (x : Rq) : Bool :=
  decide ((q.rqs x).kind = c ∧ ¬ (q.rqs x).fixed = true)

/-- Requests of one kind that are drained join the end of the list in the order of the sweep. -/
theorem drained_sorted {c : Nat × Bool} (h : Inv e k merging s) (ho : InScanOrder s.queue) (hd : Drained s s' ds)
    (hkind : ∀ x ∈ s.waiting, (s.queue.rqs x).kind = c) :
    ∃ l, s'.queue.queueHead = s.queue.queueHead.rdropWhile (s.queue.loose c) ++ l ∧
      l.Perm (s.queue.queueHead.rtakeWhile (s.queue.loose c) ++ ds) ∧
      Sorted (fun x => scanKey s.queue.endSector (s.queue.rqs x)) l := by
  have hwaits : ∀ x ∈ ds, x ∈ s.waiting := fun x hx => hd.waiting.mem_iff.mp (List.mem_append_left _ hx)
  have hloose : ∀ x ∈ ds, ¬ (s.queue.rqs x).fixed = true := by
    intro x hx
    obtain ⟨-, hstarted, hsoft⟩ := (h.located x).flags.waiting ((h.located x).waiting.mp (hwaits x hx))
    simp [Request.fixed, hstarted, hsoft]
  have hscan : (fun l a => tailInsert s.queue.scanStops a l) = fun l a =>
      tailInsert (Stops (fun x => (s.queue.rqs x).kind) (fun x => (s.queue.rqs x).fixed = true)
        fun x => scanKey s.queue.endSector (s.queue.rqs x)) a l := by
    funext l a
    exact tailInsert_congr fun x _ => scanStops_iff
  rw [hd.queueHead, hscan]
  exact InOrder.foldl ho hloose fun x hx => hkind x (hwaits x hx)

theorem drain_leaves_nothing (hc : e.Contract merging) (he : e.Empties merging) (h : Inv e k merging s)
    (hs : s.elvDrainElevator e fuel = some s') :
    s'.waiting = [] ∧ s'.queue.nrSorted = 0 ∧ s'.queue.queueHead.Perm (s.queue.queueHead ++ s.waiting) := by
  have hnone := elvDrainElevator_empties hc he h hs
  obtain ⟨ds, hd⟩ := elvDrainElevator_drained hc h hs
  have hinv' := (elvDrainElevator_spec (a := none) hc h hs).inv
  have hperm := hd.waiting
  rw [hnone, List.append_nil] at hperm
  refine ⟨hnone, by simp [hinv'.nrSorted, hnone], ?_⟩
  rw [hd.queueHead]
  have hfold (l : List Rq) (ds : List Rq) : (ds.foldl (fun l a => tailInsert s.queue.scanStops a l) l).Perm (l ++ ds) := by
    induction ds generalizing l with
    | nil => simp
    | cons a ds ih =>
      apply (ih _).trans
      exact ((tailInsert_perm _ a l).append_right ds).trans List.perm_middle.symm
  exact (hfold _ ds).trans (hperm.append_left _)

/-- The loop of `elv_drain_elevator` ends after a dispatch for each request, and one that finds none. -/
theorem elvDrainElevator_returns (hc : e.Contract merging) (he : e.Empties merging) (h : Inv e k merging s)
    (hf : s.waiting.length < fuel) : ∃ s', s.elvDrainElevator e fuel = some s' := by
  induction fuel generalizing s with
  | zero => exact absurd hf (Nat.not_lt_zero _)
  | succ fuel ih =>
    obtain ⟨o, d, hcall⟩ := he.returns _ h.meets
    obtain ⟨s₁, hd⟩ : ∃ s₁, s.dispatchFn e true = some (o, s₁) := by
      unfold Stack.dispatchFn
      simp only [ElevatorOps.machine, ElevatorOps.call, hcall, Option.map_some, Option.bind_eq_bind, Option.bind_some]
      cases o.dispatched with
      | none => exact ⟨_, rfl⟩
      | some rq => exact ⟨_, rfl⟩
    simp only [Stack.elvDrainElevator, hd, Option.bind_eq_bind, Option.bind_some]
    split
    case isFalse => exact ⟨s₁, rfl⟩
    case isTrue hret =>
      apply ih (dispatchFn_spec (a := none) hc h hd).inv
      obtain ⟨rq, hrq⟩ := Option.isSome_iff_exists.mp (he.progress _ h.meets o d hcall hret)
      have hlength := (dispatchFn_drained hc h hd).waiting.length_eq
      simp only [hrq, Option.toList_some, List.length_append, List.length_singleton] at hlength
      omega

/-- `elv_drain_elevator` returns, the scheduler has nothing left, and the dispatch list has what it had. -/
theorem forced_drain_leaves_nothing (hc : e.Contract merging) (he : e.Empties merging) {nomerges noxmerges : Bool}
    (hq : merging = false → noxmerges = true) (h : (Stack.machine e k).Reachable (Stack.init e nomerges noxmerges) s)
    (hf : s.waiting.length < fuel) :
    ∃ s', s.elvDrainElevator e fuel = some s' ∧
      s'.waiting = [] ∧ s'.queue.nrSorted = 0 ∧ s'.queue.queueHead.Perm (s.queue.queueHead ++ s.waiting) := by
  have hinv := Inv.of_reachable hc hq h
  obtain ⟨s', hs⟩ := elvDrainElevator_returns hc he hinv hf
  exact ⟨s', hs, drain_leaves_nothing hc he hinv hs⟩

theorem forced_drain_leaves_nothing_noop :
    ∃ u v, (Stack.machine Noop.elevator BlkOps.plain).Reachable (Stack.init Noop.elevator false false) u ∧ u.waiting = [1, 2] ∧
      u.elvDrainElevator Noop.elevator 3 = some v ∧
      v.waiting = [] ∧ v.queue.nrSorted = 0 ∧ v.queue.queueHead.Perm (u.queue.queueHead ++ u.waiting) := by
  have hplays : (Stack.machine Noop.elevator BlkOps.plain).Plays (Stack.init Noop.elevator false false)
      [.getRequest 1 (read 40) 7 (), .addRequest 1 .sort 9 fun _ => (), .getRequest 2 (read 16) 7 (),
        .addRequest 2 .sort 9 fun _ => ()] (fun _ u => u.waiting = [1, 2]) := by decide
  obtain ⟨tr, u, hr, -, hw⟩ := hplays.exists_run
  obtain ⟨v, hv⟩ :=
    forced_drain_leaves_nothing Noop.contract Noop.empties (fun h => nomatch h) ⟨tr, hr⟩ (show u.waiting.length < 3 by simp [hw])
  exact ⟨u, v, ⟨tr, hr⟩, hw, hv⟩

section TwoSchedulers

/-- Two drained schedulers that had the same requests of one kind leave the same dispatch list, whatever order they
would have served them in. -/
theorem drain_undoes_order (hc : e.Contract merging) (hc' : f.Contract merging') (he : e.Empties merging)
    (he' : f.Empties merging') {nomerges nomerges' noxmerges noxmerges' : Bool} (hq : merging = false → noxmerges = true)
    (hq' : merging' = false → noxmerges' = true)
    (h : ((Stack.machine e k).restrict Stack.clear).Reachable (Stack.init e nomerges noxmerges) s)
    (h' : ((Stack.machine f k').restrict Stack.clear).Reachable (Stack.init f nomerges' noxmerges') t)
    (hhead : t.queue.queueHead = s.queue.queueHead) (hend : t.queue.endSector = s.queue.endSector)
    (hwaiting : t.waiting.Perm s.waiting) (halike : ∀ x ∈ s.queue.queueHead ++ s.waiting, (s.queue.rqs x).Alike (t.queue.rqs x))
    (hkind : ∀ x ∈ s.waiting, ∀ y ∈ s.waiting, (s.queue.rqs x).kind = (s.queue.rqs y).kind)
    (hpos : ∀ x ∈ s.queue.queueHead ++ s.waiting, ∀ y ∈ s.queue.queueHead ++ s.waiting,
      (s.queue.rqs x).pos = (s.queue.rqs y).pos → x = y)
    (hs : s.elvDrainElevator e fuel = some s') (ht : t.elvDrainElevator f fuel' = some t') :
    t'.queue.queueHead = s'.queue.queueHead := by
  obtain ⟨hinv, ho⟩ := inv_of_clear hc hq h
  obtain ⟨hinv', ho'⟩ := inv_of_clear hc' hq' h'
  obtain ⟨ds, hd⟩ := elvDrainElevator_drained hc hinv hs
  obtain ⟨ds', hd'⟩ := elvDrainElevator_drained hc' hinv' ht
  have hds := hd.waiting
  have hds' := hd'.waiting
  rw [elvDrainElevator_empties hc he hinv hs, List.append_nil] at hds
  rw [elvDrainElevator_empties hc' he' hinv' ht, List.append_nil] at hds'
  have hsame : ds'.Perm ds := hds'.trans (hwaiting.trans hds.symm)
  obtain ⟨c, hkind⟩ : ∃ c, ∀ x ∈ s.waiting, (s.queue.rqs x).kind = c := by
    cases hw : s.waiting with
    | nil => exact ⟨(0, false), by simp⟩
    | cons y l => exact ⟨(s.queue.rqs y).kind, fun x hx => hkind x (hw ▸ hx) y (by simp [hw])⟩
  have hkind' : ∀ x ∈ t.waiting, (t.queue.rqs x).kind = c := by
    intro x hx
    have hx := hwaiting.mem_iff.mp hx
    rw [(halike x (List.mem_append_right _ hx)).kind, hkind x hx]
  have hloose (x : Rq) (hx : x ∈ s.queue.queueHead) : t.queue.loose c x = s.queue.loose c x := by
    have hx := halike x (List.mem_append_left _ hx)
    simp only [RequestQueue.loose, hx.kind, hx.fixed]
  obtain ⟨l, hl, hperm, hsorted⟩ := drained_sorted hinv ho hd hkind
  obtain ⟨l', hl', hperm', hsorted'⟩ := drained_sorted hinv' ho' hd' hkind'
  rw [hhead, rdropWhile_congr hloose] at hl'
  rw [hhead, rtakeWhile_congr hloose] at hperm'
  have hll : l.Perm l' := hperm.trans ((hsame.symm.append_left _).trans hperm'.symm)
  have hmem : ∀ x ∈ l, x ∈ s.queue.queueHead ++ s.waiting := by
    intro x hx
    rcases List.mem_append.mp (hperm.mem_iff.mp hx) with hx | hx
    · exact List.mem_append_left _ ((List.rtakeWhile_suffix _ _).subset hx)
    · exact List.mem_append_right _ (hds.mem_iff.mp hx)
  have hkeys (x : Rq) (hx : x ∈ l') : scanKey t.queue.endSector (t.queue.rqs x) = scanKey s.queue.endSector (s.queue.rqs x) := by
    rw [hend, scanKey_congr (halike x (hmem x (hll.mem_iff.mpr hx)))]
  have hkey : Sorted (fun x => scanKey s.queue.endSector (s.queue.rqs x)) l' := by
    apply List.Pairwise.imp_of_mem _ hsorted'
    intro x y hx hy hle
    change scanKey t.queue.endSector (t.queue.rqs x) ≤ scanKey t.queue.endSector (t.queue.rqs y) at hle
    rwa [hkeys x hx, hkeys y hy] at hle
  have heq : l = l' := by
    apply Sorted.eq_of_perm hsorted hkey hll
    intro x hx y hy hxy
    exact hpos x (hmem x hx) y (hmem y hy) (congrArg (fun k => (ofLex k).2) hxy)
  rw [hl, hl', heq]

theorem drain_undoes_order_noop :
    ∃ u v u' v',
      ((Stack.machine Noop.elevator BlkOps.plain).restrict Stack.clear).Reachable (Stack.init Noop.elevator false false) u ∧
      ((Stack.machine Noop.elevator BlkOps.plain).restrict Stack.clear).Reachable (Stack.init Noop.elevator false false) v ∧
      u.elvDrainElevator Noop.elevator 9 = some u' ∧ v.elvDrainElevator Noop.elevator 9 = some v' ∧
      u.world.elv = [1, 2] ∧ v.world.elv = [2, 1] ∧ v'.queue.queueHead = u'.queue.queueHead := by
  have hplays : ((Stack.machine Noop.elevator BlkOps.plain).restrict Stack.clear).Plays (Stack.init Noop.elevator false false)
      [.getRequest 1 (read 40) 7 (), .addRequest 1 .sort 9 fun _ => (), .getRequest 2 (read 16) 7 (),
        .addRequest 2 .sort 9 fun _ => ()]
      (fun _ u => u.queue.queueHead = [] ∧ u.queue.endSector = 0 ∧ u.waiting = [1, 2] ∧ u.world.elv = [1, 2] ∧
        (u.elvDrainElevator Noop.elevator 9).isSome = true ∧
        u.queue.rqs 1 = { read 40 with sorted := true, hashed := true } ∧
        u.queue.rqs 2 = { read 16 with sorted := true, hashed := true }) := by decide
  have hplays' : ((Stack.machine Noop.elevator BlkOps.plain).restrict Stack.clear).Plays (Stack.init Noop.elevator false false)
      [.getRequest 1 (read 40) 7 (), .getRequest 2 (read 16) 7 (), .addRequest 2 .sort 9 fun _ => (),
        .addRequest 1 .sort 9 fun _ => ()]
      (fun _ u => u.queue.queueHead = [] ∧ u.queue.endSector = 0 ∧ u.waiting = [2, 1] ∧ u.world.elv = [2, 1] ∧
        (u.elvDrainElevator Noop.elevator 9).isSome = true ∧
        u.queue.rqs 1 = { read 40 with sorted := true, hashed := true } ∧
        u.queue.rqs 2 = { read 16 with sorted := true, hashed := true }) := by decide
  obtain ⟨tr, u, hr, -, hl, he, hw, hq, hsome, hu₁, hu₂⟩ := hplays.exists_run
  obtain ⟨tr', v, hr', -, hl', he', hw', hq', hsome', hv₁, hv₂⟩ := hplays'.exists_run
  obtain ⟨u', hu'⟩ := Option.isSome_iff_exists.mp hsome
  obtain ⟨v', hv'⟩ := Option.isSome_iff_exists.mp hsome'
  refine ⟨u, v, u', v', ⟨tr, hr⟩, ⟨tr', hr'⟩, hu', hv', hq, hq', ?_⟩
  apply drain_undoes_order Noop.contract Noop.contract Noop.empties Noop.empties (fun h => nomatch h) (fun h => nomatch h)
    ⟨tr, hr⟩ ⟨tr', hr'⟩ (hl'.trans hl.symm) (he'.trans he.symm) _ _ _ _ hu' hv'
  · rw [hw, hw']
    exact .swap ..
  · simp only [hl, hw, List.nil_append, List.mem_cons, List.not_mem_nil, or_false, forall_eq_or_imp, forall_eq, hu₁, hu₂, hv₁, hv₂]
    exact ⟨.refl _, .refl _⟩
  · simp [hw, hu₁, hu₂, Request.kind, read]
  · simp [hl, hw, hu₁, hu₂, read]

end TwoSchedulers

end SsdScheduler.Elevator
