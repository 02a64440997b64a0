import Mathlib.Logic.Relation
import SsdScheduler.Elevator.Merging

/-!
# What a call of the elevator core does

Every call is a sequence of shifts, each of which moves or changes a request in one way, and keeps the
invariant. What every shift preserves is preserved by `__elv_add_request`, by a dispatch, by a drain and by the
merge of a `bio`, however the loops in them run.
-/

namespace SsdScheduler.Elevator

open Framework RequestQueue Relation

variable {σ α π Bio : Type} {e : ElevatorType σ α π} {k : BlkOps Bio} {s s₁ s' : Stack σ} {q q' : RequestQueue}
  {a : Option Rq} {rq next x : Rq} {m : Request} {merging b : Bool} {o : Out} {w : World σ} {env : π} {whr : Insertion}
  {fuel : Nat}

/-- One move inside a call of the elevator core that inserts `a`, or nothing. -/
inductive Shift (k : BlkOps Bio) : Option Rq → Stack σ → Stack σ → Prop
  | world {a : Option Rq} {s : Stack σ} {w : World σ} (hw : w.phase = s.world.phase) : Shift k a s { s with world := w }
  | swept {a : Option Rq} {s : Stack σ} {q' : RequestQueue} (hsw : Swept k s.queue q') : Shift k a s { s with queue := q' }
  | dispatched {a : Option Rq} {s : Stack σ} {rq : Rq} {w : World σ} (hp : s.place rq = .waiting)
      (hw : w.phase = Function.update s.world.phase rq .dispatched) :
      Shift k a s { s.put rq .queued with
        world := w, queue := s.queue.elvDispatchSort rq, waiting := s.waiting.erase rq }
  | front {rq : Rq} {s : Stack σ} (hp : s.place rq = .held) :
      Shift k (some rq) s { s.put rq .queued with queue := s.queue.atFront rq }
  | arrive {rq : Rq} {s : Stack σ} (hp : s.place rq = .held) :
      Shift k (some rq) s
        { s.put rq .arriving with queue := s.queue.modify rq fun r => { r with softbarrier := true } }
  | back {rq : Rq} {s : Stack σ} (hp : s.place rq = .arriving) :
      Shift k (some rq) s { s.put rq .queued with queue := s.queue.atBack rq }
  | sortedIn {rq : Rq} {s : Stack σ} {q' : RequestQueue} {w : World σ} (hp : s.place rq = .held)
      (hpriv : (s.queue.rqs rq).elvpriv = true) (hq : s.queue.sortIn k rq = some q')
      (hw : w.phase = Function.update s.world.phase rq .added) :
      Shift k (some rq) s { s.put rq .waiting with world := w, queue := q', waiting := s.waiting ++ [rq] }
  | absorbed {a : Option Rq} {s s' : Stack σ} {rq next : Rq} {m : Request} (hrq : s.place rq = .waiting)
      (hnext : s.place next = .waiting ∨ a = some next ∧ s.place next = .held)
      (hm : k.attemptReqMerge (s.queue.rqs rq) (s.queue.rqs next) = some m) (ha : Absorbed s s' rq next m)
      (hs' : Placed k s') : Shift k a s s'

theorem Shift.placed (h : Placed k s) (hs : Shift k a s s') : Placed k s' := by
  cases hs with
  | world hw =>
    exact
      { located := fun x => (h.located x).frame ⟨rfl, rfl, congrFun hw x, Iff.rfl, Iff.rfl, Iff.rfl, id⟩
        nodupWaiting := h.nodupWaiting, nodupQueued := h.nodupQueued, nodupDriving := h.nodupDriving
        nrSorted := h.nrSorted, inFlight := h.inFlight, hash := h.hash }
  | swept hsw => exact h.swept hsw
  | dispatched hp hw => exact h.dispatched hp hw
  | front hp => exact h.front hp
  | arrive hp => exact h.arrive hp
  | back hp => exact h.back hp
  | sortedIn hp hpriv hq hw => exact h.sortedIn hp hpriv hq hw
  | absorbed _ _ _ _ hs' => exact hs'

/-- The invariant of the block layer with a scheduler. -/
structure Inv (e : ElevatorType σ α π) (k : BlkOps Bio) (merging : Bool) (s : Stack σ) : Prop extends Placed k s where
  meets : e.Meets merging s.world
  quiet : merging = false → s.queue.noxmerges = true

/-- What a call does when it returns. -/
structure Does (e : ElevatorType σ α π) (k : BlkOps Bio) (merging : Bool) (a : Option Rq) (s s' : Stack σ) : Prop where
  inv : Inv e k merging s'
  shifts : ReflTransGen (Shift k a) s s'

theorem Does.refl (h : Inv e k merging s) : Does e k merging a s s := ⟨h, .refl⟩

theorem Does.trans {s'' : Stack σ} (h : Does e k merging a s s') (h' : Does e k merging a s' s'') : Does e k merging a s s'' :=
  ⟨h'.inv, h.shifts.trans h'.shifts⟩

theorem Inv.does (h : Inv e k merging s) (hs : Shift k a s s') (hm : e.Meets merging s'.world)
    (hq : s'.queue.noxmerges = s.queue.noxmerges) : Does e k merging a s s' where
  inv := ⟨hs.placed h.toPlaced, hm, fun hmerging => hq.trans (h.quiet hmerging)⟩
  shifts := .single hs

theorem Inv.phase_added (h : Inv e k merging s) (hp : s.place x = .waiting) : s.world.phase x = .added := by
  rw [(h.located x).phase, hp]
  rfl

theorem Inv.place_waiting (h : Inv e k merging s) (hp : s.world.phase x = .added) : s.place x = .waiting := by
  have hph := (h.located x).phase
  rw [hp] at hph
  cases hplace : s.place x with
  | waiting => rfl
  | free => simp [hplace, Place.phase] at hph
  | _ =>
    simp only [hplace, Place.phase] at hph
    split_ifs at hph

section Dispatching

theorem dispatchFn_spec (hc : e.Contract merging) (h : Inv e k merging s) {force : Bool}
    (hs : s.dispatchFn e force = some (o, s')) : Does e k merging a s s' := by
  simp only [Stack.dispatchFn, Option.bind_eq_bind, Option.bind_eq_some_iff, Prod.exists] at hs
  obtain ⟨o', w, hstep, hs⟩ := hs
  have hmeets := h.meets.call (c := .dispatch force) trivial hstep
  cases hd : o'.dispatched with
  | none =>
    simp only [hd, Option.some.injEq, Prod.mk.injEq] at hs
    obtain ⟨-, rfl⟩ := hs
    exact h.does (.world (phase_dispatch_none hstep hd)) hmeets rfl
  | some rq =>
    simp only [hd, Option.some.injEq, Prod.mk.injEq] at hs
    obtain ⟨-, rfl⟩ := hs
    obtain ⟨d, hcall, -⟩ := (e.toElevatorOps.step_eq_some).mp hstep
    have hp := h.place_waiting (hc.serves _ h.meets force o' d rq hcall hd)
    exact h.does (.dispatched hp (phase_dispatch_some hstep hd)) hmeets forget_noxmerges

theorem elvDrainElevator_spec (hc : e.Contract merging) (h : Inv e k merging s)
    (hs : s.elvDrainElevator e fuel = some s') : Does e k merging a s s' := by
  induction fuel generalizing s with
  | zero => cases hs
  | succ fuel ih =>
    simp only [Stack.elvDrainElevator, Option.bind_eq_bind, Option.bind_eq_some_iff, Prod.exists] at hs
    obtain ⟨o, s₁, hd, hs⟩ := hs
    have hfirst := dispatchFn_spec (a := a) hc h hd
    split at hs
    · exact hfirst.trans (ih hfirst.inv hs)
    · obtain rfl := Option.some.inj hs
      exact hfirst

end Dispatching

section Merging

/-- An attempt to append `next` to a request that waits. -/
theorem blkAttemptReqMerge_spec (h : Inv e k merging s) (hrq : s.place rq = .waiting)
    (hnext : s.place next = .waiting ∧ merging = true ∨ a = some next ∧ s.place next = .held)
    (hs : s.blkAttemptReqMerge e k rq next env = some (b, s')) :
    Does e k merging a s s' ∧ (b = false → s' = s) ∧ (b = true → ∃ m, k.attemptReqMerge (s.queue.rqs rq) (s.queue.rqs next) = some m ∧
      Absorbed s s' rq next m) := by
  unfold Stack.blkAttemptReqMerge at hs
  split at hs
  case h_1 =>
    obtain ⟨rfl, rfl⟩ : false = b ∧ s = s' := by simpa using hs
    exact ⟨.refl h, fun _ => rfl, nofun⟩
  case h_2 m hm =>
    simp only [Option.bind_eq_bind, Option.bind_eq_some_iff, Option.some.injEq, Prod.mk.injEq] at hs
    obtain ⟨s₁, hreq, s₂, hfree, rfl, rfl⟩ := hs
    obtain ⟨hp, hmeets, ha⟩ := h.absorbed (h.hash.except rq) h.meets hrq (hnext.imp id And.right) hm hreq hfree
    have hnext' : s.place next = .waiting ∨ a = some next ∧ s.place next = .held := hnext.imp And.left id
    exact ⟨h.does (.absorbed hrq hnext' hm ha hp) hmeets ha.noxmerges, nofun, fun _ => ⟨m, hm, ha⟩⟩

theorem find_spec (h : Inv e k merging s) {offset : Nat} {found : Option Rq}
    (hs : s.queue.elvRqhashFind k offset = some (found, q')) :
    Swept k s.queue q' ∧ Does e k merging a s { s with queue := q' } ∧
      ∀ rq' ∈ found, s.place rq' = .waiting ∧ (q'.rqs rq').endSector = offset := by
  obtain ⟨found', q'', hf, hfound⟩ := h.hash.find offset
  obtain ⟨rfl, rfl⟩ : found' = found ∧ q'' = q' := by simpa [hf] using hs
  refine ⟨hfound.swept, h.does (.swept hfound.swept) h.meets hfound.swept.lists.noxmerges, fun rq' hrq' => ?_⟩
  obtain ⟨hh, -, he⟩ := hfound.sound rq' hrq'
  rw [hfound.swept.eq_of_hashed hh] at hh
  exact ⟨(h.located rq').flags.hashed hh, he⟩

/-- No request was merged: at most some that are not mergeable have left the hash table. -/
def Untouched (k : BlkOps Bio) (s s' : Stack σ) : Prop := ∃ q', Swept k s.queue q' ∧ s' = { s with queue := q' }

theorem Untouched.rqs (h : Untouched k s s') (hh : (s.queue.rqs x).hashed = false) : s'.queue.rqs x = s.queue.rqs x := by
  obtain ⟨q', hsw, rfl⟩ := h
  rcases hsw.rqs x with hr | ⟨-, hr⟩
  · exact hr
  · show q'.rqs x = _
    rw [hr, ← hh]

/-- The loop merges a request that is being inserted, and then only requests that wait. -/
theorem insertMergeLoop_spec (h : Inv e k merging s) {env : Rq → π} {ret : Bool}
    (hrq : s.place rq = .waiting ∨ a = some rq ∧ s.place rq = .held) (hmerging : merging = true)
    (hs : Stack.insertMergeLoop e k env fuel s rq ret = some (b, s')) :
    Does e k merging a s s' ∧ (∀ x, x ≠ rq → s.place x ≠ .waiting → s'.place x = s.place x) ∧
      (b = ret ∧ Untouched k s s' ∨ b = true ∧ s'.place rq = .free) := by
  induction fuel generalizing s rq ret with
  | zero => cases hs
  | succ fuel ih =>
    simp only [Stack.insertMergeLoop, Option.bind_eq_bind, Option.bind_eq_some_iff, Prod.exists] at hs
    obtain ⟨found, q', hf, hs⟩ := hs
    obtain ⟨hswept, hsweep, hfound⟩ := find_spec h hf
    cases found with
    | none =>
      obtain ⟨rfl, rfl⟩ : ret = b ∧ { s with queue := q' } = s' := by simpa using hs
      exact ⟨hsweep, fun _ _ _ => rfl, .inl ⟨rfl, q', hswept, rfl⟩⟩
    | some rq' =>
      simp only [Option.bind_eq_some_iff, Prod.exists] at hs
      obtain ⟨merged, s₁, hm, hs⟩ := hs
      obtain ⟨hwaits, -⟩ := hfound rq' rfl
      have hnext : s.place rq = .waiting ∧ merging = true ∨ a = some rq ∧ s.place rq = .held :=
        hrq.imp (fun h => ⟨h, hmerging⟩) id
      obtain ⟨hdoes, hno, hyes⟩ := blkAttemptReqMerge_spec hsweep.inv hwaits hnext hm
      cases merged with
      | false =>
        obtain rfl := hno rfl
        obtain ⟨rfl, rfl⟩ : ret = b ∧ { s with queue := q' } = s' := by simpa using hs
        exact ⟨hsweep, fun _ _ _ => rfl, .inl ⟨rfl, q', hswept, rfl⟩⟩
      | true =>
        obtain ⟨m, hm', ha⟩ := hyes rfl
        have hne : rq' ≠ rq := ne_of_merged hm'
        have hstill : s₁.place rq' = .waiting := by
          rw [ha.place, Function.update_of_ne hne]
          exact hwaits
        have hgone : s₁.place rq = .free := by rw [ha.place, Function.update_self]
        obtain ⟨hrest, hothers, hend⟩ := ih hdoes.inv (.inl hstill) hs
        refine ⟨hsweep.trans (hdoes.trans hrest), fun x hx hp => ?_, .inr ⟨?_, ?_⟩⟩
        · have hx₁ : s₁.place x = s.place x := by rw [ha.place, Function.update_of_ne hx]
          have hx' : x ≠ rq' := fun he => hp (he ▸ hwaits)
          rw [hothers x hx' (hx₁.symm ▸ hp), hx₁]
        · rcases hend with ⟨hb, -⟩ | ⟨hb, -⟩ <;> exact hb
        · rw [hothers rq hne.symm (by simp [hgone]), hgone]

/-- The request is merged and freed, or it is still with its submitter. -/
theorem elvAttemptInsertMerge_spec (h : Inv e k merging s) {env : Rq → π} (hrq : s.place rq = .held)
    (hs : s.elvAttemptInsertMerge e k rq env = some (b, s')) :
    Does e k merging (some rq) s s' ∧ (b = false → Untouched k s s') ∧ (b = true → s'.place rq = .free) := by
  have hself : Untouched k s s := ⟨s.queue, .refl h.hash, rfl⟩
  -- the loop runs only where requests that wait may be merged
  have hloop {fuel : Nat} (hx : s.queue.noxmerges = false)
      (hrun : Stack.insertMergeLoop e k env fuel s rq false = some (b, s')) :
      Does e k merging (some rq) s s' ∧ (b = false → Untouched k s s') ∧ (b = true → s'.place rq = .free) := by
    have hmerging : merging = true := by
      cases hm : merging with
      | true => rfl
      | false => rw [h.quiet hm] at hx; cases hx
    obtain ⟨hdoes, -, hend⟩ := insertMergeLoop_spec h (.inr ⟨rfl, hrq⟩) hmerging hrun
    rcases hend with ⟨rfl, hu⟩ | ⟨rfl, hp⟩
    · exact ⟨hdoes, fun _ => hu, nofun⟩
    · exact ⟨hdoes, nofun, fun _ => hp⟩
  unfold Stack.elvAttemptInsertMerge at hs
  split at hs
  case isTrue =>
    obtain ⟨rfl, rfl⟩ : false = b ∧ s = s' := by simpa using hs
    exact ⟨.refl h, fun _ => hself, nofun⟩
  case isFalse =>
    cases hlast : s.queue.lastMerge with
    | none =>
      simp only [hlast, Option.bind_eq_bind, Option.bind_some, Bool.false_eq_true, if_false] at hs
      split at hs
      case isTrue =>
        obtain ⟨rfl, rfl⟩ : false = b ∧ s = s' := by simpa using hs
        exact ⟨.refl h, fun _ => hself, nofun⟩
      case isFalse hx => exact hloop (Bool.eq_false_of_not_eq_true hx) hs
    | some last =>
      simp only [hlast, Option.bind_eq_bind, Option.bind_eq_some_iff, Prod.exists] at hs
      obtain ⟨merged, s₁, hm, hs⟩ := hs
      obtain ⟨hdoes, hno, hyes⟩ := blkAttemptReqMerge_spec h ((h.located last).last hlast) (.inr ⟨rfl, hrq⟩) hm
      cases merged with
      | true =>
        obtain ⟨rfl, rfl⟩ : true = b ∧ s₁ = s' := by simpa using hs
        obtain ⟨m, -, ha⟩ := hyes rfl
        exact ⟨hdoes, nofun, fun _ => by rw [ha.place, Function.update_self]⟩
      | false =>
        obtain rfl := hno rfl
        simp only [Bool.false_eq_true, if_false] at hs
        split at hs
        case isTrue =>
          obtain ⟨rfl, rfl⟩ : false = b ∧ s₁ = s' := by simpa using hs
          exact ⟨.refl h, fun _ => hself, nofun⟩
        case isFalse hx => exact hloop (Bool.eq_false_of_not_eq_true hx) hs

end Merging

section Inserting

theorem insertSort_spec (h : Inv e k merging s) (hrq : s.place rq = .held) (hpriv : (s.queue.rqs rq).elvpriv = true)
    (hs : s.insertSort e k rq = some s') : Does e k merging (some rq) s s' ∧ s'.place rq = .waiting := by
  simp only [Stack.insertSort, Option.bind_eq_bind, Option.bind_eq_some_iff, Prod.exists] at hs
  obtain ⟨q', hq, o, w, hstep, hs⟩ := hs
  obtain rfl := Option.some.inj hs
  have hlegal : s.world.phase rq = .set := by
    rw [(h.located rq).phase, hrq]
    simp [Place.phase, hpriv]
  have hnox := (sortIn_spec h.hash ((h.located rq).flags.held hrq).hashed hq).1.noxmerges
  exact ⟨h.does (.sortedIn hrq hpriv hq (phase_addRequest hstep)) (h.meets.call (c := .addRequest rq) hlegal hstep) hnox,
    Function.update_self ..⟩

/-- A request on its way to the back stays on it while the scheduler is drained. -/
theorem dispatchFn_place (hc : e.Contract merging) (h : Inv e k merging s) {force : Bool}
    (hs : s.dispatchFn e force = some (o, s')) (hx : s.place x = .arriving) : s'.place x = .arriving := by
  simp only [Stack.dispatchFn, Option.bind_eq_bind, Option.bind_eq_some_iff, Prod.exists] at hs
  obtain ⟨o', w, hstep, hs⟩ := hs
  cases hd : o'.dispatched with
  | none =>
    simp only [hd, Option.some.injEq, Prod.mk.injEq] at hs
    obtain ⟨-, rfl⟩ := hs
    exact hx
  | some rq =>
    simp only [hd, Option.some.injEq, Prod.mk.injEq] at hs
    obtain ⟨-, rfl⟩ := hs
    obtain ⟨d, hcall, -⟩ := (e.toElevatorOps.step_eq_some).mp hstep
    have hp := h.place_waiting (hc.serves _ h.meets force o' d rq hcall hd)
    have hne : x ≠ rq := by
      rintro rfl
      rw [hx] at hp
      cases hp
    show Function.update s.place rq .queued x = _
    rw [Function.update_of_ne hne, hx]

theorem elvDrainElevator_place (hc : e.Contract merging) (h : Inv e k merging s)
    (hs : s.elvDrainElevator e fuel = some s') (hx : s.place x = .arriving) : s'.place x = .arriving := by
  induction fuel generalizing s with
  | zero => cases hs
  | succ fuel ih =>
    simp only [Stack.elvDrainElevator, Option.bind_eq_bind, Option.bind_eq_some_iff, Prod.exists] at hs
    obtain ⟨o, s₁, hd, hs⟩ := hs
    have hx₁ := dispatchFn_place hc h hd hx
    split at hs
    · exact ih (dispatchFn_spec (a := none) hc h hd).inv hs hx₁
    · obtain rfl := Option.some.inj hs
      exact hx₁

theorem insertBack_spec (hc : e.Contract merging) (h : Inv e k merging s) (hrq : s.place rq = .held)
    (hs : s.insertBack e rq fuel = some s') : Does e k merging (some rq) s s' ∧ s'.place rq = .queued := by
  simp only [Stack.insertBack, Option.bind_eq_bind, Option.bind_eq_some_iff] at hs
  obtain ⟨s₁, hdrain, hs⟩ := hs
  obtain rfl := Option.some.inj hs
  have harrive := h.does (.arrive hrq) h.meets rfl
  have hd := elvDrainElevator_spec (a := some rq) hc harrive.inv hdrain
  have hp : s₁.place rq = .arriving :=
    elvDrainElevator_place hc harrive.inv hdrain (by simp [Stack.put])
  exact ⟨harrive.trans (hd.trans (hd.inv.does (.back hp) hd.inv.meets rfl)), Function.update_self ..⟩

/-- `__elv_add_request` for a request of a submitter. -/
theorem elvAddRequest_spec (hc : e.Contract merging) (h : Inv e k merging s) {env : Rq → π} (hrq : s.place rq = .held)
    (hwhr : whr ≠ .requeue) (hs : s.elvAddRequest e k rq whr fuel env = some s') :
    Does e k merging (some rq) s s' ∧ s'.place rq ≠ .held ∧ s'.place rq ≠ .arriving := by
  have hfresh := (h.located rq).flags.held hrq
  have hnote : s.queue.noteBarrier rq = s.queue := by simp [noteBarrier, hfresh.softbarrier]
  have hat : Stack.insertionOf (s.queue.rqs rq) whr = whr ∨ Stack.insertionOf (s.queue.rqs rq) whr = .back := by
    unfold Stack.insertionOf
    split_ifs <;> simp
  have hpriv : Stack.insertionOf (s.queue.rqs rq) whr = .sort ∨ Stack.insertionOf (s.queue.rqs rq) whr = .sortMerge →
      (s.queue.rqs rq).elvpriv = true := by
    cases hp : (s.queue.rqs rq).elvpriv with
    | true => exact fun _ => rfl
    | false => cases whr <;> simp [Stack.insertionOf, hfresh.softbarrier, hp]
  have hsort {s₁ : Stack σ} (hi : Inv e k merging s₁) (hp : s₁.place rq = .held) (hpriv : (s₁.queue.rqs rq).elvpriv = true)
      (hs : s₁.insertSort e k rq = some s') :
      Does e k merging (some rq) s₁ s' ∧ s'.place rq ≠ .held ∧ s'.place rq ≠ .arriving := by
    obtain ⟨hdoes, hplace⟩ := insertSort_spec hi hp hpriv hs
    exact ⟨hdoes, by simp [hplace]⟩
  simp only [Stack.elvAddRequest, hnote] at hs
  cases hi : Stack.insertionOf (s.queue.rqs rq) whr with
  | requeue => simp_all
  | front =>
    simp only [hi] at hs
    obtain rfl := Option.some.inj hs
    exact ⟨h.does (.front hrq) h.meets rfl, by simp [Stack.put]⟩
  | back =>
    simp only [hi] at hs
    obtain ⟨hdoes, hplace⟩ := insertBack_spec hc h hrq hs
    exact ⟨hdoes, by simp [hplace]⟩
  | sort =>
    simp only [hi] at hs
    exact hsort h hrq (hpriv (.inl hi)) hs
  | sortMerge =>
    simp only [hi, Option.bind_eq_bind, Option.bind_eq_some_iff, Prod.exists] at hs
    obtain ⟨merged, s₁, hm, hs⟩ := hs
    obtain ⟨hdoes, hno, hyes⟩ := elvAttemptInsertMerge_spec h hrq hm
    cases merged with
    | true =>
      obtain rfl : s₁ = s' := by simpa using hs
      exact ⟨hdoes, by simp [hyes rfl]⟩
    | false =>
      simp only [Bool.false_eq_true, if_false] at hs
      have hu := hno rfl
      have hr := hu.rqs hfresh.hashed
      have hp : s₁.place rq = .held := by
        obtain ⟨q', -, rfl⟩ := hu
        exact hrq
      obtain ⟨hrest, hplace⟩ := hsort hdoes.inv hp (hr ▸ hpriv (.inr hi)) hs
      exact ⟨hdoes.trans hrest, hplace⟩

end Inserting

section Bios

variable {bio : Bio} {type : MergeType} {accepted : Bool}

/-- The `bio` lies at the given end of the request. -/
def Adjoins (k : BlkOps Bio) (bio : Bio) (r : Request) : MergeType → Prop
  | .no => False
  | .front => k.sector bio + k.sectors bio = r.pos
  | .back => r.endSector = k.sector bio

/-- The `bio` may be added to the request. -/
structure Fits (k : BlkOps Bio) (bio : Bio) (r : Request) (type : MergeType) : Prop where
  op : r.op = k.op bio
  write : r.write = k.write bio
  adjoins : Adjoins k bio r type

theorem elvMerge_spec (h : Inv e k merging s) {found : Option (Rq × MergeType)}
    (hs : s.queue.elvMerge k bio = some (found, q')) :
    Swept k s.queue q' ∧ ∀ p ∈ found, s.place p.1 = .waiting ∧ Fits k bio (q'.rqs p.1) p.2 := by
  have hrefl := Swept.refl h.hash
  unfold elvMerge at hs
  split at hs
  case isTrue =>
    obtain ⟨rfl, rfl⟩ : none = found ∧ s.queue = q' := by simpa using hs
    exact ⟨hrefl, by simp⟩
  case isFalse =>
    split at hs
    case h_1 rq hlast =>
      obtain ⟨rfl, rfl⟩ : some (rq, k.tryMerge (s.queue.rqs rq) bio) = found ∧ s.queue = q' := by simpa using hs
      obtain ⟨hl, hok⟩ := Option.filter_eq_some_iff.mp hlast
      refine ⟨hrefl, fun p hp => ?_⟩
      obtain rfl : (rq, k.tryMerge (s.queue.rqs rq) bio) = p := by simpa using hp
      have hclass : k.rqMergeOk (s.queue.rqs rq) bio = true ∧ k.tryMerge (s.queue.rqs rq) bio ≠ .no := by simpa using hok
      obtain ⟨hop, hwrite⟩ := k.rqMergeOk_class hclass.1
      refine ⟨(h.located rq).last hl, hop, hwrite, ?_⟩
      show Adjoins k bio (s.queue.rqs rq) (k.tryMerge (s.queue.rqs rq) bio)
      cases ht : k.tryMerge (s.queue.rqs rq) bio with
      | no => simp [ht] at hok
      | front => exact k.tryMerge_front ht
      | back => exact k.tryMerge_back ht
    case h_2 =>
      split at hs
      case isTrue =>
        obtain ⟨rfl, rfl⟩ : none = found ∧ s.queue = q' := by simpa using hs
        exact ⟨hrefl, by simp⟩
      case isFalse =>
        simp only [Option.bind_eq_bind, Option.bind_eq_some_iff, Prod.exists] at hs
        obtain ⟨hit, q'', hf, hs⟩ := hs
        obtain ⟨hswept, -, hfound⟩ := find_spec (a := none) h hf
        split at hs
        case h_1 rq hrq =>
          obtain ⟨rfl, rfl⟩ : some (rq, .back) = found ∧ q'' = q' := by simpa using hs
          refine ⟨hswept, fun p hp => ?_⟩
          obtain rfl : (rq, MergeType.back) = p := by simpa using hp
          obtain ⟨hf, hok⟩ := Option.filter_eq_some_iff.mp hrq
          obtain ⟨hwaits, hend⟩ := hfound rq hf
          obtain ⟨hop, hwrite⟩ := k.rqMergeOk_class hok
          exact ⟨hwaits, hop, hwrite, hend⟩
        case h_2 =>
          obtain ⟨rfl, rfl⟩ : none = found ∧ q'' = q' := by simpa using hs
          exact ⟨hswept, by simp⟩

/-- The state in which the `bio` has been added to `rq`. -/
def grown (k : BlkOps Bio) (bio : Bio) (s : Stack σ) (q : RequestQueue) (rq : Rq) (type : MergeType) : Stack σ :=
  { s with queue := q.modify rq (Stack.grow k bio type) }

/-- Nothing but the hash table, the flag `REQ_HASHED` and `last_merge` differs. -/
structure Rehashed (s s' : Stack σ) : Prop where
  place : s'.place = s.place
  waiting : s'.waiting = s.waiting
  driving : s'.driving = s.driving
  queueHead : s'.queue.queueHead = s.queue.queueHead
  endSector : s'.queue.endSector = s.queue.endSector
  rqs : ∀ x, ∃ b, s'.queue.rqs x = { s.queue.rqs x with hashed := b }

theorem rehashed_of_swept (h : Swept k s.queue q') : Rehashed s { s with queue := q' } where
  place := rfl
  waiting := rfl
  driving := rfl
  queueHead := h.lists.queueHead
  endSector := h.lists.endSector
  rqs x := by
    rcases h.rqs x with hr | ⟨-, hr⟩
    · exact ⟨(s.queue.rqs x).hashed, hr⟩
    · exact ⟨false, hr⟩

/-- What becomes of a `bio` that is taken: it is added to a request that waits, or it closes the gap to a neighbour,
and the two are merged. -/
inductive Joined (k : BlkOps Bio) (bio : Bio) (s s' : Stack σ) : Prop
  | added {q : RequestQueue} {rq : Rq} {type : MergeType} (hq : Swept k s.queue q) (hp : s.place rq = .waiting)
      (hfits : Fits k bio (q.rqs rq) type) (h : Rehashed (grown k bio s q rq type) s')
  | merged {q : RequestQueue} {rq a b : Rq} {type : MergeType} {m : Request} (hq : Swept k s.queue q)
      (hp : s.place rq = .waiting) (hfits : Fits k bio (q.rqs rq) type) (ha : s.place a = .waiting)
      (hb : s.place b = .waiting) (hm : k.attemptReqMerge ((grown k bio s q rq type).queue.rqs a)
        ((grown k bio s q rq type).queue.rqs b) = some m) (h : Absorbed (grown k bio s q rq type) s' a b m)

theorem grow_endSector (hf : Fits k bio m .front) : (Stack.grow k bio .front m).endSector = m.endSector := by
  have hadj : k.sector bio + k.sectors bio = m.pos := hf.adjoins
  simp only [Stack.grow, Request.endSector]
  omega

/-- A request that grows is where it was, though perhaps not under its key. -/
theorem Placed.grown (h : Placed k s) (bio : Bio) (hq : Swept k s.queue q) (hp : s.place rq = .waiting) (type : MergeType) :
    Arranged k (grown k bio s q rq type) ∧ HashExcept k (grown k bio s q rq type).queue rq := by
  have hsw := h.swept hq
  refine ⟨?_, (hq.ok.except rq).modify _⟩
  have hl : SameLists q (q.modify rq (Stack.grow k bio type)) := sameLists_modify
  apply hsw.resized hp (Stack.grow k bio type (q.rqs rq)).pos (Stack.grow k bio type (q.rqs rq)).sectors
    (q.rqs rq).hashed _ (.inl rfl) hl _ q.lastMerge (.inl rfl)
  show Function.update q.rqs rq _ = _
  cases type <;> rfl

theorem elvMergedRequest_spec (h : Inv e k merging s) (hq : Swept k s.queue q) (hp : s.place rq = .waiting)
    (hfits : Fits k bio (q.rqs rq) type)
    (hs : (q.modify rq (Stack.grow k bio type)).elvMergedRequest k rq type = some q') :
    Inv e k merging { s with queue := q' } ∧ Rehashed (grown k bio s q rq type) { s with queue := q' } := by
  obtain ⟨ha, hh⟩ := h.toPlaced.grown bio hq hp type
  have hnox : merging = false → q.noxmerges = true := fun hm => hq.lists.noxmerges.trans (h.quiet hm)
  cases type with
  | no => exact hfits.adjoins.elim
  | front =>
    obtain rfl : { q.modify rq (Stack.grow k bio .front) with lastMerge := some rq } = q' := by
      simpa [elvMergedRequest] using hs
    have hr := (h.toPlaced.swept hq).resized hp _ _ (q.rqs rq).hashed (q.modify rq (Stack.grow k bio .front)) (.inl rfl)
      sameLists_modify rfl (some rq) (.inr rfl)
    have hok : HashOk k (q.modify rq (Stack.grow k bio .front)) := hq.ok.modify rq _ rfl (grow_endSector hfits)
    exact ⟨⟨⟨hr, ⟨hok.nodup, hok.mem⟩⟩, h.meets, hnox⟩, ⟨rfl, rfl, rfl, rfl, rfl, fun x => ⟨_, rfl⟩⟩⟩
  | back =>
    obtain rfl : { relinked k (q.modify rq (Stack.grow k bio .back)) rq with lastMerge := some rq } = q' := by
      simpa [elvMergedRequest, elvRqhashReposition_eq] using hs
    have hr := (h.toPlaced.swept hq).resized hp (q.rqs rq).pos ((q.rqs rq).sectors + k.sectors bio) true
      (relinked k (q.modify rq (Stack.grow k bio .back)) rq) (.inr rfl) (sameLists_modify.trans sameLists_relinked)
      (by rw [relinked_rqs, modify_self]; exact Function.update_idem ..) (some rq) (.inr rfl)
    have hok := hh.relinked
    refine ⟨⟨⟨hr, ⟨hok.nodup, hok.mem⟩⟩, h.meets, hnox⟩, ⟨rfl, rfl, rfl, rfl, rfl, fun x => ?_⟩⟩
    rcases eq_or_ne x rq with rfl | hx
    · exact ⟨true, relinked_self (k := k)⟩
    · exact ⟨_, relinked_of_ne (k := k) hx⟩

/-- A request that has grown towards a neighbour may be merged with it. -/
theorem attemptMerge_spec (hc : e.Contract merging) (h : Inv e k merging s) (hq : Swept k s.queue q)
    (hp : s.place rq = .waiting) (hfits : Fits k bio (q.rqs rq) type)
    (hs : (grown k bio s q rq type).attemptMerge e k rq type env = some (b, s')) :
    b = false ∧ s' = grown k bio s q rq type ∨ b = true ∧ Inv e k merging s' ∧ Joined k bio s s' := by
  obtain ⟨ha, hh⟩ := h.toPlaced.grown bio hq hp type
  have hnox : merging = false → q.noxmerges = true := fun hm => hq.lists.noxmerges.trans (h.quiet hm)
  -- both neighbours wait, and only a scheduler that may merge names them
  have hpair {a c : Rq} (hwa : s.place a = .waiting) (hwc : s.place c = .waiting) (hmerging : merging = true)
      (hexc : HashExcept k (grown k bio s q rq type).queue a)
      (hrun : (grown k bio s q rq type).blkAttemptReqMerge e k a c env = some (b, s')) :
      b = false ∧ s' = grown k bio s q rq type ∨ b = true ∧ Inv e k merging s' ∧ Joined k bio s s' := by
    unfold Stack.blkAttemptReqMerge at hrun
    split at hrun
    case h_1 =>
      obtain ⟨rfl, rfl⟩ : false = b ∧ grown k bio s q rq type = s' := by simpa using hrun
      exact .inl ⟨rfl, rfl⟩
    case h_2 m hm =>
      simp only [Option.bind_eq_bind, Option.bind_eq_some_iff, Option.some.injEq, Prod.mk.injEq] at hrun
      obtain ⟨s₁, hreq, s₂, hfree, rfl, rfl⟩ := hrun
      obtain ⟨hplaced, hmeets, habs⟩ := ha.absorbed hexc h.meets hwa (.inl ⟨hwc, hmerging⟩) hm hreq hfree
      exact .inr ⟨rfl, ⟨hplaced, hmeets, fun hm => habs.noxmerges.trans (hnox hm)⟩, .merged hq hp hfits hwa hwc hm habs⟩
  have hadded := h.phase_added hp
  have hnone (hs : some (false, grown k bio s q rq type) = some (b, s')) :
      b = false ∧ s' = grown k bio s q rq type ∨ b = true ∧ Inv e k merging s' ∧ Joined k bio s s' := by
    obtain ⟨rfl, rfl⟩ : false = b ∧ grown k bio s q rq type = s' := by simpa using hs
    exact .inl ⟨rfl, rfl⟩
  cases type with
  | no => exact hfits.adjoins.elim
  | back =>
    simp only [Stack.attemptMerge] at hs
    split at hs
    case h_1 next hnext =>
      obtain ⟨f, hf, hfn⟩ := Option.bind_eq_some_iff.mp hnext
      have hmerging : merging = true := by
        cases hm : merging with
        | true => rfl
        | false => rw [(hc.quiet hm).1] at hf; cases hf
      exact hpair hp (h.place_waiting (hc.latter _ h.meets f hf rq next hadded hfn)) hmerging hh hs
    case h_2 => exact hnone hs
  | front =>
    simp only [Stack.attemptMerge] at hs
    split at hs
    case h_1 prev hprev =>
      obtain ⟨f, hf, hfn⟩ := Option.bind_eq_some_iff.mp hprev
      have hmerging : merging = true := by
        cases hm : merging with
        | true => rfl
        | false => rw [(hc.quiet hm).2] at hf; cases hf
      have hok : HashOk k (q.modify rq (Stack.grow k bio .front)) := hq.ok.modify rq _ rfl (grow_endSector hfits)
      exact hpair (h.place_waiting (hc.former _ h.meets f hf rq prev hadded hfn)) hp hmerging (hok.except prev) hs
    case h_2 => exact hnone hs

theorem mergeBio_spec (hc : e.Contract merging) (h : Inv e k merging s)
    (hs : s.mergeBio e k bio accepted env = some s') :
    Inv e k merging s' ∧ if (accepted && s.queue.takes k bio) = true then Joined k bio s s' else Rehashed s s' := by
  simp only [Stack.mergeBio, Option.bind_eq_bind, Option.bind_eq_some_iff, Prod.exists] at hs
  obtain ⟨found, q, hf, hs⟩ := hs
  obtain ⟨hq, hfound⟩ := elvMerge_spec h hf
  have hswept : Inv e k merging { s with queue := q } :=
    ⟨h.toPlaced.swept hq, h.meets, fun hm => hq.lists.noxmerges.trans (h.quiet hm)⟩
  cases found with
  | none =>
    obtain rfl := Option.some.inj hs
    rw [if_neg (by simp [takes, hf])]
    exact ⟨hswept, rehashed_of_swept hq⟩
  | some p =>
    obtain ⟨hp, hfits⟩ := hfound p rfl
    cases accepted with
    | false =>
      obtain rfl : { s with queue := q } = s' := by simpa using hs
      exact ⟨hswept, rehashed_of_swept hq⟩
    | true =>
      rw [if_pos (by simp [takes, hf])]
      simp only [if_true, Option.bind_eq_some_iff, Prod.exists] at hs
      obtain ⟨merged, s₁, hm, hs⟩ := hs
      rcases attemptMerge_spec hc h hq hp hfits hm with ⟨rfl, rfl⟩ | ⟨rfl, hinv, hj⟩
      · obtain ⟨q', hq', rfl⟩ := Option.map_eq_some_iff.mp (by simpa using hs)
        obtain ⟨hinv, hr⟩ := elvMergedRequest_spec h hq hp hfits hq'
        exact ⟨hinv, .added hq hp hfits hr⟩
      · obtain rfl : s₁ = s' := by simpa using hs
        exact ⟨hinv, hj⟩

end Bios

section Acts

variable {act : Act Bio α π}

theorem getRequest_spec (h : Inv e k merging s) {r : Request} {pid : Pid} {alloc : α} (hp : s.place rq = .free)
    (hr : r.Fresh) (hposs : r.elvpriv = true → e.possible s.world.elv alloc = true)
    (hs : s.getRequest e rq r pid alloc = some s') :
    Inv e k merging s' ∧ ∃ w, s' = { s.put rq .held with world := w, queue := s.queue.modify rq fun _ => r } := by
  have hidle : s.world.phase rq = .idle := by
    rw [(h.located rq).phase, hp]
    rfl
  unfold Stack.getRequest at hs
  split at hs
  case isTrue hpriv =>
    obtain ⟨w, hw, hs⟩ := Option.bind_eq_some_iff.mp hs
    obtain ⟨⟨o, w'⟩, hstep, rfl⟩ := Option.map_eq_some_iff.mp hw
    obtain rfl := Option.some.inj hs
    refine ⟨⟨h.toPlaced.got hp hr ?_, ?_, h.quiet⟩, w', rfl⟩
    · simp [phase_setRequest hstep, Place.phase, hpriv]
    · exact h.meets.call (c := .setRequest rq pid alloc) ⟨hidle, hposs hpriv⟩ hstep
  case isFalse hpriv =>
    obtain rfl := Option.some.inj hs
    refine ⟨⟨h.toPlaced.got hp hr ?_, h.meets, h.quiet⟩, _, rfl⟩
    simp only [Place.phase, if_neg hpriv, ← hidle, Function.update_eq_self]

/-- Where the boundary is once `rq` is inserted. -/
def barrierSector (q : RequestQueue) (r : Request) : Nat :=
  if r.softbarrier && r.fs then r.endSector else q.endSector

theorem noteBarrier_eq (q : RequestQueue) (rq : Rq) :
    ∃ r, q.noteBarrier rq = { q with endSector := barrierSector q (q.rqs rq), boundaryRq := r } := by
  unfold noteBarrier barrierSector
  split
  · exact ⟨_, rfl⟩
  · exact ⟨q.boundaryRq, rfl⟩

/-- The driver has returned `rq`, and the boundary may have moved behind it. -/
def returned (k : BlkOps Bio) (s : Stack σ) (rq : Rq) (b : Nat) (r : Option Rq) : Stack σ :=
  { s.put rq .queued with
    queue := { s.queue.countInFlight k rq (-1) with
      rqs := Function.update s.queue.rqs rq { s.queue.rqs rq with started := false, softbarrier := true }
      queueHead := rq :: s.queue.queueHead, endSector := b, boundaryRq := r }
    driving := s.driving.erase rq }

theorem Inv.returned (h : Inv e k merging s) (hp : s.place rq = .driving) (b : Nat) (r : Option Rq) :
    Inv e k merging (returned k s rq b r) where
  toPlaced := by
    have hback := h.toPlaced.requeued hp
    exact
      { located := fun x => (hback.located x).frame ⟨rfl, rfl, rfl, Iff.rfl, Iff.rfl, Iff.rfl, id⟩
        nodupWaiting := hback.nodupWaiting, nodupQueued := hback.nodupQueued, nodupDriving := hback.nodupDriving
        nrSorted := hback.nrSorted, inFlight := hback.inFlight, hash := ⟨hback.hash.nodup, hback.hash.mem⟩ }
  meets := h.meets
  quiet hm := by
    show (s.queue.countInFlight k rq (-1)).noxmerges = true
    rw [countInFlight_eq]
    exact h.quiet hm

theorem requeue_spec {env : Rq → π} (hs : s.elvRequeueRequest e k rq env = some s') :
    ∃ r, s' = returned k s rq (barrierSector s.queue (s.queue.rqs rq)) r := by
  have hrqs : (s.queue.countInFlight k rq (-1)).rqs = s.queue.rqs := countInFlight_rqs (-1)
  have hqueue : (s.queue.countInFlight k rq (-1)).queueHead = s.queue.queueHead := countInFlight_queueHead (-1)
  have hend : (s.queue.countInFlight k rq (-1)).endSector = s.queue.endSector := by rw [countInFlight_eq]
  obtain ⟨r, hn⟩ := noteBarrier_eq ((s.queue.countInFlight k rq (-1)).modify rq fun r => { r with started := false }) rq
  have hat (r : Request) : Stack.insertionOf r .requeue = .requeue := by
    unfold Stack.insertionOf
    split_ifs <;> simp_all
  simp only [Stack.elvRequeueRequest, Stack.elvAddRequest, hat, hn, Option.some.injEq] at hs
  refine ⟨r, hs.symm.trans ?_⟩
  simp only [returned, barrierSector, Request.endSector, hend, atFront, RequestQueue.modify, hrqs, hqueue, Function.update_idem, Function.update_self, Stack.put]

theorem completed_spec (h : Inv e k merging s) (hp : s.place rq = .driving)
    (hs : s.elvCompletedRequest e k rq = some s') :
    Inv e k merging s' ∧ ∃ w, s' = { s.put rq .ended with
      world := w, queue := s.queue.countInFlight k rq (-1), driving := s.driving.erase rq } := by
  have hph := (h.located rq).phase
  have hstarted := (h.located rq).flags.driving hp
  have hfs := (h.located rq).flags.sorted
  have hnox : merging = false → (s.queue.countInFlight k rq (-1)).noxmerges = true := by
    rw [countInFlight_eq]
    exact h.quiet
  simp only [Stack.elvCompletedRequest, Option.bind_eq_bind] at hs
  split at hs
  case isTrue hsorted =>
    have hsorted : (s.queue.rqs rq).sorted = true := by simp_all
    obtain ⟨w, hw, hs⟩ := Option.bind_eq_some_iff.mp hs
    obtain ⟨⟨o, w'⟩, hstep, rfl⟩ := Option.map_eq_some_iff.mp hw
    obtain rfl := Option.some.inj hs
    have hlegal : s.world.phase rq = .dispatched := by simp [hph, hp, Place.phase, hsorted]
    refine ⟨⟨h.toPlaced.completed hp ?_, h.meets.call (c := .completed rq) hlegal hstep, hnox⟩, w', rfl⟩
    simp [phase_completed hstep, Place.phase, hsorted]
  case isFalse hsorted =>
    -- a request that was sorted counts, so that this one was not
    have hsorted : (s.queue.rqs rq).sorted = false := by
      cases hsort : (s.queue.rqs rq).sorted with
      | false => rfl
      | true =>
        have hacc : k.account (s.queue.rqs rq) = true := (k.account_iff _).mpr ⟨hstarted, (hfs hsort).1⟩
        simp [hacc, hsort] at hsorted
    obtain rfl := Option.some.inj hs
    refine ⟨⟨h.toPlaced.completed hp ?_, h.meets, hnox⟩, _, rfl⟩
    have hsame : Place.phase (s.queue.rqs rq) .ended = s.world.phase rq := by simp [hph, hp, Place.phase, hsorted]
    rw [hsame, Function.update_eq_self]

/-- The state in which the first request is started and the boundary may have moved. -/
def peeked (s : Stack σ) (rq : Rq) (b : Nat) (r : Option Rq) : Stack σ :=
  { s with queue := { s.queue.modify rq fun r => { r with started := true } with endSector := b, boundaryRq := r } }

theorem Inv.peeked (h : Inv e k merging s) (hp : s.place rq = .queued) (b : Nat) (r : Option Rq) :
    Inv e k merging (peeked s rq b r) where
  toPlaced := by
    have hpeek := h.toPlaced.peeked hp
    exact
      { located := fun x => (hpeek.located x).frame ⟨rfl, rfl, rfl, Iff.rfl, Iff.rfl, Iff.rfl, id⟩
        nodupWaiting := hpeek.nodupWaiting, nodupQueued := hpeek.nodupQueued, nodupDriving := hpeek.nodupDriving
        nrSorted := hpeek.nrSorted, inFlight := hpeek.inFlight, hash := ⟨hpeek.hash.nodup, hpeek.hash.mem⟩ }
  meets := h.meets
  quiet := h.quiet

theorem peek_spec {boundary : Option Nat} (hs : s.peek boundary = some s') :
    ∃ rq rest r, s.queue.queueHead = rq :: rest ∧ s' = peeked s rq (boundary.getD s.queue.endSector) r := by
  unfold Stack.peek at hs
  split at hs
  case h_1 => cases hs
  case h_2 rq rest hq =>
    obtain rfl := Option.some.inj hs
    cases boundary with
    | none => exact ⟨rq, rest, s.queue.boundaryRq, hq, rfl⟩
    | some b => exact ⟨rq, rest, none, hq, rfl⟩

theorem dequeue_spec (hs : s.dequeue k = some s') : ∃ rq rest, s.queue.queueHead = rq :: rest ∧
    s' = { s.put rq .driving with
      queue := { s.queue.countInFlight k rq 1 with queueHead := rest }, driving := s.driving ++ [rq] } := by
  unfold Stack.dequeue at hs
  split at hs
  case h_1 => cases hs
  case h_2 rq rest hq => exact ⟨rq, rest, hq, (Option.some.inj hs).symm⟩

/-- Every act keeps the invariant. -/
theorem Inv.step (hc : e.Contract merging) (h : Inv e k merging s) (hl : Stack.legal e s act)
    (hs : Stack.step e k s act = some s') : Inv e k merging s' := by
  cases act with
  | getRequest rq r pid alloc => exact (getRequest_spec h hl.1 hl.2.1 hl.2.2 hs).1
  | addRequest rq whr fuel env => exact (elvAddRequest_spec hc h hl.1 hl.2 hs).1.inv
  | mergeBio bio accepted env => exact (mergeBio_spec hc h hs).1
  | forbidMerge rq =>
    obtain rfl := Option.some.inj hs
    exact ⟨h.toPlaced.forbidden hl, h.meets, h.quiet⟩
  | dispatch force =>
    obtain ⟨⟨o, s₁⟩, hd, rfl⟩ := Option.map_eq_some_iff.mp hs
    exact (dispatchFn_spec (a := none) hc h hd).inv
  | peek boundary =>
    obtain ⟨rq, rest, r, hq, rfl⟩ := peek_spec hs
    exact h.peeked ((h.located rq).queued.mp (by simp [hq])) _ _
  | dequeue =>
    obtain ⟨rq, rest, hq, rfl⟩ := dequeue_spec hs
    refine ⟨h.toPlaced.dequeued hq (hl rq (by simp [hq])), h.meets, fun hm => ?_⟩
    show (s.queue.countInFlight k rq 1).noxmerges = true
    rw [countInFlight_eq]
    exact h.quiet hm
  | requeue rq env =>
    obtain ⟨r, rfl⟩ := requeue_spec hs
    exact h.returned hl _ r
  | completed rq => exact (completed_spec h hl hs).1
  | putRequest rq env =>
    obtain ⟨hp, hm, w, rfl⟩ := h.toPlaced.freeRequest h.meets hl hs
    exact ⟨hp, hm, h.quiet⟩

theorem Inv.init (e : ElevatorType σ α π) (k : BlkOps Bio) {nomerges noxmerges : Bool}
    (hq : merging = false → noxmerges = true) : Inv e k merging (Stack.init e nomerges noxmerges) :=
  ⟨.init e k nomerges noxmerges, .init, hq⟩

theorem Inv.of_reachable (hc : e.Contract merging) {nomerges noxmerges : Bool} (hq : merging = false → noxmerges = true)
    (h : (Stack.machine e k).Reachable (Stack.init e nomerges noxmerges) s) : Inv e k merging s := by
  apply h.invariant _ (.init e k hq)
  intro u act o v hu hl hs
  obtain ⟨v', hv, he⟩ := Option.map_eq_some_iff.mp hs
  obtain rfl : v' = v := congrArg Prod.snd he
  exact hu.step hc hl hv

end Acts

end SsdScheduler.Elevator
