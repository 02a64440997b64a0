import SsdScheduler.Elevator.Moves

/-!
# Merging requests

A request that is merged away leaves the scheduler, the hash table and the count of sorted requests, the request
it was appended to stays where it is, and the loop of `elv_attempt_insert_merge` only ever merges requests that
wait, after the one that is being inserted.
-/

namespace SsdScheduler.Elevator

open Framework RequestQueue

variable {σ α π Bio : Type} {e : ElevatorType σ α π} {k : BlkOps Bio} {s s₁ s' : Stack σ} {q q' : RequestQueue}
  {rq next x : Rq} {m : Request} {merging : Bool} {w : World σ} {env : π}

/-- What `ELEVATOR_INSERT_SORT` does to the queue. -/
structure SortedIn (k : BlkOps Bio) (q q' : RequestQueue) (rq : Rq) : Prop where
  fs : (q.rqs rq).fs = true
  rqs : q'.rqs = Function.update q.rqs rq { q.rqs rq with sorted := true, hashed := k.mergeable (q.rqs rq) }
  queueHead : q'.queueHead = q.queueHead
  endSector : q'.endSector = q.endSector
  nrSorted : q'.nrSorted = q.nrSorted + 1
  inFlight : q'.inFlight = q.inFlight
  noxmerges : q'.noxmerges = q.noxmerges
  last : ∀ x, q'.lastMerge = some x → q.lastMerge = some x ∨ x = rq

theorem markSorted_self : (q.markSorted rq).rqs rq = { q.rqs rq with sorted := true } := Function.update_self ..

theorem HashOk.markSorted (h : HashOk k q) (hh : (q.rqs rq).hashed = false) : HashOk k (q.markSorted rq) := by
  have hok := h.modify_of_not_hashed (f := fun r => { r with sorted := true }) hh hh
  exact ⟨hok.nodup, hok.mem⟩

theorem sortIn_spec (h : HashOk k q) (hh : (q.rqs rq).hashed = false) (hs : q.sortIn k rq = some q') :
    SortedIn k q q' rq ∧ HashOk k q' := by
  have hkind : k.mergeable ((q.markSorted rq).rqs rq) = k.mergeable (q.rqs rq) := by
    rw [markSorted_self]
    exact k.mergeable_congr ⟨rfl, rfl, rfl, rfl, rfl⟩
  have hmh : ((q.markSorted rq).rqs rq).hashed = false := by
    rw [markSorted_self]
    exact hh
  unfold sortIn at hs
  split at hs
  case isTrue => cases hs
  case isFalse hfs =>
    have hfs : (q.rqs rq).fs = true := by simpa using hfs
    simp only [hkind] at hs
    split at hs
    case isTrue hm =>
      rw [elvRqhashAdd_eq hmh] at hs
      obtain rfl := Option.some.inj hs
      have hl := (HashOk.markSorted h hh).link hmh
      refine ⟨⟨hfs, ?_, rfl, rfl, rfl, rfl, rfl, fun x hx => ?_⟩, ⟨hl.nodup, hl.mem⟩⟩
      · rw [hm]
        show Function.update (Function.update q.rqs rq _) rq { (q.markSorted rq).rqs rq with hashed := true } = _
        rw [Function.update_idem, markSorted_self]
      · change (q.lastMerge.orElse fun _ => some rq) = some x at hx
        cases hlast : q.lastMerge with
        | none =>
          rw [hlast] at hx
          exact .inr (Option.some.inj hx).symm
        | some y =>
          rw [hlast] at hx
          exact .inl hx
    case isFalse hm =>
      obtain rfl := Option.some.inj hs
      refine ⟨⟨hfs, ?_, rfl, rfl, rfl, rfl, rfl, fun x hx => .inl hx⟩, HashOk.markSorted h hh⟩
      have hr : ({ q.rqs rq with sorted := true, hashed := k.mergeable (q.rqs rq) } : Request) =
          { q.rqs rq with sorted := true } := by
        rw [Bool.eq_false_of_not_eq_true hm, ← hh]
      rw [hr]
      rfl

/-- `ELEVATOR_INSERT_SORT`. -/
theorem Placed.sortedIn (h : Placed k s) (hp : s.place rq = .held) (hpriv : (s.queue.rqs rq).elvpriv = true)
    (hq : s.queue.sortIn k rq = some q') (hw : w.phase = Function.update s.world.phase rq .added) :
    Placed k { s.put rq .waiting with world := w, queue := q', waiting := s.waiting ++ [rq] } := by
  have hfresh := (h.located rq).flags.held hp
  obtain ⟨hin, hok⟩ := sortIn_spec h.hash hfresh.hashed hq
  refine ⟨h.moved rq .waiting
    { s.queue.rqs rq with sorted := true, hashed := k.mergeable (s.queue.rqs rq) } ?_ ?_ ?_, hok⟩
  · constructor
    case place => rfl
    case rqs => exact hin.rqs
    case phase => exact hw
    case waiting => exact relisted_new rfl (h.notMem_waiting (by simp [hp])) (List.perm_append_singleton ..)
    case queued =>
      rw [hin.queueHead]
      exact relisted_same (by simp [(h.located rq).queued, hp])
    case driving => exact relisted_same (by simp [(h.located rq).driving, hp])
    case last =>
      intro x hl
      rcases hin.last x hl with hl | rfl
      · exact h.keeps_last (by simp [hp]) hl
      · simp
    case nrSorted => simp [hin.nrSorted, hp]
    case inFlight => simp [hin.inFlight, hp]
  · refine ⟨by simp, by simp, fun _ => ⟨rfl, hfresh.started, hfresh.softbarrier⟩, by simp, by simp, fun _ => ⟨hin.fs, hpriv⟩⟩
  · intro _ hm
    have hkind : k.mergeable { s.queue.rqs rq with sorted := true, hashed := k.mergeable (s.queue.rqs rq) } =
        k.mergeable (s.queue.rqs rq) := k.mergeable_congr ⟨rfl, rfl, rfl, rfl, rfl⟩
    exact hkind.symm.trans hm

/-- Requests that are not mergeable leave the hash table. -/
theorem Placed.swept (h : Placed k s) (hsw : Swept k s.queue q') : Placed k { s with queue := q' } where
  located x := by
    rcases hsw.rqs x with hr | ⟨hm, hr⟩
    · exact (h.located x).frame ⟨rfl, hr, rfl, Iff.rfl, by simp [hsw.lists.queueHead], Iff.rfl,
        fun hl => hsw.lists.lastMerge ▸ hl⟩
    · have hx := h.located x
      constructor
      case waiting => exact hx.waiting
      case queued => simpa [hsw.lists.queueHead] using hx.queued
      case driving => exact hx.driving
      case phase => cases hp : s.place x <;> simpa [hp, hr, Place.phase] using hx.phase
      case flags =>
        rw [hr]
        refine ⟨fun hp => ?_, hx.flags.arriving, hx.flags.waiting, hx.flags.driving, by simp, hx.flags.sorted⟩
        have hf := hx.flags.held hp
        exact ⟨hf.softbarrier, hf.started, hf.sorted, rfl⟩
      case mergeable =>
        intro _ hmx
        rw [hr, mergeable_hashed, hm] at hmx
        cases hmx
      case last => exact fun hl => hx.last (hsw.lists.lastMerge ▸ hl)
  nodupWaiting := h.nodupWaiting
  nodupQueued := hsw.lists.queueHead ▸ h.nodupQueued
  nodupDriving := h.nodupDriving
  nrSorted := hsw.lists.nrSorted.trans h.nrSorted
  inFlight i := by
    have hsame : ∀ x ∈ s.driving, q'.rqs x = s.queue.rqs x := ?_
    · rw [hsw.lists.inFlight, h.inFlight]
      exact congrArg Nat.cast (flights_congr s { s with queue := q' } rfl hsame i).symm
    intro x hx
    have hp := (h.located x).driving.mp hx
    rcases hsw.rqs x with hr | ⟨-, hr⟩
    · exact hr
    · rw [hr]
      have hh : false = (s.queue.rqs x).hashed := (h.hashed_eq_false x (by simp [hp])).symm
      rw [hh]
  hash := hsw.ok

/-- A request that may not be merged any more. -/
theorem Placed.forbidden (h : Placed k s) (hp : s.place rq = .waiting) : Placed k (s.forbidMerge rq) where
  toArranged := by
    obtain ⟨hsorted, hstarted, hsoft⟩ := (h.located rq).flags.waiting hp
    apply h.moved rq .waiting { s.queue.rqs rq with nomerge := true }
    · constructor
      case place => simp [Stack.forbidMerge, ← hp]
      case rqs => rfl
      case phase =>
        have hph := (h.located rq).phase
        simp only [hp, Place.phase] at hph
        simp [Stack.forbidMerge, Place.phase, ← hph]
      case waiting => exact relisted_same (by simp [(h.located rq).waiting, hp])
      case queued => exact relisted_same (by simp [(h.located rq).queued, hp])
      case driving => exact relisted_same (by simp [(h.located rq).driving, hp])
      case last =>
        intro x hl
        split
        · rfl
        · by_cases hlast : s.queue.lastMerge = some rq
          · simp [Stack.forbidMerge, hlast] at hl
          · simpa [Stack.forbidMerge, hlast] using hl
      case nrSorted => simp [hp, Stack.forbidMerge]
      case inFlight => simp [hp, Stack.forbidMerge]
    · refine ⟨by simp, by simp, fun _ => ⟨hsorted, hstarted, hsoft⟩, by simp, by simp, (h.located rq).flags.sorted⟩
    · intro _ hm
      rw [k.mergeable_nomerge rfl] at hm
      cases hm
  hash := by
    have hok := h.hash.modify rq (fun r => { r with nomerge := true }) rfl rfl
    exact ⟨hok.nodup, hok.mem⟩

/-- A request that waits has changed in nothing but its sectors, and is put under its key if it is `q'` that
says so. -/
theorem Arranged.resized (h : Arranged k s) (hp : s.place rq = .waiting) (pos sectors : Nat) (hashed : Bool)
    (q' : RequestQueue) (hh : hashed = (s.queue.rqs rq).hashed ∨ hashed = true) (hl : SameLists s.queue q')
    (hr : q'.rqs = Function.update s.queue.rqs rq { s.queue.rqs rq with pos := pos, sectors := sectors, hashed := hashed })
    (last : Option Rq) (hlast : last = s.queue.lastMerge ∨ last = some rq) :
    Arranged k { s with queue := { q' with lastMerge := last } } := by
  obtain ⟨hsorted, hstarted, hsoft⟩ := (h.located rq).flags.waiting hp
  apply h.moved rq .waiting { s.queue.rqs rq with pos := pos, sectors := sectors, hashed := hashed }
  · constructor
    case place => simp [← hp]
    case rqs => exact hr
    case phase =>
      have hph := (h.located rq).phase
      simp only [hp, Place.phase] at hph
      simp [Place.phase, ← hph]
    case waiting => exact relisted_same (by simp [(h.located rq).waiting, hp])
    case queued =>
      show Relisted _ rq s.queue.queueHead q'.queueHead
      rw [hl.queueHead]
      exact relisted_same (by simp [(h.located rq).queued, hp])
    case driving => exact relisted_same (by simp [(h.located rq).driving, hp])
    case last =>
      intro x hx
      split
      · rfl
      · rcases hlast with rfl | rfl
        · exact hl.lastMerge ▸ hx
        · simp_all
    case nrSorted => simp [hp, hl.nrSorted]
    case inFlight => simp [hp, hl.inFlight]
  · exact ⟨by simp, by simp, fun _ => ⟨hsorted, hstarted, hsoft⟩, by simp, fun _ => rfl, (h.located rq).flags.sorted⟩
  · intro _ hm
    rcases hh with rfl | rfl
    · refine (h.located rq).mergeable hp ?_
      rw [← hm]
      exact k.mergeable_congr ⟨rfl, rfl, rfl, rfl, rfl⟩
    · rfl

/-- `rq`, which is `m` now, has taken in the request `next`. -/
structure Absorbed (s s' : Stack σ) (rq next : Rq) (m : Request) : Prop where
  place : s'.place = Function.update s.place next .free
  self : s'.queue.rqs rq = { m with hashed := true }
  others : ∀ x, x ≠ rq → x ≠ next → s'.queue.rqs x = s.queue.rqs x
  waiting : s'.waiting = s.waiting.erase next
  driving : s'.driving = s.driving
  queueHead : s'.queue.queueHead = s.queue.queueHead
  endSector : s'.queue.endSector = s.queue.endSector
  lastMerge : s'.queue.lastMerge = some rq
  nomerges : s'.queue.nomerges = s.queue.nomerges
  noxmerges : s'.queue.noxmerges = s.queue.noxmerges

theorem freeRequest_spec (hs : s.freeRequest e rq env = some s') :
    ∃ w, s' = { s.put rq .free with world := w } ∧
      if (s.queue.rqs rq).elvpriv = true then ∃ o, e.machine.step s.world (.putRequest rq env) = some (o, w)
      else w = s.world := by
  unfold Stack.freeRequest at hs
  split at hs
  case isTrue hpriv =>
    obtain ⟨w, hw, hs⟩ := Option.bind_eq_some_iff.mp hs
    obtain ⟨⟨o, w'⟩, hstep, rfl⟩ := Option.map_eq_some_iff.mp hw
    refine ⟨w', (Option.some.inj hs).symm, ?_⟩
    rw [if_pos hpriv]
    exact ⟨o, hstep⟩
  case isFalse hpriv =>
    refine ⟨s.world, (Option.some.inj hs).symm, ?_⟩
    rw [if_neg hpriv]

/-- `__blk_put_request` for a request that does not wait. -/
theorem Placed.freeRequest (h : Placed k s) (hmeets : e.Meets merging s.world)
    (hp : s.place rq = .held ∨ s.place rq = .ended) (hs : s.freeRequest e rq env = some s') :
    Placed k s' ∧ e.Meets merging s'.world ∧ ∃ w, s' = { s.put rq .free with world := w } := by
  obtain ⟨w, rfl, hw⟩ := freeRequest_spec hs
  have hph := (h.located rq).phase
  have hsorted := (h.located rq).flags.sorted
  split at hw
  case isTrue hpriv =>
    obtain ⟨o, hstep⟩ := hw
    have hlegal : s.world.phase rq = .set ∨ s.world.phase rq = .completed := by
      rcases hp with hp | hp
      · simp [hph, hp, Place.phase, hpriv]
      · cases hsort : (s.queue.rqs rq).sorted <;> simp [hph, hp, Place.phase, hpriv, hsort]
    exact ⟨h.freed hp (phase_putRequest hstep), hmeets.call (c := .putRequest rq env) hlegal hstep, w, rfl⟩
  case isFalse hpriv =>
    subst hw
    refine ⟨h.freed hp ?_, hmeets, _, rfl⟩
    have hidle : s.world.phase rq = .idle := by
      have hs : (s.queue.rqs rq).sorted ≠ true := fun hs => hpriv (hsorted hs).2
      rcases hp with hp | hp <;> simp [hph, hp, Place.phase, hpriv, hs]
    rw [← hidle, Function.update_eq_self]

/-- The queue after the first half of a merge: `rq` is `m`, and under its new key. -/
def mergedInto (k : BlkOps Bio) (q : RequestQueue) (rq : Rq) (m : Request) : RequestQueue :=
  { relinked k (q.modify rq fun _ => m) rq with lastMerge := some rq }

/-- The second half of a merge takes `next` out of the hash table and the count. -/
theorem elvMergeRequests_eq (hne : rq ≠ next) :
    { s with queue := s.queue.modify rq fun _ => m }.elvMergeRequests e k rq next = some
      (if (s.queue.rqs next).sorted = true then
        { s with
          world := { s.world with elv := Stack.mergeReq e s.world.elv rq next }
          queue := { (relinked k (s.queue.modify rq fun _ => m) rq).elvRqhashDel next with
            nrSorted := s.queue.nrSorted - 1, lastMerge := some rq }
          waiting := s.waiting.erase next }
      else { s with queue := mergedInto k s.queue rq m }) := by
  have hn : ((s.queue.modify rq fun _ => m).rqs next).sorted = (s.queue.rqs next).sorted := by
    rw [modify_of_ne hne.symm]
  unfold Stack.elvMergeRequests
  simp only [hn, elvRqhashReposition_eq, Option.bind_eq_bind, Option.bind_some]
  split <;> rfl

/-- After the first half of a merge both requests are still where they were. -/
theorem Arranged.firstHalf (h : Arranged k s) (hh : HashExcept k s.queue rq) (hrq : s.place rq = .waiting)
    (hm : k.attemptReqMerge (s.queue.rqs rq) (s.queue.rqs next) = some m) :
    Placed k { s with queue := mergedInto k s.queue rq m } where
  toArranged := by
    have hl : SameLists s.queue (relinked k (s.queue.modify rq fun _ => m) rq) := sameLists_modify.trans sameLists_relinked
    apply h.resized hrq (s.queue.rqs rq).pos ((s.queue.rqs rq).sectors + (s.queue.rqs next).sectors) true _ (.inr rfl)
      hl _ _ (.inr rfl)
    rw [relinked_rqs, modify_self, k.merged_eq hm]
    exact Function.update_idem ..
  hash := ⟨(hh.modify fun _ => m).relinked.nodup, (hh.modify fun _ => m).relinked.mem⟩

theorem ne_of_merged (hm : k.attemptReqMerge (s.queue.rqs rq) (s.queue.rqs next) = some m) : rq ≠ next := by
  rintro rfl
  have hadj := k.merged_adjacent hm
  have hpos := k.merged_sectors hm
  simp only [Request.endSector] at hadj
  omega

theorem Arranged.absorbed (h : Arranged k s) (hh : HashExcept k s.queue rq) (hmeets : e.Meets merging s.world)
    (hrq : s.place rq = .waiting) (hnext : s.place next = .waiting ∧ merging = true ∨ s.place next = .held)
    (hm : k.attemptReqMerge (s.queue.rqs rq) (s.queue.rqs next) = some m)
    (hs : { s with queue := s.queue.modify rq fun _ => m }.elvMergeRequests e k rq next = some s₁)
    (hs' : s₁.freeRequest e next env = some s') :
    Placed k s' ∧ e.Meets merging s'.world ∧ Absorbed s s' rq next m := by
  have hne := ne_of_merged hm
  have hplaced := h.firstHalf hh hrq hm
  rw [elvMergeRequests_eq hne] at hs
  rcases hnext with ⟨hnext, hmerging⟩ | hnext
  · -- the scheduler forgets a request it holds
    have hsorted := ((h.located next).flags.waiting hnext).1
    have hpriv := ((h.located next).flags.sorted hsorted).2
    rw [if_pos hsorted] at hs
    obtain rfl := Option.some.inj hs
    obtain ⟨w, rfl, hw⟩ := freeRequest_spec hs'
    have hdel : ((relinked k (s.queue.modify rq fun _ => m) rq).elvRqhashDel next).rqs =
        Function.update (mergedInto k s.queue rq m).rqs next { s.queue.rqs next with hashed := false } := by
      rw [elvRqhashDel_rqs, relinked_of_ne hne.symm, modify_of_ne hne.symm]
      rfl
    have hlists : SameLists (mergedInto k s.queue rq m) { (relinked k (s.queue.modify rq fun _ => m) rq).elvRqhashDel next with
        lastMerge := some rq } := by
      have hd := sameLists_elvRqhashDel (relinked k (s.queue.modify rq fun _ => m) rq) next
      exact ⟨hd.queueHead, rfl, hd.endSector, hd.boundaryRq, hd.nrSorted, hd.inFlight, hd.nomerges, hd.noxmerges⟩
    have hput : ∃ o, e.machine.step { s.world with elv := Stack.mergeReq e s.world.elv rq next } (.putRequest next env) =
        some (o, w) := by
      have hp : (((relinked k (s.queue.modify rq fun _ => m) rq).elvRqhashDel next).rqs next).elvpriv = true := by
        rw [hdel, Function.update_self]
        exact hpriv
      simpa [hp] using hw
    obtain ⟨o, hstep⟩ := hput
    refine ⟨⟨hplaced.moved next .free { s.queue.rqs next with hashed := false } ?_ ?_ (by simp), ?_⟩,
      ?_, ?_⟩
    · constructor
      case place => rfl
      case rqs => exact hdel
      case phase =>
        have hph := phase_putRequest hstep
        exact hph
      case waiting => exact relisted_erase _ _ (by simp)
      case queued =>
        show Relisted _ next _ ((relinked k (s.queue.modify rq fun _ => m) rq).elvRqhashDel next).queueHead
        rw [hlists.queueHead]
        exact relisted_same (by simp [(hplaced.located next).queued, hnext])
      case driving => exact relisted_same (by simp [(hplaced.located next).driving, hnext])
      case last =>
        intro x hl
        obtain rfl : rq = x := Option.some.inj hl
        rw [if_neg hne]
        rfl
      case nrSorted =>
        have hcount : (mergedInto k s.queue rq m).nrSorted = s.queue.nrSorted := rfl
        simp [hnext, Stack.put, hcount]
      case inFlight =>
        intro i
        show ((relinked k (s.queue.modify rq fun _ => m) rq).elvRqhashDel next).inFlight i = _
        rw [hlists.inFlight]
        simp [hnext]
    · exact .idle (by simp) rfl (h.located next).flags.sorted
    · have hok := (hh.modify fun _ => m).relinked.del next
      exact ⟨hok.nodup, hok.mem⟩
    · have hphase (x : Rq) (hx : s.place x = .waiting) : s.world.phase x = .added := by
        rw [(h.located x).phase, hx]
        rfl
      exact hmeets.mergeReq hmerging (hphase rq hrq) (hphase next hnext) hne hstep
    · constructor
      case place => rfl
      case self =>
        show ((relinked k (s.queue.modify rq fun _ => m) rq).elvRqhashDel next).rqs rq = _
        rw [elvRqhashDel_of_ne hne, relinked_self, modify_self]
      case others =>
        intro x hx hx'
        show ((relinked k (s.queue.modify rq fun _ => m) rq).elvRqhashDel next).rqs x = _
        rw [elvRqhashDel_of_ne hx', relinked_of_ne hx, modify_of_ne hx]
      case waiting => rfl
      case driving => rfl
      case queueHead => exact hlists.queueHead
      case endSector => exact hlists.endSector
      case lastMerge => rfl
      case nomerges => exact hlists.nomerges
      case noxmerges => exact hlists.noxmerges
  · -- the new request never reaches the scheduler
    have hfresh := (h.located next).flags.held hnext
    rw [if_neg (by simp [hfresh.sorted])] at hs
    obtain rfl := Option.some.inj hs
    obtain ⟨hp, hmeets', w, rfl⟩ := hplaced.freeRequest hmeets (.inl hnext) hs'
    refine ⟨hp, hmeets', ?_⟩
    constructor
    case place => rfl
    case self =>
      show (relinked k (s.queue.modify rq fun _ => m) rq).rqs rq = _
      rw [relinked_self, modify_self]
    case others =>
      intro x hx _
      show (relinked k (s.queue.modify rq fun _ => m) rq).rqs x = _
      rw [relinked_of_ne hx, modify_of_ne hx]
    case waiting => exact (List.erase_of_not_mem (h.notMem_waiting (by simp [hnext]))).symm
    case driving => rfl
    case queueHead => rfl
    case endSector => rfl
    case lastMerge => rfl
    case nomerges => rfl
    case noxmerges => rfl

end SsdScheduler.Elevator
