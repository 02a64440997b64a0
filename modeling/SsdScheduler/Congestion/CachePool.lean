import SsdScheduler.Congestion.DepthGate

/-!
# `congestion_experiment/noop_with_congestion.c` and `cache_pool_noop.c`

Both keep a record of `noop_pool` for every request and link the records into one list. The first tests the depth
before it dispatches and has a timer, the second does neither; the rest is the same text. A record that is missing
is followed as a null pointer. `nd->out_req` is the first record of the list and not kept.
-/

namespace SsdScheduler.Congestion

open Framework Elevator

/-- A record of `noop_pool`. -/
abbrev Addr := Nat

/-- `struct noop_request`; its `queuelist` link is the membership in the list. -/
structure NoopRequest where
  rq : Option Rq
deriving DecidableEq

/-- `struct noop_data` with the timer (armed or not) and the work item (scheduled or not), the records of `noop_pool`
and the `elv.priv[0]` pointers of the requests. -/
structure NoopData where
  queue : List Addr
  depth : Int
  nrSize : Int
  idleSliceTimer : Bool
  unplugWork : Bool
  pool : Addr → NoopRequest
  live : Addr → Bool
  priv0 : Rq → Option Addr

/-- `REQUEST_DEPTH`, if it is tested, and whether there is a timer. -/
structure Version where
  requestDepth : Option Int
  timer : Bool

def noopInitQueue : NoopData where
  queue := []
  depth := 0
  nrSize := 0
  idleSliceTimer := false
  unplugWork := false
  pool := fun _ => ⟨none⟩
  live := fun _ => false
  priv0 := fun _ => none

/-- `nr` is what `kmem_cache_alloc_node` returns: a record of zeros, or `NULL`. -/
def noopSetRequest (nd : NoopData) (rq : Rq) (_pid : Pid) (nr : Option Addr) : Option (Out × NoopData) :=
  match nr with
  | some a =>
    some (.quiet false, { nd with
      priv0 := Function.update nd.priv0 rq (some a), pool := Function.update nd.pool a ⟨none⟩,
      live := Function.update nd.live a true })
  | none => some (.quiet false, { nd with priv0 := Function.update nd.priv0 rq none })

def noopAddRequest (nd : NoopData) (rq : Rq) : Option (Out × NoopData) := do
  let a ← nd.priv0 rq
  some (.quiet false, { nd with
    pool := Function.update nd.pool a ⟨some rq⟩, nrSize := nd.nrSize + 1, queue := nd.queue ++ [a] })

/-- The flag `force` is not looked at. `elv_dispatch_sort` does not survive a `NULL` request. -/
def noopDispatch (v : Version) (nd : NoopData) (_force : Bool) : Option (Out × NoopData) :=
  if IsOpen v.requestDepth nd.depth then
    let nd := if v.timer then { nd with idleSliceTimer := false } else nd
    match nd.queue with
    | [] => some (.quiet false, nd)
    | a :: rest => do
      let rq ← (nd.pool a).rq
      some (⟨1, some rq, false⟩, { nd with queue := rest, depth := nd.depth + 1 })
  else some (.quiet false, nd)

def noopCompleted (v : Version) (nd : NoopData) (_rq : Rq) : Option (Out × NoopData) :=
  let nd := { nd with depth := nd.depth - 1, nrSize := nd.nrSize - 1 }
  if 0 < nd.nrSize then some (.quiet true, { nd with idleSliceTimer := v.timer, unplugWork := true })
  else some (.quiet false, nd)

/-- `junk` is what the freed record holds afterwards. -/
def noopPutRequest (nd : NoopData) (rq : Rq) (junk : NoopRequest) : Option (Out × NoopData) :=
  match nd.priv0 rq with
  | some a =>
    some (.quiet false, { nd with pool := Function.update nd.pool a junk, live := Function.update nd.live a false })
  | none => some (.quiet false, nd)

def elevatorType (v : Version) : ElevatorType NoopData (Option Addr) NoopRequest where
  initQueue := noopInitQueue
  possible nd nr := nr.all fun a => !nd.live a
  setRequest := noopSetRequest
  addRequest := noopAddRequest
  dispatch := noopDispatch v
  completed := noopCompleted v
  putRequest := noopPutRequest
  mergeReqFn := none
  formerReqFn := none
  latterReqFn := none

/-- `noop_with_congestion.c`. -/
def noopWithCongestion : Version := ⟨some 1, true⟩

/-- `cache_pool_noop.c`, where the test of the depth is commented out. -/
def cachePoolNoop : Version := ⟨none, false⟩

/-- What the scheduler shows of its state. -/
def view (nd : NoopData) : Gate := ⟨nd.queue.filterMap fun a => (nd.pool a).rq, nd.depth⟩

/-- The records in the list are those of the requests that wait, no two requests under way have the same record, and
`nr_size` counts the requests that wait or are outstanding. -/
structure Linked (w : World NoopData) : Prop where
  nodup : w.elv.queue.Nodup
  linked : ∀ a ∈ w.elv.queue, ∃ rq, (w.elv.pool a).rq = some rq ∧ w.phase rq = .added ∧ w.elv.priv0 rq = some a
  unique : ∀ rq rq' a, w.phase rq ≠ .idle → w.phase rq' ≠ .idle → w.elv.priv0 rq = some a → w.elv.priv0 rq' = some a →
    rq = rq'
  live : ∀ rq a, w.phase rq ≠ .idle → w.elv.priv0 rq = some a → w.elv.live a = true
  count : w.elv.nrSize = w.elv.queue.length + w.elv.depth

variable {v : Version} {w : World NoopData} {rq : Rq} {a : Addr} {pid : Pid} {o : Out} {nd : NoopData}

section Calls

theorem Linked.not_mem (h : Linked w) (hp : w.elv.priv0 rq = some a) (hidle : w.phase rq ≠ .idle)
    (hadded : w.phase rq ≠ .added) : a ∉ w.elv.queue := by
  intro ha
  obtain ⟨r, -, hr, hpriv⟩ := h.linked a ha
  obtain rfl := h.unique r rq a (by simp [hr]) hidle hpriv hp
  exact hadded hr

theorem Linked.mem_live (h : Linked w) (ha : a ∈ w.elv.queue) : w.elv.live a = true := by
  obtain ⟨r, -, hr, hpriv⟩ := h.linked a ha
  exact h.live r a (by simp [hr]) hpriv

theorem Linked.not_mem_of_free (h : Linked w) (hfree : w.elv.live a = false) : a ∉ w.elv.queue := by
  intro ha
  rw [h.mem_live ha] at hfree
  cases hfree

theorem filterMap_update {l : List Addr} {pool : Addr → NoopRequest} {r : NoopRequest} (ha : a ∉ l) :
    (l.filterMap fun b => (Function.update pool a r b).rq) = l.filterMap fun b => (pool b).rq := by
  apply List.filterMap_congr
  intro b hb
  rw [Function.update_of_ne]
  rintro rfl
  exact ha hb

theorem phase_of_set {r : Rq} (hr : r ≠ rq) (hbusy : Function.update w.phase rq .set r ≠ .idle) : w.phase r ≠ .idle := by
  rwa [Function.update_of_ne hr] at hbusy

theorem ne_of_added {r : Rq} (hidle : w.phase rq = .idle) (hr : w.phase r = .added) : r ≠ rq := by
  rintro rfl
  rw [hr] at hidle
  cases hidle

/-- No record is left for the request. -/
theorem Linked.setNull (h : Linked w) (hidle : w.phase rq = .idle) (pid : Pid) :
    Linked (w.onSet { w.elv with priv0 := Function.update w.elv.priv0 rq none } rq pid) := by
  have hne {x : Rq} {b : Addr} (hx : Function.update w.elv.priv0 rq none x = some b) : x ≠ rq := by
    rintro rfl
    simp at hx
  have hold {x : Rq} {b : Addr} (hx : Function.update w.elv.priv0 rq none x = some b) : w.elv.priv0 x = some b := by
    rwa [Function.update_of_ne (hne hx)] at hx
  refine ⟨h.nodup, fun b hb => ?_, fun r r' b hr hr' hb hb' => ?_, fun r b hr hb => ?_, h.count⟩
  · obtain ⟨r, hrq, hr, hpriv⟩ := h.linked b hb
    have hother := ne_of_added hidle hr
    exact ⟨r, hrq, (Function.update_of_ne hother ..).trans hr, (Function.update_of_ne hother ..).trans hpriv⟩
  · exact h.unique r r' b (phase_of_set (hne hb) hr) (phase_of_set (hne hb') hr') (hold hb) (hold hb')
  · exact h.live r b (phase_of_set (hne hb) hr) (hold hb)

/-- A free record is not in the list, and no other request under way has it. -/
theorem Linked.setRecord (h : Linked w) (hidle : w.phase rq = .idle) (hfree : w.elv.live a = false) (pid : Pid) :
    Linked (w.onSet { w.elv with
      priv0 := Function.update w.elv.priv0 rq (some a), pool := Function.update w.elv.pool a ⟨none⟩,
      live := Function.update w.elv.live a true } rq pid) := by
  have hapart {r : Rq} (hr : r ≠ rq) (hbusy : Function.update w.phase rq .set r ≠ .idle) :
      Function.update w.elv.priv0 rq (some a) r ≠ some a := by
    rw [Function.update_of_ne hr]
    intro hpriv
    rw [h.live r a (phase_of_set hr hbusy) hpriv] at hfree
    cases hfree
  refine ⟨h.nodup, fun b hb => ?_, fun r r' b hr hr' hb hb' => ?_, fun r b hr hb => ?_, h.count⟩
  · obtain ⟨r, hrq, hr, hpriv⟩ := h.linked b hb
    have hother := ne_of_added hidle hr
    have hba : b ≠ a := by
      rintro rfl
      exact h.not_mem_of_free hfree hb
    refine ⟨r, ?_, (Function.update_of_ne hother ..).trans hr, (Function.update_of_ne hother ..).trans hpriv⟩
    show (Function.update w.elv.pool a ⟨none⟩ b).rq = some r
    rw [Function.update_of_ne hba, hrq]
  · change Function.update w.elv.priv0 rq (some a) r = some b at hb
    change Function.update w.elv.priv0 rq (some a) r' = some b at hb'
    by_cases hrr : r = rq
    · subst hrr
      obtain rfl : a = b := by simpa using hb
      by_contra hne
      exact hapart (Ne.symm hne) hr' hb'
    · by_cases hrr' : r' = rq
      · subst hrr'
        obtain rfl : a = b := by simpa using hb'
        exact absurd hb (hapart hrr hr)
      · rw [Function.update_of_ne hrr] at hb
        rw [Function.update_of_ne hrr'] at hb'
        exact h.unique r r' b (phase_of_set hrr hr) (phase_of_set hrr' hr') hb hb'
  · change Function.update w.elv.priv0 rq (some a) r = some b at hb
    show Function.update w.elv.live a true b = true
    by_cases hba : b = a
    · simp [hba]
    · have hne : r ≠ rq := by
        rintro rfl
        exact hba (by simpa using hb.symm)
      rw [Function.update_of_ne hne] at hb
      rw [Function.update_of_ne hba]
      exact h.live r b (phase_of_set hne hr) hb

theorem Linked.set (h : Linked w) (hidle : w.phase rq = .idle) (nr : Option Addr) (hnr : ∀ a ∈ nr, w.elv.live a = false)
    (hs : noopSetRequest w.elv rq pid nr = some (o, nd)) :
    Linked (w.onSet nd rq pid) ∧ o = .quiet false ∧ view nd = view w.elv := by
  cases nr with
  | none =>
    cases hs
    exact ⟨h.setNull hidle pid, rfl, rfl⟩
  | some a =>
    cases hs
    have hfree : w.elv.live a = false := hnr a rfl
    refine ⟨h.setRecord hidle hfree pid, rfl, ?_⟩
    exact congrArg (fun l => (⟨l, w.elv.depth⟩ : Gate)) (filterMap_update (h.not_mem_of_free hfree))

theorem Linked.add (h : Linked w) (hset : w.phase rq = .set) (hs : noopAddRequest w.elv rq = some (o, nd)) :
    Linked (w.onAdd nd rq) ∧ o = .quiet false ∧
      view nd = { view w.elv with queue := (view w.elv).queue ++ [rq] } := by
  simp only [noopAddRequest, Option.bind_eq_bind, Option.bind_eq_some_iff] at hs
  obtain ⟨a, ha, hs⟩ := hs
  cases hs
  have hnot : a ∉ w.elv.queue := h.not_mem ha (by simp [hset]) (by simp [hset])
  refine ⟨⟨?_, fun b hb => ?_, fun r r' b hr hr' => ?_, fun r b hr => ?_, ?_⟩, rfl, ?_⟩
  · apply List.nodup_append.mpr
    refine ⟨h.nodup, List.nodup_singleton a, fun x hx y hy hxy => ?_⟩
    obtain rfl := List.mem_singleton.mp hy
    exact hnot (hxy ▸ hx)
  · show ∃ r, (Function.update w.elv.pool a ⟨some rq⟩ b).rq = some r ∧ Function.update w.phase rq .added r = .added ∧
      w.elv.priv0 r = some b
    rcases List.mem_append.mp hb with hb | hb
    · obtain ⟨r, hrq, hr, hpriv⟩ := h.linked b hb
      have hba : b ≠ a := fun hba => hnot (hba ▸ hb)
      have hne : r ≠ rq := by
        rintro rfl
        rw [hr] at hset
        cases hset
      exact ⟨r, by rw [Function.update_of_ne hba, hrq], by rw [Function.update_of_ne hne, hr], hpriv⟩
    · obtain rfl := List.mem_singleton.mp hb
      exact ⟨rq, by simp, by simp, ha⟩
  · have hbusy : w.phase rq ≠ .idle := by simp [hset]
    exact h.unique r r' b (World.busy_of_update hbusy hr) (World.busy_of_update hbusy hr')
  · exact h.live r b (World.busy_of_update (by simp [hset]) hr)
  · have hcount := h.count
    show w.elv.nrSize + 1 = (w.elv.queue ++ [a]).length + w.elv.depth
    simp only [List.length_append, List.length_singleton]
    push_cast
    omega
  · have hlist : ((w.elv.queue ++ [a]).filterMap fun b => (Function.update w.elv.pool a ⟨some rq⟩ b).rq) =
        (w.elv.queue.filterMap fun b => (w.elv.pool b).rq) ++ [rq] := by
      rw [List.filterMap_append, filterMap_update hnot]
      simp
    exact congrArg (fun l => (⟨l, w.elv.depth⟩ : Gate)) hlist

theorem Linked.serve (h : Linked w) {rest : List Addr} (hq : w.elv.queue = a :: rest) (hrq : (w.elv.pool a).rq = some rq)
    (timer : Bool) :
    Linked (w.onDispatch { w.elv with queue := rest, depth := w.elv.depth + 1, idleSliceTimer := timer } (some rq)) := by
  obtain ⟨r, hr, hadded, hpriv⟩ := h.linked a (by simp [hq])
  obtain rfl : r = rq := Option.some.inj (hr.symm.trans hrq)
  have hnodup := h.nodup
  rw [hq] at hnodup
  have hbusy : w.phase r ≠ .idle := by simp [hadded]
  refine ⟨(List.nodup_cons.mp hnodup).2, fun b hb => ?_, fun x y b hx hy => ?_, fun x b hx => ?_, ?_⟩
  · obtain ⟨x, hx, hph, hp⟩ := h.linked b (by simpa [hq] using .inr hb)
    have hne : x ≠ r := by
      rintro rfl
      obtain rfl := Option.some.inj (hp.symm.trans hpriv)
      exact (List.nodup_cons.mp hnodup).1 hb
    exact ⟨x, hx, (Function.update_of_ne hne ..).trans hph, hp⟩
  · exact h.unique x y b (World.busy_of_update hbusy hx) (World.busy_of_update hbusy hy)
  · exact h.live x b (World.busy_of_update hbusy hx)
  · have hcount := h.count
    rw [hq, List.length_cons] at hcount
    show w.elv.nrSize = rest.length + (w.elv.depth + 1)
    push_cast at hcount
    omega

/-- The work is scheduled as long as requests are left, and what was scheduled stays so. -/
theorem noopCompleted_eq (v : Version) (nd : NoopData) (rq : Rq) :
    ∃ kicked timer, noopCompleted v nd rq = some (.quiet kicked, { nd with
        depth := nd.depth - 1, nrSize := nd.nrSize - 1, idleSliceTimer := timer, unplugWork := kicked || nd.unplugWork }) ∧
      (kicked = true ↔ 1 < nd.nrSize) := by
  unfold noopCompleted
  by_cases hleft : 0 < nd.nrSize - 1
  · exact ⟨true, v.timer, if_pos hleft, iff_of_true rfl (by omega)⟩
  · exact ⟨false, nd.idleSliceTimer, if_neg hleft, iff_of_false Bool.false_ne_true (by omega)⟩

/-- A request that is outstanding is completed. -/
theorem Linked.complete (h : Linked w) (hdisp : w.phase rq = .dispatched) (timer work : Bool) :
    Linked (w.onCompleted { w.elv with
      depth := w.elv.depth - 1, nrSize := w.elv.nrSize - 1, idleSliceTimer := timer, unplugWork := work } rq) := by
  have hbusy : w.phase rq ≠ .idle := by simp [hdisp]
  refine ⟨h.nodup, fun b hb => ?_, fun x y b hx hy => ?_, fun x b hx => ?_, ?_⟩
  · obtain ⟨x, hx, hph, hp⟩ := h.linked b hb
    have hne : x ≠ rq := by
      rintro rfl
      rw [hph] at hdisp
      cases hdisp
    exact ⟨x, hx, (Function.update_of_ne hne ..).trans hph, hp⟩
  · exact h.unique x y b (World.busy_of_update hbusy hx) (World.busy_of_update hbusy hy)
  · exact h.live x b (World.busy_of_update hbusy hx)
  · have hcount := h.count
    show w.elv.nrSize - 1 = w.elv.queue.length + (w.elv.depth - 1)
    omega

theorem Linked.put (h : Linked w) (hput : w.phase rq = .set ∨ w.phase rq = .completed) {junk : NoopRequest}
    (hs : noopPutRequest w.elv rq junk = some (o, nd)) :
    Linked (w.onPut nd rq) ∧ o = .quiet false ∧ view nd = view w.elv := by
  obtain ⟨hidle, hadded, -⟩ := World.phase_of_put hput
  have hphase {r : Rq} (hr : Function.update w.phase rq .idle r ≠ .idle) : r ≠ rq ∧ w.phase r ≠ .idle := by
    rcases eq_or_ne r rq with rfl | hne
    · simp at hr
    · rw [Function.update_of_ne hne] at hr
      exact ⟨hne, hr⟩
  have hother {r : Rq} (hr : w.phase r = .added) : Function.update w.phase rq .idle r = .added := by
    rw [Function.update_of_ne]
    · exact hr
    · rintro rfl
      exact hadded hr
  unfold noopPutRequest at hs
  split at hs
  case h_2 =>
    cases hs
    refine ⟨⟨h.nodup, fun b hb => ?_, fun x y b hx hy => ?_, fun x b hx => ?_, h.count⟩, rfl, rfl⟩
    · obtain ⟨x, hx, hph, hp⟩ := h.linked b hb
      exact ⟨x, hx, hother hph, hp⟩
    · exact h.unique x y b (hphase hx).2 (hphase hy).2
    · exact h.live x b (hphase hx).2
  case h_1 a ha =>
    cases hs
    have hnot := h.not_mem ha hidle hadded
    refine ⟨⟨h.nodup, fun b hb => ?_, fun x y b hx hy => ?_, fun x b hx hp => ?_, h.count⟩, rfl, ?_⟩
    · obtain ⟨x, hx, hph, hp⟩ := h.linked b hb
      have hba : b ≠ a := fun hba => hnot (hba ▸ hb)
      refine ⟨x, ?_, hother hph, hp⟩
      show (Function.update w.elv.pool a junk b).rq = some x
      rw [Function.update_of_ne hba, hx]
    · exact h.unique x y b (hphase hx).2 (hphase hy).2
    · show Function.update w.elv.live a false b = true
      rw [Function.update_of_ne]
      · exact h.live x b (hphase hx).2 hp
      · rintro rfl
        exact (hphase hx).1 (h.unique x rq b (hphase hx).2 hidle hp ha)
    · exact congrArg (fun l => (⟨l, w.elv.depth⟩ : Gate)) (filterMap_update hnot)

/-- With the gate open the timer is cancelled, and the first record taken if there is one. -/
theorem noopDispatch_open (hopen : IsOpen v.requestDepth nd.depth) (force : Bool) :
    ∃ timer, (nd.queue = [] → noopDispatch v nd force = some (.quiet false, { nd with idleSliceTimer := timer })) ∧
      ∀ a rest rq, nd.queue = a :: rest → (nd.pool a).rq = some rq → noopDispatch v nd force =
        some (⟨1, some rq, false⟩, { nd with queue := rest, depth := nd.depth + 1, idleSliceTimer := timer }) := by
  unfold noopDispatch
  rw [if_pos hopen]
  cases v.timer with
  | false =>
    refine ⟨nd.idleSliceTimer, fun hq => ?_, fun a rest rq hq hrq => ?_⟩
    · obtain ⟨queue, depth⟩ := nd
      obtain rfl : queue = [] := hq
      rfl
    · simp [hq, hrq]
  | true =>
    refine ⟨false, fun hq => ?_, fun a rest rq hq hrq => ?_⟩
    · simp [hq]
    · simp [hq, hrq]

theorem Linked.dispatch (h : Linked w) (v : Version) (force : Bool) :
    ∃ o nd, noopDispatch v w.elv force = some (o, nd) ∧ Linked (w.onDispatch nd o.dispatched) ∧
      (o.dispatched, view nd) = (view w.elv).dispatch v.requestDepth ∧ (o.ret ≠ 0 ↔ o.dispatched.isSome) := by
  by_cases hopen : IsOpen v.requestDepth w.elv.depth
  · obtain ⟨timer, hnil, hcons⟩ := noopDispatch_open hopen force
    cases hq : w.elv.queue with
    | nil =>
      refine ⟨_, _, hnil hq, ⟨h.nodup, h.linked, h.unique, h.live, h.count⟩, ?_, by simp [Out.quiet]⟩
      simp [Gate.dispatch, view, hq, Out.quiet]
    | cons a rest =>
      obtain ⟨rq, hrq, -, -⟩ := h.linked a (by simp [hq])
      refine ⟨_, _, hcons a rest rq hq hrq, h.serve hq hrq timer, ?_, by simp⟩
      simp [Gate.dispatch, view, hq, hrq, hopen]
  · refine ⟨_, _, if_neg hopen, ⟨h.nodup, h.linked, h.unique, h.live, h.count⟩, ?_, by simp [Out.quiet]⟩
    rcases dispatch_cases v.requestDepth (view w.elv) with ⟨rq, rest, -, ho, -⟩ | ⟨-, hd⟩
    · exact absurd ho hopen
    · exact hd.symm

/-- Both versions are a gate. -/
theorem guarded (v : Version) : Guarded (elevatorType v) v.requestDepth view Linked where
  quiet := ⟨rfl, rfl⟩
  init := by
    refine ⟨⟨List.nodup_nil, fun a ha => ?_, fun rq rq' a hrq => ?_, fun rq a hrq => ?_, rfl⟩, rfl⟩
    · cases ha
    · exact absurd rfl hrq
    · exact absurd rfl hrq
  call w c o d h hl hs := by
    cases c with
    | setRequest rq pid nr =>
      have hnr : ∀ a ∈ nr, w.elv.live a = false := by
        have hpossible : (nr.all fun a => !w.elv.live a) = true := hl.2
        simpa [Option.all_eq_true] using hpossible
      obtain ⟨hlinked, rfl, hview⟩ := h.set hl.1 nr hnr hs
      exact ⟨hlinked, congrArg (Prod.mk none) hview, by simp [Out.quiet]⟩
    | addRequest rq =>
      obtain ⟨hlinked, rfl, hview⟩ := h.add hl hs
      exact ⟨hlinked, congrArg (Prod.mk none) hview, by simp [Out.quiet]⟩
    | dispatch force =>
      obtain ⟨o', d', hd, hlinked, hview, hret⟩ := h.dispatch v force
      obtain ⟨rfl, rfl⟩ := Prod.mk.inj (Option.some.inj (hd.symm.trans hs))
      exact ⟨hlinked, hview, hret⟩
    | completed rq =>
      obtain ⟨kicked, timer, hd, -⟩ := noopCompleted_eq v w.elv rq
      obtain ⟨rfl, rfl⟩ := Prod.mk.inj (Option.some.inj (hd.symm.trans hs))
      exact ⟨h.complete hl timer _, rfl, by simp [Out.quiet]⟩
    | putRequest rq junk =>
      obtain ⟨hlinked, rfl, hview⟩ := h.put hl hs
      exact ⟨hlinked, congrArg (Prod.mk none) hview, by simp [Out.quiet]⟩
  returns w force h := by
    obtain ⟨o, nd, hd, -⟩ := h.dispatch v force
    exact ⟨o, nd, hd⟩

end Calls

section Core

variable {Bio : Type} {k : BlkOps Bio} {s : Stack NoopData} {nomerges : Bool}

theorem Linked.length_view (h : Linked w) : (view w.elv).queue.length = w.elv.queue.length := by
  have hsome : ∀ l : List Addr, (∀ a ∈ l, a ∈ w.elv.queue) →
      (l.filterMap fun a => (w.elv.pool a).rq).length = l.length := by
    intro l hl
    induction l with
    | nil => rfl
    | cons a l ih =>
      obtain ⟨rq, hrq, -, -⟩ := h.linked a (hl a (List.mem_cons_self ..))
      rw [List.filterMap_cons_some (f := fun a => (w.elv.pool a).rq) hrq, List.length_cons, List.length_cons,
        ih fun b hb => hl b (List.mem_cons_of_mem a hb)]
  exact hsome w.elv.queue fun _ ha => ha

/-- In every run without merges of waiting requests they are handed out in the order in which they were added, the
counters of the scheduler are those of the elevator core, no more than `REQUEST_DEPTH + 1` requests are in the dispatch
list or with the driver at a time, and no record in the list has been freed. -/
theorem served_in_order (h : (Stack.machine (elevatorType v) k).Reachable (Stack.init (elevatorType v) nomerges true) s) :
    s.world.addLog = s.world.dispatchLog ++ (view s.world.elv).queue.map (fun rq => (s.world.owner rq, rq)) ∧
      s.queue.nrSorted = s.world.elv.queue.length ∧ s.world.elv.depth = s.served.length ∧
      s.world.elv.nrSize = s.queue.nrSorted + s.served.length ∧
      (∀ n ∈ v.requestDepth, (s.served.length : Int) ≤ max 0 (n + 1)) ∧
      ∀ a ∈ s.world.elv.queue, s.world.elv.live a = true := by
  have hinv := Elevator.Inv.of_reachable (guarded v).contract (fun _ => rfl) h
  obtain ⟨hlinked, hserved⟩ := (guarded v).of_reachable hinv.meets.reachable
  obtain ⟨hsorted, hdepth⟩ := (guarded v).counters hinv
  rw [hlinked.length_view] at hsorted
  change s.world.elv.depth = s.served.length at hdepth
  refine ⟨hserved.fifo, hsorted, hdepth, ?_, fun n hn => ?_, fun a ha => hlinked.mem_live ha⟩
  · rw [hlinked.count, hsorted, hdepth]
  · rw [← hdepth]
    exact hserved.bounded n hn

/-- Three requests are added; the gate closes behind the second. -/
theorem served_in_order_three :
    ∃ u, (Stack.machine (elevatorType noopWithCongestion) BlkOps.plain).Reachable
        (Stack.init (elevatorType noopWithCongestion) false true) u ∧
      u.served = [2, 1] ∧ u.world.addLog = u.world.dispatchLog ++ [(7, 3)] ∧ u.world.elv.nrSize = 3 ∧
      (u.served.length : Int) ≤ max 0 (1 + 1) := by
  have hplays : (Stack.machine (elevatorType noopWithCongestion) BlkOps.plain).Plays
      (Stack.init (elevatorType noopWithCongestion) false true)
      [.getRequest 1 (read 40) 7 (some 0), .getRequest 2 (read 16) 8 (some 1), .getRequest 3 (read 8) 7 (some 2),
        .addRequest 1 .sort 9 fun _ => ⟨none⟩, .addRequest 2 .sort 9 fun _ => ⟨none⟩, .addRequest 3 .sort 9 fun _ => ⟨none⟩,
        .dispatch false, .dispatch false, .dispatch false]
      (fun _ u => u.served = [2, 1] ∧ (view u.world.elv).queue = [3] ∧ u.world.owner 3 = 7 ∧ u.world.elv.nrSize = 3) := by
    decide
  obtain ⟨tr, u, hr, -, hserved, hqueue, howner, hsize⟩ := hplays.exists_run
  obtain ⟨hfifo, -, -, -, hbound, -⟩ := served_in_order (v := noopWithCongestion) ⟨tr, hr⟩
  refine ⟨u, ⟨tr, hr⟩, hserved, ?_, hsize, hbound 1 rfl⟩
  rw [hfifo, hqueue, List.map_singleton, howner]

/-- `ELEVATOR_INSERT_BACK` on a queue of `noop_with_congestion.c` puts its request before all but the oldest requests,
as many as there is room for below the depth. -/
theorem insert_back_before_rest {rq : Rq} {fuel : Nat}
    (h : (Stack.machine (elevatorType noopWithCongestion) k).Reachable
      (Stack.init (elevatorType noopWithCongestion) nomerges true) s)
    (hrq : s.place rq = .held) (hf : s.waiting.length < fuel) (env : Rq → NoopRequest) :
    ∃ s', s.elvAddRequest (elevatorType noopWithCongestion) k rq .back fuel env = some s' ∧
      s'.waiting.Perm ((view s.world.elv).queue.drop (2 - s.served.length)) ∧
      s'.waiting.length = s.waiting.length - (2 - s.served.length) := by
  have hinv := Elevator.Inv.of_reachable (guarded noopWithCongestion).contract (fun _ => rfl) h
  obtain ⟨s', hs, hperm⟩ := (guarded noopWithCongestion).insertBack hinv hrq hf env
  have hdepth : (view s.world.elv).depth = s.served.length := ((guarded noopWithCongestion).counters hinv).2
  have hleft : (view s.world.elv).left noopWithCongestion.requestDepth =
      (view s.world.elv).queue.drop (2 - s.served.length) := by
    have hroom : (1 + 1 - (view s.world.elv).depth).toNat = 2 - s.served.length := by
      rw [hdepth]
      omega
    show (view s.world.elv).queue.drop (1 + 1 - (view s.world.elv).depth).toNat = _
    rw [hroom]
  rw [hleft] at hperm
  refine ⟨s', hs, hperm, ?_⟩
  rw [hperm.length_eq, List.length_drop, ((guarded noopWithCongestion).perm_waiting hinv).length_eq]

/-- Three requests wait: one of them is overtaken by the barrier. -/
theorem insert_back_before_rest_three :
    ∃ u u', (Stack.machine (elevatorType noopWithCongestion) BlkOps.plain).Reachable
        (Stack.init (elevatorType noopWithCongestion) false true) u ∧
      u.waiting = [1, 2, 3] ∧
      u.elvAddRequest (elevatorType noopWithCongestion) BlkOps.plain 4 .back 9 (fun _ => ⟨none⟩) = some u' ∧
      u'.waiting.length = 3 - (2 - u.served.length) := by
  have hplays : (Stack.machine (elevatorType noopWithCongestion) BlkOps.plain).Plays
      (Stack.init (elevatorType noopWithCongestion) false true)
      [.getRequest 1 (read 40) 7 (some 0), .getRequest 2 (read 16) 8 (some 1), .getRequest 3 (read 8) 7 (some 2),
        .addRequest 1 .sort 9 fun _ => ⟨none⟩, .addRequest 2 .sort 9 fun _ => ⟨none⟩, .addRequest 3 .sort 9 fun _ => ⟨none⟩,
        .getRequest 4 (read 0) 7 (some 3)]
      (fun _ u => u.waiting = [1, 2, 3] ∧ u.place 4 = .held) := by decide
  obtain ⟨tr, u, hr, -, hwaiting, hheld⟩ := hplays.exists_run
  have hf : u.waiting.length < 9 := by simp [hwaiting]
  obtain ⟨u', hs, -, hlength⟩ := insert_back_before_rest ⟨tr, hr⟩ hheld hf fun _ => ⟨none⟩
  refine ⟨u, u', ⟨tr, hr⟩, hwaiting, hs, ?_⟩
  rw [hlength, hwaiting]
  rfl

/-- Where the test of the depth is commented out, nothing is left behind. -/
theorem cachePoolNoop_insertBack {rq : Rq} {fuel : Nat}
    (h : (Stack.machine (elevatorType cachePoolNoop) k).Reachable
      (Stack.init (elevatorType cachePoolNoop) nomerges true) s)
    (hrq : s.place rq = .held) (hf : s.waiting.length < fuel) (env : Rq → NoopRequest) :
    ∃ s', s.elvAddRequest (elevatorType cachePoolNoop) k rq .back fuel env = some s' ∧ s'.waiting = [] := by
  have hinv := Elevator.Inv.of_reachable (guarded cachePoolNoop).contract (fun _ => rfl) h
  obtain ⟨s', hs, hperm⟩ := (guarded cachePoolNoop).insertBack hinv hrq hf env
  exact ⟨s', hs, List.perm_nil.mp hperm⟩

end Core

end SsdScheduler.Congestion
