import SsdScheduler.Beta.Runs

/-!
# Progress of `sfq-iosched_12.c`

A round of dispatches meets every queue. Whether it gets a request out depends on the heap having
room, and whether draining gets all of them out on the lengths of the queues in the order in which
the cursor comes to them.
-/

namespace SsdScheduler.Iosched12

open Framework Framework.Heap Framework.RoundRobin Sfq

/-- No dispatch hands out anything, for lack of room in the heap or of the heap itself. -/
def Stuck (s : SeekData) : Prop := s.queue.length ≤ 1 ∨ s.requests = none

variable {wrap : Int → Int} {w w' : World SeekData} {s s' : SeekData} {o : Out}

theorem Turn.stuck (h : Stuck s) (ht : Turn s o s') : o.ret = 0 ∧ Stuck s' := by
  cases ht with
  | empty hn => exact ⟨rfl, h⟩
  | passes hq hp => exact ⟨rfl, h⟩
  | serves hq hl hp hr hrq =>
    rcases h with hn | hnull
    · exact absurd (.inr (.inr hn)) hp
    · simp [hnull] at hr

theorem Turn.requests (h : s.requests ≠ none) (ht : Turn s o s') : s'.requests ≠ none := by
  cases ht with
  | empty hn => exact h
  | passes hq hp => exact h
  | serves hq hl hp hr hrq => exact Option.some_ne_none _

theorem ret_of_stuck {tr : List (Event _ _ Out)} (h : Inv w) (hstuck : Stuck w.elv)
    (hr : (elevator wrap).machine.Run w tr w') (hc : ∀ e ∈ tr, e.call.isDispatch = true) :
    ∀ e ∈ tr, e.out.ret = 0 := by
  induction hr with
  | nil => simp
  | @cons w w₁ u c o tr hl hs _ ih =>
    cases c with
    | dispatch force =>
      obtain ⟨s, ht, rfl⟩ := h.dispatch_iff.mp hs
      obtain ⟨hret, hstuck'⟩ := ht.stuck hstuck
      have helv : (w.onDispatch s o.dispatched).elv = s := by cases o.dispatched <;> rfl
      have ih := ih (h.step hl hs) (by rwa [helv]) fun e he => hc e (List.mem_cons_of_mem _ he)
      intro e he
      rcases List.mem_cons.mp he with rfl | he
      · exact hret
      · exact ih e he
    | _ => exact absurd (hc _ (List.mem_cons_self ..)) (by simp [Call.isDispatch])

/-- Once `requests[]` exists, dispatches always return. -/
theorem exists_dispatches (h : Inv w) (hr : w.elv.requests ≠ none) (forces : List Bool) :
    ∃ tr w', (elevator wrap).machine.Run w tr w' ∧ tr.map Event.call = forces.map .dispatch := by
  induction forces generalizing w with
  | nil => exact ⟨[], w, .nil w, rfl⟩
  | cons force forces ih =>
    have hl : (elevator wrap).machine.legal w (.dispatch force) := trivial
    obtain ⟨o, s, ht⟩ := exists_turn h.rq_ne_none fun _ => hr
    have hs : (elevator wrap).machine.step w (.dispatch force) = some (o, w.onDispatch s o.dispatched) :=
      h.dispatch_iff.mpr ⟨s, ht, rfl⟩
    have helv : (w.onDispatch s o.dispatched).elv = s := by cases o.dispatched <;> rfl
    obtain ⟨tr, w', hrun, hc⟩ := ih (h.step hl hs) (by rw [helv]; exact ht.requests hr)
    exact ⟨_, w', .cons hl hs hrun, by simp [hc]⟩

/-- A queue with a request is reached, or another one served, within as many dispatches as it has
to wait. -/
theorem served_within (h : Inv w) (hr : w.elv.requests ≠ none) (hn : 2 ≤ w.elv.queue.length)
    (hd : w.elv.depth ≤ requestDepth) {i : Nat} {q : SfqQueue} (hi : w.elv.queue[i]? = some q)
    (hne : q.queue ≠ []) {forces : List Bool}
    (hf : wait w.elv.queue.length w.elv.sfqqTotalSeek (i + 1) ≤ forces.length) :
    ∃ tr w', (elevator wrap).machine.Run w tr w' ∧ tr.map Event.call = forces.map .dispatch ∧
      ∃ e ∈ tr, e.out.ret = 1 ∧ e.out.dispatched ≠ none := by
  induction forces generalizing w with
  | nil =>
    have := wait_pos (Nat.le_add_left 1 i) h.seeks.le
    simp at hf
    omega
  | cons force forces ih =>
    have hl : (elevator wrap).machine.legal w (.dispatch force) := trivial
    obtain ⟨o, s, ht⟩ := exists_turn h.rq_ne_none fun _ => hr
    have hs : (elevator wrap).machine.step w (.dispatch force) = some (o, w.onDispatch s o.dispatched) :=
      h.dispatch_iff.mpr ⟨s, ht, rfl⟩
    have hinv := h.step hl hs
    cases ht with
    | empty he => simp [he] at hn
    | @passes r hq hp =>
      have hskip : next w.elv.queue.length w.elv.sfqqTotalSeek ≠ i + 1 := by
        intro he
        rw [he] at hq
        obtain rfl : r = q := Option.some.inj (hq.symm.trans hi)
        rcases hp with hp | hp | hp
        · exact hne hp
        · omega
        · omega
      have hlt := (List.getElem?_eq_some_iff.mp hi).1
      have hwait := wait_next_ne (Nat.le_add_left 1 i) hlt h.seeks.le hskip
      have hf' : wait w.elv.queue.length (next w.elv.queue.length w.elv.sfqqTotalSeek) (i + 1) ≤
          forces.length := by
        simp only [List.length_cons] at hf
        omega
      obtain ⟨tr, w', hrun, hc, e, he, hret⟩ := ih hinv hr hn hd hi hf'
      exact ⟨_, w', .cons hl hs hrun, by simp [hc], e, List.mem_cons_of_mem _ he, hret⟩
    | serves hq hlq hp hb hrq =>
      obtain ⟨tr, w', hrun, hc⟩ := @exists_dispatches wrap _ hinv (Option.some_ne_none _) forces
      exact ⟨_, w', .cons hl hs hrun, by simp [hc], _, List.mem_cons_self .., rfl, Option.some_ne_none _⟩

theorem load_eq_zero_iff {c : Core} : c.load = 0 ↔ ∀ q ∈ c.queue, q.queue = [] := by
  simp [Core.load, List.sum_eq_zero_iff_forall_eq_nat]

/-- With room in the depth and a request waiting, one of the next `sfqq_size` dispatches returns
`1` with a request exactly if two processes are known and `requests[]` was allocated. -/
theorem work_conserved_iff (hw : (elevator wrap).Reachable w) (hd : w.elv.depth ≤ requestDepth)
    (hload : 0 < w.elv.load) {forces : List Bool} (hf : forces.length = w.elv.sfqqSize) :
    (∃ tr w', (elevator wrap).machine.Run w tr w' ∧ tr.map Event.call = forces.map .dispatch ∧
      ∃ e ∈ tr, e.out.ret = 1 ∧ e.out.dispatched ≠ none) ↔
    2 ≤ w.elv.sfqqSize ∧ w.elv.requests ≠ none := by
  have h := Inv.of_reachable hw
  have hsize : w.elv.sfqqSize = w.elv.queue.length := h.core.size
  constructor
  · rintro ⟨tr, w', hr, hc, e, he, hret, -⟩
    by_contra hcond
    have hstuck : Stuck w.elv := by
      unfold Stuck
      rw [hsize] at hcond
      by_cases hnull : w.elv.requests = none
      · exact .inr hnull
      · exact .inl (by
          by_contra hn
          exact hcond ⟨by omega, hnull⟩)
    have hdisp : ∀ e ∈ tr, e.call.isDispatch = true := by
      intro e he
      have hmem : e.call ∈ forces.map Call.dispatch := hc ▸ List.mem_map_of_mem he
      obtain ⟨force, -, hforce⟩ := List.mem_map.mp hmem
      rw [← hforce]
      rfl
    have := ret_of_stuck h hstuck hr hdisp e he
    omega
  · rintro ⟨hn, hr⟩
    obtain ⟨q, hq, hne⟩ : ∃ q ∈ w.elv.queue, q.queue ≠ [] := by
      by_contra hall
      have hzero : w.elv.load = 0 := load_eq_zero_iff.mpr fun q hq => by
        by_contra hne
        exact hall ⟨q, hq, hne⟩
      omega
    obtain ⟨i, hi⟩ := List.mem_iff_getElem?.mp hq
    have hlt := (List.getElem?_eq_some_iff.mp hi).1
    apply served_within h hr (by omega) hd hi hne
    rw [hf, hsize]
    exact wait_le hlt

/-- A single process has a request waiting, and the next dispatch hands out nothing. -/
theorem work_not_conserved :
    ∃ w, (granting (elevator id)).Reachable (elevator id).init w ∧ w.elv.sfqqSize = 1 ∧
      w.elv.depth = 0 ∧ w.elv.load = 1 ∧
      ∀ force, ∃ o w', (elevator id).machine.step w (.dispatch force) = some (o, w') ∧ o.ret = 0 := by
  have hplay : (granting (elevator id)).Plays (elevator id).init [granted 1 7 0, .addRequest 1] fun _ w =>
      w.elv.sfqqSize = 1 ∧ w.elv.depth = 0 ∧ w.elv.load = 1 ∧
      ∀ force, ((elevator id).machine.step w (.dispatch force)).any (·.1.ret == 0) = true := by
    decide
  obtain ⟨tr, w, hr, -, hn, hd, hload, hs⟩ := hplay.exists_run
  refine ⟨w, ⟨tr, hr⟩, hn, hd, hload, fun force => ?_⟩
  obtain ⟨⟨o, w'⟩, hs, ho⟩ := (Option.any_eq_true _ _).mp (hs force)
  exact ⟨o, w', hs, by simpa using ho⟩

theorem work_conserved_iff_two :
    ∃ w tr w', (elevator id).Reachable w ∧ (elevator id).machine.Run w tr w' ∧
      ∃ e ∈ tr, e.out.ret = 1 ∧ e.out.dispatched ≠ none := by
  have hplay : (elevator id).machine.Plays (elevator id).init [granted 1 7 0, granted 2 8 1, .addRequest 2]
      fun _ w => w.elv.depth ≤ requestDepth ∧ 0 < w.elv.load ∧ [false, false].length = w.elv.sfqqSize ∧
        2 ≤ w.elv.sfqqSize ∧ w.elv.requests ≠ none := by
    decide
  obtain ⟨tr, w, hr, -, hd, hload, hf, hn, hreq⟩ := hplay.exists_run
  obtain ⟨tr', w', hrun, -, he⟩ := (work_conserved_iff ⟨tr, hr⟩ hd hload hf).mpr ⟨hn, hreq⟩
  exact ⟨w, tr', w', ⟨tr, hr⟩, hrun, he⟩

/-- The lengths of the process queues in the order in which the cursor comes to them. -/
def waitingLine (s : SeekData) : List Nat := lineUp s.sfqqTotalSeek (s.queue.map fun q => q.queue.length)

theorem load_eq_zero_iff_line : s.load = 0 ↔ ∀ x ∈ waitingLine s, x = 0 := by
  rw [Core.load, List.sum_eq_zero_iff_forall_eq_nat]
  exact forall_congr' fun x => by rw [waitingLine, (lineUp_perm _ _).mem_iff]

/-- Serving the queue under the moved cursor takes one request off the front of the line and sends
its process to the end. -/
theorem waitingLine_next (h : Ready s) {q : SfqQueue}
    (hq : s.sfqq? (next s.queue.length s.sfqqTotalSeek) = some q) (rest : List Addr) :
    ∃ l, waitingLine s = q.queue.length :: l ∧
      waitingLine { turned s with
        toCore := s.toCore.serve (next s.queue.length s.sfqqTotalSeek) q rest } = l ++ [rest.length] := by
  obtain ⟨k, hk, hqk⟩ := Core.sfqq?_eq_some.mp hq
  have hlt := (List.getElem?_eq_some_iff.mp hqk).1
  have hle : s.sfqqTotalSeek ≤ (s.queue.map fun q => q.queue.length).length := by
    rw [List.length_map]
    exact h.seeks.le
  obtain ⟨x, l, hx, hl, hl'⟩ := lineUp_next hle (by rw [List.length_map]; omega) rest.length
  rw [List.length_map, hk, Nat.add_sub_cancel] at hx hl'
  have hxq : x = q.queue.length := by
    rw [List.getElem?_map, hqk] at hx
    exact (Option.some.inj hx).symm
  refine ⟨l, by rw [waitingLine, hl, hxq], ?_⟩
  rw [← hl']
  simp [waitingLine, turned, SeekData.moved, hk, Core.serve, List.map_set]

/-- The state from which draining gets every request out. -/
def Drainable (s : SeekData) : Prop :=
  s.load = 0 ∨ 2 ≤ s.queue.length ∧ s.requests ≠ none ∧ s.depth + s.load ≤ requestDepth + 1 ∧
    DealsOut (waitingLine s)

theorem not_drainable_of_passes (h : Ready s) {q : SfqQueue}
    (hq : s.sfqq? (next s.queue.length s.sfqqTotalSeek) = some q) (hp : Passes s q) (hload : s.load ≠ 0) :
    ¬ Drainable s := by
  rintro (hzero | ⟨hn, -, hd, hline⟩)
  · exact hload hzero
  · rcases hp with hnil | hdeep | hone
    · obtain ⟨l, hl, -⟩ := waitingLine_next h hq []
      rw [hl, hnil] at hline
      apply hload
      rw [load_eq_zero_iff_line, hl, hnil]
      cases hline with
      | done hall => exact hall
    · omega
    · omega

theorem drainable_serves (h : Ready s) {q : SfqQueue} {a : Addr} {rest : List Addr} {b : Block Addr}
    (hq : s.sfqq? (next s.queue.length s.sfqqTotalSeek) = some q) (hl : q.queue = a :: rest)
    (hp : ¬ Passes s q) (hr : s.requests = some b)
    (hs : s' = { turned s with
      toCore := s.toCore.serve (next s.queue.length s.sfqqTotalSeek) q rest
      requests := some (b.set 0 (some a)) }) :
    s.load = s'.load + 1 ∧ (Drainable s ↔ Drainable s') := by
  obtain ⟨hn, hd⟩ : 2 ≤ s.queue.length ∧ s.depth ≤ requestDepth := by
    unfold Passes at hp
    omega
  obtain ⟨l, hline, hline'⟩ := waitingLine_next h hq rest
  have hline' : waitingLine s' = l ++ [rest.length] := by rw [hs, ← hline']; rfl
  have hlen : s'.queue.length = s.queue.length := by rw [hs]; exact Core.length_setQueue _
  have hdepth : s'.depth = s.depth + 1 := by rw [hs]; rfl
  have hload : s.load = s'.load + 1 := by
    obtain ⟨k, hk, hqk⟩ := Core.sfqq?_eq_some.mp hq
    have hset := Core.load_setQueue hqk { q with queue := rest }
    have hsame : s'.load = (s.toCore.setQueue (k + 1) { q with queue := rest }).load := by
      rw [hs, hk]
      rfl
    simp only [hl, List.length_cons] at hset
    omega
  rw [hl, List.length_cons] at hline
  refine ⟨hload, ?_⟩
  constructor
  · rintro (hzero | ⟨-, -, hsum, hout⟩)
    · omega
    · rw [hline] at hout
      refine .inr ⟨by omega, by rw [hs]; exact Option.some_ne_none _, by omega, ?_⟩
      rw [hline']
      cases hout with
      | done hall => exact absurd (hall _ (List.mem_cons_self ..)) (by omega)
      | serve hout => exact hout
  · rintro (hzero | ⟨-, -, hsum, hout⟩)
    · refine .inr ⟨hn, by simp [hr], by omega, ?_⟩
      rw [hline]
      exact .serve (.done (hline' ▸ load_eq_zero_iff_line.mp hzero))
    · refine .inr ⟨hn, by simp [hr], by omega, ?_⟩
      rw [hline]
      exact .serve (hline' ▸ hout)

/-- Draining gets every request out exactly if there is none, or if the heap has room, the depth
test never refuses, and the cursor meets no empty queue before the end. -/
theorem drainsTo_iff (wrap : Int → Int) (h : Inv w) :
    (elevator wrap).DrainsTo (fun u => u.elv.load = 0) w ↔ Drainable w.elv := by
  induction hm : w.elv.load generalizing w with
  | zero =>
    refine iff_of_true ?_ (.inl hm)
    rcases eq_or_ne w.elv.queue [] with hn | hn
    · have hs : (elevator wrap).machine.step w (.dispatch true) = some (_, _) :=
        h.dispatch_iff.mpr ⟨_, .empty hn, rfl⟩
      exact (ElevatorOps.drainsTo_last hs rfl).mpr hm
    · obtain ⟨q, hq⟩ := Core.exists_sfqq_next hn w.elv.sfqqTotalSeek
      obtain ⟨k, -, hk⟩ := Core.sfqq?_eq_some.mp hq
      have hp : Passes w.elv q := .inl (load_eq_zero_iff.mp hm q (List.mem_of_getElem? hk))
      have hs : (elevator wrap).machine.step w (.dispatch true) = some (_, _) :=
        h.dispatch_iff.mpr ⟨_, .passes hq hp, rfl⟩
      exact (ElevatorOps.drainsTo_last hs rfl).mpr hm
  | succ m ih =>
    have hn : w.elv.queue ≠ [] := by
      rintro hn
      simp [Core.load, hn] at hm
    obtain ⟨q, hq⟩ := Core.exists_sfqq_next hn w.elv.sfqqTotalSeek
    by_cases hp : Passes w.elv q
    · have hs : (elevator wrap).machine.step w (.dispatch true) = some (_, _) :=
        h.dispatch_iff.mpr ⟨_, .passes hq hp, rfl⟩
      rw [ElevatorOps.drainsTo_last hs rfl]
      refine iff_of_false ?_ (not_drainable_of_passes h.ready hq hp (by omega))
      change ¬ w.elv.load = 0
      omega
    · obtain ⟨k, -, hk⟩ := Core.sfqq?_eq_some.mp hq
      cases hl : q.queue with
      | nil => exact absurd (.inl hl) hp
      | cons a rest =>
        obtain ⟨rq, hrq⟩ := Option.ne_none_iff_exists'.mp
          (h.rq_ne_none q (List.mem_of_getElem? hk) a (by simp [hl]))
        cases hr : w.elv.requests with
        | none =>
          have hs : (elevator wrap).machine.step w (.dispatch true) = none := by
            have hnone : sfqDispatch w.elv true = none := sfqDispatch_null h.ready hq hl hp hr
            exact Option.map_eq_none_iff.mpr hnone
          refine iff_of_false (ElevatorOps.not_drainsTo hs) ?_
          rintro (hzero | ⟨-, hnull, -⟩)
          · omega
          · exact hnull hr
        | some b =>
          have hs : (elevator wrap).machine.step w (.dispatch true) = some (_, _) :=
            h.dispatch_iff.mpr ⟨_, .serves hq hl hp hr hrq, rfl⟩
          have hl' : (elevator wrap).machine.legal w (.dispatch true) := trivial
          obtain ⟨hload, hiff⟩ := drainable_serves h.ready hq hl hp hr rfl
          rw [ElevatorOps.drainsTo_next hs one_ne_zero, hiff]
          exact ih (h.step hl' hs) (by rw [hm] at hload; exact (Nat.succ.inj hload).symm)

/-- `elv_drain_elevator` leaves no request behind exactly if nothing waits, or if two processes are
known, `requests[]` was allocated, the depth test lets all through, and the queue lengths in the
cursor's order never increase and differ by at most one. -/
theorem drain_iff (hw : (elevator wrap).Reachable w) :
    (elevator wrap).DrainsTo (fun u => u.elv.heapSize = 0 ∧ (∀ q ∈ u.elv.queue, q.queue = []) ∧
      ∀ rq, u.phase rq ≠ .added) w ↔
    (∀ q ∈ w.elv.queue, q.queue = []) ∨
      2 ≤ w.elv.sfqqSize ∧ w.elv.requests ≠ none ∧ w.elv.depth + w.elv.load ≤ requestDepth + 1 ∧
        Dealt (lineUp w.elv.sfqqTotalSeek (w.elv.queue.map fun q => q.queue.length)) := by
  have h := Inv.of_reachable hw
  have hsize : w.elv.sfqqSize = w.elv.queue.length := h.core.size
  have hend {u : World SeekData} (hu : Inv u) :
      (u.elv.heapSize = 0 ∧ (∀ q ∈ u.elv.queue, q.queue = []) ∧ ∀ rq, u.phase rq ≠ .added) ↔
        u.elv.load = 0 := by
    rw [load_eq_zero_iff]
    refine ⟨fun hP => hP.2.1, fun hempty => ⟨hu.heap.empty, hempty, fun rq hrq => ?_⟩⟩
    obtain ⟨q, hq, a, ha, -⟩ := hu.core.waits rq hrq
    simp [hempty q hq] at ha
  rw [hsize, ← dealsOut_iff, ← load_eq_zero_iff]
  refine Iff.trans ?_ (drainsTo_iff wrap h)
  refine exists_congr fun fuel => exists_congr fun u => and_congr_right fun hd => ?_
  obtain ⟨tr, hr⟩ := ElevatorOps.run_of_drain hd
  exact hend (h.run hr)

/-- The request waits with the second process, and the first forced dispatch finds the first one
idle: the loop ends, and the request is left. -/
theorem drain_loses :
    ∃ w u, (granting (elevator id)).Reachable (elevator id).init w ∧
      (∀ fuel, (elevator id).elvDrainElevator (fuel + 1) w = some u) ∧
      u.phase 2 = .added ∧ 2 ∈ u.elv.waiting 8 := by
  have hplay : (granting (elevator id)).Plays (elevator id).init [granted 1 7 0, granted 2 8 1, .addRequest 2]
      fun _ w => ((elevator id).machine.step w (.dispatch true)).any (fun r =>
        r.1.ret == 0 && r.2.phase 2 == .added && decide (2 ∈ r.2.elv.waiting 8)) = true := by
    decide
  obtain ⟨tr, w, hr, -, hs⟩ := hplay.exists_run
  obtain ⟨⟨o, u⟩, hs, hP⟩ := (Option.any_eq_true _ _).mp hs
  simp only [Bool.and_eq_true, beq_iff_eq, decide_eq_true_eq] at hP
  refine ⟨w, u, ⟨tr, hr⟩, fun fuel => ?_, hP.1.2, hP.2⟩
  simp [ElevatorOps.elvDrainElevator, hs, hP.1.1]

theorem drain_iff_two :
    ∃ w, (elevator id).Reachable w ∧ (elevator id).DrainsTo (fun u => u.elv.heapSize = 0 ∧
      (∀ q ∈ u.elv.queue, q.queue = []) ∧ ∀ rq, u.phase rq ≠ .added) w := by
  have hplay : (elevator id).machine.Plays (elevator id).init
      [granted 1 7 0, granted 2 8 1, granted 3 7 2, .addRequest 1, .addRequest 2, .addRequest 3]
      fun _ w => 2 ≤ w.elv.sfqqSize ∧ w.elv.requests ≠ none ∧
        w.elv.depth + w.elv.load ≤ requestDepth + 1 ∧
        Dealt (lineUp w.elv.sfqqTotalSeek (w.elv.queue.map fun q => q.queue.length)) := by
    decide
  obtain ⟨tr, w, hr, -, hw⟩ := hplay.exists_run
  exact ⟨w, ⟨tr, hr⟩, (drain_iff ⟨tr, hr⟩).mpr (.inr hw)⟩

end SsdScheduler.Iosched12
