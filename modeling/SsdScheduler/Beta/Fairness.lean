import SsdScheduler.Beta.Runs

/-!
# Fairness of `sfq-iosched_12.c`

The cursor moves before the depth test, so a dispatch that the test stops uses up the turn of the
process under the cursor. Turns are dealt fairly, but requests only as long as the test stops none:
with completions one at a time one process gets everything.
-/

namespace SsdScheduler.Iosched12

open Framework Framework.RoundRobin Sfq

/-- The process under the cursor. -/
def cursorPid (s : SeekData) : Option Pid := (s.osSfqq.bind fun k => s.sfqq? k).map SfqQueue.pid

/-- The call hands out a request of process `p`. -/
def hands (p : Pid) (e : Event (World SeekData) (Call SetEnv Bool SfqRequest) Out) : Bool :=
  e.out.dispatched.any fun rq => e.pre.owner rq == p

/-- The call moves the cursor to process `p`. -/
def turnOf (p : Pid) (e : Event (World SeekData) (Call SetEnv Bool SfqRequest) Out) : Bool :=
  e.call.isDispatch && cursorPid e.post.elv == some p

/-- The call moves the cursor to process `p` and is stopped by the depth test. -/
def refused (p : Pid) (e : Event (World SeekData) (Call SetEnv Bool SfqRequest) Out) : Bool :=
  turnOf p e && decide (requestDepth < e.pre.elv.depth)

variable {wrap : Int → Int} {w w' : World SeekData} {o : Out} {c : Call SetEnv Bool SfqRequest} {p : Pid}

theorem pids_step (h : Inv w) (hl : (elevator wrap).machine.legal w c)
    (hs : (elevator wrap).machine.step w c = some (o, w')) (hsize : w'.elv.sfqqSize = w.elv.sfqqSize) :
    w'.elv.queue.map SfqQueue.pid = w.elv.queue.map SfqQueue.pid := by
  obtain ⟨l, hl'⟩ := h.core.pids_step (h.coreStep hl hs)
  have hlen := congrArg List.length hl'
  have h1 := h.core.size
  have h2 := (h.step hl hs).core.size
  simp only [World.map_elv, List.length_map, List.length_append] at hlen h1 h2
  have hnil : l = [] := List.eq_nil_of_length_eq_zero (by omega)
  simpa [hnil] using hl'

/-- Only a request of a new process makes the scheduler know more processes. -/
theorem sfqqSize_step (h : Inv w) (hs : (elevator wrap).machine.step w c = some (o, w'))
    (hreg : ∀ rq pid env, c = .setRequest rq pid env → w.elv.queue.any (·.pid == pid) = true) :
    w'.elv.sfqqSize = w.elv.sfqqSize := by
  cases c with
  | setRequest rq pid env =>
    obtain ⟨s, hc, rfl⟩ := (ElevatorOps.step_eq_some _).mp hs
    obtain ⟨-, -, rfl⟩ := sfqSetRequest_eq_some.mp hc
    change ((w.elv.toCore.register pid).2.allocSfqr rq _ env.sfqr).sfqqSize = _
    rw [Core.register_of_any (hreg rq pid env rfl)]
    cases env.sfqr <;> rfl
  | addRequest rq =>
    obtain ⟨s, hc, rfl⟩ := (ElevatorOps.step_eq_some _).mp hs
    obtain ⟨c, hadd, -, rfl⟩ := sfqAddRequest_eq_some.mp hc
    exact Core.addRequest_sfqqSize hadd
  | dispatch force =>
    obtain ⟨s, ht, rfl⟩ := h.dispatch_iff.mp hs
    cases ht <;> rfl
  | completed rq =>
    obtain ⟨s, hc, rfl⟩ := (ElevatorOps.step_eq_some _).mp hs
    obtain ⟨-, rfl⟩ := (sfqCompleted_eq_some rq).mp hc
    change w.elv.completed.2.toCore.sfqqSize = _
    rw [SfqData.completed_toCore]
    rfl
  | putRequest rq junk =>
    obtain ⟨s, hc, rfl⟩ := (ElevatorOps.step_eq_some _).mp hs
    cases hc
    exact Core.put_sfqqSize junk

/-- Only a dispatch moves the cursor. -/
theorem sfqqTotalSeek_step (h : Inv w) (hn : w.elv.queue ≠ [])
    (hs : (elevator wrap).machine.step w c = some (o, w')) :
    w'.elv.sfqqTotalSeek =
      if c.isDispatch then next w.elv.queue.length w.elv.sfqqTotalSeek else w.elv.sfqqTotalSeek := by
  cases c with
  | setRequest rq pid env =>
    obtain ⟨s, hc, rfl⟩ := (ElevatorOps.step_eq_some _).mp hs
    obtain ⟨-, rfl, rfl⟩ := sfqSetRequest_eq_some.mp hc
    rfl
  | addRequest rq =>
    obtain ⟨s, hc, rfl⟩ := (ElevatorOps.step_eq_some _).mp hs
    obtain ⟨c, hadd, rfl, rfl⟩ := sfqAddRequest_eq_some.mp hc
    rfl
  | dispatch force =>
    obtain ⟨s, ht, rfl⟩ := h.dispatch_iff.mp hs
    cases ht with
    | empty he => exact absurd he hn
    | passes => rfl
    | serves => rfl
  | completed rq =>
    obtain ⟨s, hc, rfl⟩ := (ElevatorOps.step_eq_some _).mp hs
    obtain ⟨rfl, rfl⟩ := (sfqCompleted_eq_some rq).mp hc
    rfl
  | putRequest rq junk =>
    obtain ⟨s, hc, rfl⟩ := (ElevatorOps.step_eq_some _).mp hs
    cases hc
    rfl

theorem cursorPid_eq {s : SeekData} {k : Nat} (hos : s.osSfqq = some (k + 1)) :
    cursorPid s = (s.queue.map SfqQueue.pid)[k]? := by
  simp [cursorPid, hos, Core.sfqq?]

theorem cursorPid_dispatch (h : Inv w) {force : Bool} {k : Nat} (hn : w.elv.queue ≠ [])
    (hs : (elevator wrap).machine.step w (.dispatch force) = some (o, w'))
    (hk : next w.elv.queue.length w.elv.sfqqTotalSeek = k + 1) :
    cursorPid w'.elv = (w.elv.queue.map SfqQueue.pid)[k]? := by
  have hos : w'.elv.osSfqq = some (k + 1) := by
    rw [← hk]
    obtain ⟨s, ht, rfl⟩ := h.dispatch_iff.mp hs
    cases ht with
    | empty he => exact absurd he hn
    | passes => rfl
    | serves => rfl
  have hl : (elevator wrap).machine.legal w (.dispatch force) := trivial
  rw [cursorPid_eq hos, pids_step h hl hs (sfqqSize_step h hs nofun)]

/-- A dispatch is a turn of the process at the position that the cursor moves to. -/
theorem turnOf_step (h : Inv w) (hs : (elevator wrap).machine.step w c = some (o, w'))
    {i : Nat} (hi : (w.elv.queue.map SfqQueue.pid)[i]? = some p) :
    turnOf p ⟨w, c, o, w'⟩ =
      (c.isDispatch && next w.elv.queue.length w.elv.sfqqTotalSeek == i + 1) := by
  have hlt : i < (w.elv.queue.map SfqQueue.pid).length := (List.getElem?_eq_some_iff.mp hi).1
  have hn : w.elv.queue ≠ [] := by
    rintro hn
    simp [hn] at hlt
  cases c with
  | dispatch force =>
    obtain ⟨k, hk⟩ : ∃ k, next w.elv.queue.length w.elv.sfqqTotalSeek = k + 1 :=
      ⟨_, (Nat.sub_add_cancel (next_pos _ _)).symm⟩
    have hiff : cursorPid w'.elv = some p ↔ k + 1 = i + 1 := by
      rw [cursorPid_dispatch h hn hs hk, ← hi, Nat.add_right_cancel_iff]
      constructor
      · intro he
        exact ((List.getElem?_inj hlt h.core.pids).mp he.symm).symm
      · rintro rfl
        rfl
    rw [turnOf, Bool.eq_iff_iff, hk]
    simp only [Call.isDispatch, Bool.true_and, beq_iff_eq]
    exact hiff
  | _ => rfl

/-- In a run without registrations the turns of a process are those of its position. -/
theorem countP_turnOf {tr : List (Event _ _ Out)} (h : Inv w) (hr : (elevator wrap).machine.Run w tr w')
    (hsize : ∀ e ∈ tr, e.post.elv.sfqqSize = e.pre.elv.sfqqSize) {i : Nat}
    (hi : (w.elv.queue.map SfqQueue.pid)[i]? = some p) :
    tr.countP (turnOf p) =
      (turns w.elv.queue.length w.elv.sfqqTotalSeek (tr.countP (·.call.isDispatch))).count (i + 1) := by
  induction hr with
  | nil => rfl
  | @cons w w₁ u c o tr hl hs _ ih =>
    have hsize₁ := hsize _ (List.mem_cons_self ..)
    have hpids := pids_step h hl hs hsize₁
    have hlen : w₁.elv.queue.length = w.elv.queue.length := by
      simpa using congrArg List.length hpids
    have hlt : i < (w.elv.queue.map SfqQueue.pid).length := (List.getElem?_eq_some_iff.mp hi).1
    have hn : w.elv.queue ≠ [] := by
      rintro hn
      simp [hn] at hlt
    have ih := ih (h.step hl hs) (fun e he => hsize e (List.mem_cons_of_mem _ he)) (hpids ▸ hi)
    rw [List.countP_cons, List.countP_cons, ih, hlen, sfqqTotalSeek_step h hn hs,
      turnOf_step h hs hi]
    cases hd : c.isDispatch with
    | false => simp
    | true => simp [turns, List.count_cons]

/-- With two processes known, a waiting process gets a request out at its turns unless the depth
test refuses, and at no other time. -/
theorem hands_step (h : Inv w) (hs : (elevator wrap).machine.step w c = some (o, w'))
    (hn : 2 ≤ w.elv.queue.length) (hp : c.isDispatch = true → w.elv.queueOf p ≠ []) :
    hands p ⟨w, c, o, w'⟩ = (turnOf p ⟨w, c, o, w'⟩ && !decide (requestDepth < w.elv.depth)) := by
  cases c with
  | dispatch force =>
    have hcursor {k : Nat} {q : SfqQueue} (hk : next w.elv.queue.length w.elv.sfqqTotalSeek = k + 1)
        (hq : w.elv.queue[k]? = some q) : cursorPid w'.elv = some q.pid := by
      rw [cursorPid_dispatch h (List.length_pos_iff.mp (by omega)) hs hk]
      simp [hq]
    obtain ⟨s, ht, -⟩ := h.dispatch_iff.mp hs
    cases ht with
    | empty he => simp [he] at hn
    | @passes q hq hpass =>
      obtain ⟨k, hk, hq⟩ := Core.sfqq?_eq_some.mp hq
      by_cases hpid : q.pid = p
      · have hne : q.queue ≠ [] := by
          rw [← Core.queueOf_of_mem h.core.pids (List.mem_of_getElem? hq), hpid]
          exact hp rfl
        have hd : requestDepth < w.elv.depth := by
          rcases hpass with he | hd | he
          · exact absurd he hne
          · exact hd
          · omega
        simp [hands, Out.quiet, hd]
      · simp [hands, turnOf, Out.quiet, hcursor hk hq, hpid]
    | @serves q a rest b rq hq hl hpass hr hrq =>
      have hd : ¬ requestDepth < w.elv.depth := fun hd => hpass (.inr (.inl hd))
      obtain ⟨k, hk, hq⟩ := Core.sfqq?_eq_some.mp hq
      obtain ⟨rq', hrq', -, -, how⟩ := h.core.linked q (List.mem_of_getElem? hq) a (by simp [hl])
      obtain rfl : rq' = rq := Option.some.inj (hrq'.symm.trans hrq)
      have how : w.owner rq' = q.pid := how
      simp [hands, turnOf, Call.isDispatch, hcursor hk hq, hd, how]
  | _ => simp [hands, turnOf, Call.isDispatch, dispatched_eq_none hs rfl]

private theorem countP_split {α : Type*} {f g d : α → Bool} (l : List α)
    (h : ∀ a ∈ l, g a = (f a && !d a)) : l.countP f = l.countP g + l.countP fun a => f a && d a := by
  induction l with
  | nil => rfl
  | cons a l ih =>
    have ih := ih fun b hb => h b (List.mem_cons_of_mem _ hb)
    have ha := h a (List.mem_cons_self ..)
    simp only [List.countP_cons]
    cases hf : f a <;> cases hd : d a <;> simp only [hf, hd] at ha <;> simp [ha] <;> omega

private theorem event_pids {tr : List (Event _ _ Out)} (h : Inv w) (hr : (elevator wrap).machine.Run w tr w')
    (hsize : ∀ e ∈ tr, e.post.elv.sfqqSize = e.pre.elv.sfqqSize) :
    ∀ e ∈ tr, Inv e.pre ∧ (elevator wrap).machine.step e.pre e.call = some (e.out, e.post) ∧
      e.pre.elv.queue.map SfqQueue.pid = w.elv.queue.map SfqQueue.pid := by
  induction hr with
  | nil => simp
  | cons hl hs _ ih =>
    intro e he
    rcases List.mem_cons.mp he with rfl | he
    · exact ⟨h, hs, rfl⟩
    · obtain ⟨hinv, hstep, hpids⟩ := ih (h.step hl hs) (fun e he => hsize e (List.mem_cons_of_mem _ he)) e he
      exact ⟨hinv, hstep, hpids.trans (pids_step h hl hs (hsize _ (List.mem_cons_self ..)))⟩

private theorem countP_hands {tr : List (Event _ _ Out)} (h : Inv w) (hn : 2 ≤ w.elv.queue.length)
    (hr : (elevator wrap).machine.Run w tr w') (hsize : ∀ e ∈ tr, e.post.elv.sfqqSize = e.pre.elv.sfqqSize)
    (hp : ∀ e ∈ tr, e.call.isDispatch = true → e.pre.elv.queueOf p ≠ []) :
    tr.countP (turnOf p) = tr.countP (hands p) + tr.countP (refused p) := by
  apply countP_split
  intro e he
  obtain ⟨hinv, hs, hpids⟩ := event_pids h hr hsize e he
  have hlen : e.pre.elv.queue.length = w.elv.queue.length := by
    simpa using congrArg List.length hpids
  exact hands_step hinv hs (by omega) (hp e he)

private theorem registered_of_waiting {tr : List (Event _ _ Out)} (h : Inv w)
    (hr : (elevator wrap).machine.Run w tr w') (hsize : ∀ e ∈ tr, e.post.elv.sfqqSize = e.pre.elv.sfqqSize)
    {e : Event _ _ Out} (he : e ∈ tr) (hq : e.pre.elv.queueOf p ≠ []) :
    ∃ i : Nat, i < w.elv.queue.length ∧ (w.elv.queue.map SfqQueue.pid)[i]? = some p := by
  have hmem : p ∈ e.pre.elv.queue.map SfqQueue.pid := by
    rcases Core.registered_or e.pre.elv.toCore p with ⟨q, hqm, hpid⟩ | hnone
    · exact List.mem_map.mpr ⟨q, hqm, hpid⟩
    · exact absurd (Core.queueOf_of_unregistered hnone) hq
  rw [(event_pids h hr hsize e he).2.2] at hmem
  obtain ⟨i, hi⟩ := List.mem_iff_getElem?.mp hmem
  have hlt := (List.getElem?_eq_some_iff.mp hi).1
  exact ⟨i, by simpa using hlt, hi⟩

private theorem countP_refused_eq_zero {tr : List (Event _ _ Out)} (p : Pid)
    (hd : ∀ e ∈ tr, e.call.isDispatch = true → e.pre.elv.depth ≤ requestDepth) :
    tr.countP (refused p) = 0 := by
  rw [List.countP_eq_zero]
  intro e he hrf
  simp only [refused, turnOf, Bool.and_eq_true, decide_eq_true_eq] at hrf
  have := hd e he hrf.1.1
  omega

/-- Over a run without registrations, two processes that wait at every dispatch get equally many
turns up to one, where a turn is a request handed out or a refusal by the depth test. -/
theorem hands_add_refused_le {tr : List (Event _ _ Out)} (h : Inv w)
    (hr : (elevator wrap).machine.Run w tr w')
    (hsize : ∀ e ∈ tr, e.post.elv.sfqqSize = e.pre.elv.sfqqSize) {p p' : Pid}
    (hp : ∀ e ∈ tr, e.call.isDispatch = true → e.pre.elv.queueOf p ≠ [])
    (hp' : ∀ e ∈ tr, e.call.isDispatch = true → e.pre.elv.queueOf p' ≠ []) :
    tr.countP (hands p) + tr.countP (refused p) ≤ tr.countP (hands p') + tr.countP (refused p') + 1 := by
  rcases eq_or_ne p p' with rfl | hne
  · omega
  by_cases hd : ∃ e ∈ tr, e.call.isDispatch = true
  · obtain ⟨e, he, hde⟩ := hd
    obtain ⟨i, hi, hpi⟩ := registered_of_waiting h hr hsize he (hp e he hde)
    obtain ⟨j, hj, hpj⟩ := registered_of_waiting h hr hsize he (hp' e he hde)
    have hij : i ≠ j := by
      rintro rfl
      exact hne (Option.some.inj (hpi.symm.trans hpj))
    rw [← countP_hands h (by omega) hr hsize hp, ← countP_hands h (by omega) hr hsize hp',
      countP_turnOf h hr hsize hpi, countP_turnOf h hr hsize hpj]
    exact turns_fair ⟨by omega, by omega⟩ ⟨by omega, by omega⟩ h.seeks.le _
  · have hquiet : ∀ e ∈ tr, e.call.isDispatch = false := fun e he => by
      simpa using fun hc => hd ⟨e, he, hc⟩
    have hhands : tr.countP (hands p) = 0 := by
      rw [List.countP_eq_zero]
      intro e he
      simp [hands, dispatched_eq_none (event_pids h hr hsize e he).2.1 (hquiet e he)]
    have hrefused : tr.countP (refused p) = 0 :=
      countP_refused_eq_zero p fun e he hc => by simp [hquiet e he] at hc
    omega

/-- Over a run without registrations in which the depth test refuses nothing, two processes that wait
at every dispatch get equally many requests out up to one. -/
theorem hands_fair {tr : List (Event _ _ Out)} (hw : (elevator wrap).Reachable w)
    (hr : (elevator wrap).machine.Run w tr w')
    (hsize : ∀ e ∈ tr, e.post.elv.sfqqSize = e.pre.elv.sfqqSize) {p p' : Pid}
    (hp : ∀ e ∈ tr, e.call.isDispatch = true → e.pre.elv.queueOf p ≠ [])
    (hp' : ∀ e ∈ tr, e.call.isDispatch = true → e.pre.elv.queueOf p' ≠ [])
    (hdepth : ∀ e ∈ tr, e.call.isDispatch = true → e.pre.elv.depth ≤ requestDepth) :
    tr.countP (hands p) ≤ tr.countP (hands p') + 1 ∧ tr.countP (hands p') ≤ tr.countP (hands p) + 1 := by
  have h := Inv.of_reachable hw
  have hle := hands_add_refused_le h hr hsize hp hp'
  have hge := hands_add_refused_le h hr hsize hp' hp
  have hnone := countP_refused_eq_zero p hdepth
  have hnone' := countP_refused_eq_zero p' hdepth
  omega

set_option synthInstance.maxSize 1000 in
theorem hands_fair_two :
    ∃ w tr w', (elevator id).Reachable w ∧ (elevator id).machine.Run w tr w' ∧ tr.countP (hands 7) = 2 ∧
      tr.countP (hands 7) ≤ tr.countP (hands 8) + 1 ∧ tr.countP (hands 8) ≤ tr.countP (hands 7) + 1 := by
  have hplay : (elevator id).machine.Plays (elevator id).init
      [granted 1 7 0, granted 2 8 1, granted 3 7 2, granted 4 8 3, granted 5 7 4, .addRequest 1, .addRequest 2,
        .addRequest 3, .addRequest 4, .addRequest 5] fun _ w =>
        (elevator id).machine.Plays w [.dispatch false, .dispatch true, .completed 1, .dispatch false] fun tr _ =>
          (∀ e ∈ tr, e.post.elv.sfqqSize = e.pre.elv.sfqqSize) ∧
          (∀ e ∈ tr, e.call.isDispatch = true → e.pre.elv.queueOf 7 ≠ []) ∧
          (∀ e ∈ tr, e.call.isDispatch = true → e.pre.elv.queueOf 8 ≠ []) ∧
          (∀ e ∈ tr, e.call.isDispatch = true → e.pre.elv.depth ≤ requestDepth) ∧
          tr.countP (hands 7) = 2 := by decide
  obtain ⟨tr₀, w, hr₀, -, hw⟩ := hplay.exists_run
  obtain ⟨tr, w', hr, -, hsize, h7, h8, hdepth, htwo⟩ := hw.exists_run
  exact ⟨w, tr, w', ⟨tr₀, hr₀⟩, hr, htwo, hands_fair ⟨tr₀, hr₀⟩ hr hsize h7 h8 hdepth⟩

set_option maxRecDepth 10000 in
set_option synthInstance.maxSize 1000 in
/-- Processes 7 and 8 have 35 requests each and 65 have been handed out, so the depth test refuses.
Whenever it refuses process 8 and a completion lets the next call through, that call is for
process 7. -/
theorem hands_not_fair :
    ∃ w tr w', (elevator id).Reachable w ∧ (elevator id).machine.Run w tr w' ∧
      tr.map Event.call = [.dispatch false, .completed 0, .dispatch false, .dispatch false,
        .completed 1, .dispatch false] ∧
      (∀ e ∈ tr, e.post.elv.sfqqSize = e.pre.elv.sfqqSize) ∧
      (∀ e ∈ tr, e.call.isDispatch = true → e.pre.elv.queueOf 7 ≠ [] ∧ e.pre.elv.queueOf 8 ≠ []) ∧
      tr.countP (hands 7) = 2 ∧ tr.countP (hands 8) = 0 := by
  have hplay : (elevator id).machine.Plays (elevator id).init
      ((List.range 70).map (fun i => granted i (if i % 2 = 0 then 7 else 8) i) ++
        (List.range 70).map .addRequest ++ List.replicate 65 (.dispatch false)) fun _ w =>
        (elevator id).machine.Plays w [.dispatch false, .completed 0, .dispatch false,
          .dispatch false, .completed 1, .dispatch false] fun tr _ =>
          (∀ e ∈ tr, e.post.elv.sfqqSize = e.pre.elv.sfqqSize) ∧
          (∀ e ∈ tr, e.call.isDispatch = true → e.pre.elv.queueOf 7 ≠ [] ∧ e.pre.elv.queueOf 8 ≠ []) ∧
          tr.countP (hands 7) = 2 ∧ tr.countP (hands 8) = 0 := by decide +kernel
  obtain ⟨tr₀, w, hr₀, -, hw⟩ := hplay.exists_run
  obtain ⟨tr, w', hr, hc, hP⟩ := hw.exists_run
  exact ⟨w, tr, w', ⟨tr₀, hr₀⟩, hr, hc, hP⟩

end SsdScheduler.Iosched12
