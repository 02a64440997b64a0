import SsdScheduler.Sfq.Supply
import SsdScheduler.Theta.Sfq3

/-!
# What runs the queue of `sfq_3.c` again

A dispatch arms the timer before it does anything else. A completion cancels it, but schedules the
work if requests are left, and the timer itself schedules the work when it expires.
-/

namespace SsdScheduler.Sfq3

open Framework Framework.RoundRobin Sfq

variable {wrap : Int → Int} {s s' : CharaData} {o : Out} {w w' : World CharaData} {x : Step}

theorem dispatchSection_kept {kicked : Bool} (h : dispatchSection kicked s = some (o, s')) :
    SfqData.Kept s.toSfqData s'.toSfqData ∧ s'.sfqqTotalSeek = s.sfqqTotalSeek := by
  unfold dispatchSection at h
  split at h
  case isTrue =>
    simp only [Option.bind_eq_bind, Option.bind_eq_some_iff] at h
    obtain ⟨requests, -, sfqr, -, last, -, b, -, h⟩ := h
    split at h
    case isTrue =>
      obtain ⟨pool, -, h⟩ := Option.bind_eq_some_iff.mp h
      obtain ⟨-, rfl⟩ := Prod.mk.inj (Option.some.inj h)
      exact ⟨⟨rfl, rfl, rfl, rfl⟩, rfl⟩
    case isFalse =>
      obtain ⟨-, rfl⟩ := Prod.mk.inj (Option.some.inj h)
      exact ⟨⟨rfl, rfl, rfl, rfl⟩, rfl⟩
  case isFalse =>
    obtain ⟨-, rfl⟩ := Prod.mk.inj (Option.some.inj h)
    exact ⟨⟨rfl, rfl, rfl, rfl⟩, rfl⟩

theorem limited_kept (h : limited s = some (o, s')) :
    SfqData.Kept s.toSfqData s'.toSfqData ∧ s'.sfqqTotalSeek = s.sfqqTotalSeek := by
  unfold limited at h
  split at h
  case isTrue =>
    obtain ⟨-, rfl⟩ := Prod.mk.inj (Option.some.inj h)
    exact ⟨⟨rfl, rfl, rfl, rfl⟩, rfl⟩
  case isFalse =>
    simp only [Option.bind_eq_bind, Option.bind_eq_some_iff] at h
    obtain ⟨k, -, ⟨room, d⟩, ht, hd⟩ := h
    obtain ⟨hkept, hseek⟩ := dispatchSection_kept hd
    exact ⟨(SfqData.transfer_kept ht).trans hkept, hseek⟩

theorem nextDispatch_idleSliceTimer {fuel jumps : Nat} {t t' : SeekData}
    (h : SeekData.nextDispatch fuel t = some (jumps, t')) : t'.idleSliceTimer = t.idleSliceTimer := by
  induction fuel generalizing t jumps with
  | zero => cases h
  | succ fuel ih =>
    simp only [SeekData.nextDispatch, Option.bind_eq_bind, Option.bind_eq_some_iff] at h
    obtain ⟨os, -, h⟩ := h
    split at h
    case isTrue =>
      obtain ⟨⟨j, u⟩, hu, h⟩ := Option.bind_eq_some_iff.mp h
      obtain ⟨-, rfl⟩ := Prod.mk.inj (Option.some.inj h)
      have hsame := ih hu
      exact hsame
    case isFalse =>
      obtain ⟨-, rfl⟩ := Prod.mk.inj (Option.some.inj h)
      rfl

/-- A dispatch does nothing to the cursor, or puts it on the first queue, or runs the loop. -/
theorem sfqDispatch_cases {force : Bool} (h : sfqDispatch s force = some (o, s')) :
    ∃ t : SeekData, t.idleSliceTimer = true ∧ SfqData.Kept t.toSfqData s'.toSfqData ∧ s'.sfqqTotalSeek = t.sfqqTotalSeek ∧
      (t = { s.toSeekData with idleSliceTimer := true } ∨
        s.osSfqq = none ∧ s.queue ≠ [] ∧
          t = { s.toSeekData with idleSliceTimer := true, osSfqq := some 1, sfqqTotalSeek := s.sfqqTotalSeek + 1 } ∨
        s.osSfqq ≠ none ∧ ∃ jumps,
          SeekData.nextDispatch (s.queue.length + 2) { s.toSeekData with idleSliceTimer := true } = some (jumps, t)) := by
  unfold sfqDispatch at h
  cases hos : s.osSfqq with
  | none =>
    simp only [hos] at h
    split at h
    case h_1 =>
      obtain ⟨-, rfl⟩ := Prod.mk.inj (Option.some.inj h)
      exact ⟨_, rfl, ⟨rfl, rfl, rfl, rfl⟩, rfl, .inl (by rw [← hos])⟩
    case h_2 hq =>
      obtain ⟨hkept, hseek⟩ := limited_kept h
      exact ⟨_, rfl, hkept, hseek, .inr (.inl ⟨rfl, by simp [hq], rfl⟩)⟩
  | some os =>
    simp only [hos, Option.bind_eq_bind, Option.bind_eq_some_iff] at h
    obtain ⟨⟨jumps, t⟩, ht, k, -, q, -, hd⟩ := h
    have harmed : t.idleSliceTimer = true := nextDispatch_idleSliceTimer ht
    rw [← hos] at ht
    have hkept : SfqData.Kept t.toSfqData s'.toSfqData ∧ s'.sfqqTotalSeek = t.sfqqTotalSeek := by
      split at hd
      case isTrue => exact dispatchSection_kept hd
      case isFalse => exact limited_kept hd
    exact ⟨t, harmed, hkept.1, hkept.2, .inr (.inr ⟨by simp, jumps, ht⟩)⟩

theorem dispatch_armed {force : Bool} (h : sfqDispatch s force = some (o, s')) : s'.idleSliceTimer = true := by
  obtain ⟨t, harmed, hkept, -⟩ := sfqDispatch_cases h
  exact hkept.idleSliceTimer.trans harmed

section Calls

variable {c : Call SetEnv Bool SfqRequest}

/-- Only dispatches move the cursor, and only dispatches and completions touch the timer or the work. -/
theorem call_frame (hs : (elevator wrap).machine.step w c = some (o, w')) (hd : c.isDispatch = false) :
    w'.elv.osSfqq = w.elv.osSfqq ∧ w'.elv.sfqqTotalSeek = w.elv.sfqqTotalSeek ∧
      w.elv.queue.length ≤ w'.elv.queue.length ∧
      (w.elv.sfqqSize = w.elv.queue.length → w'.elv.sfqqSize = w'.elv.queue.length) ∧
      (w'.elv.idleSliceTimer = w.elv.idleSliceTimer ∧ w'.elv.unplugWork = w.elv.unplugWork ∨
        (0 < w'.elv.sfqrSize → w'.elv.unplugWork = true)) := by
  obtain ⟨s, hc, rfl⟩ := (ElevatorOps.step_eq_some _).mp hs
  rw [World.after_elv]
  cases c with
  | setRequest rq pid env =>
    simp only [ElevatorOps.call, elevator, sfqSetRequest, Option.bind_eq_bind, Option.bind_eq_some_iff,
      Prod.exists] at hc
    obtain ⟨o', d, hset, hc⟩ := hc
    split at hc
    case isTrue => cases hc
    case isFalse =>
      obtain ⟨-, rfl⟩ := Prod.mk.inj (Option.some.inj hc)
      obtain ⟨hos, hn⟩ := SfqData.setRequest_frame hset
      exact ⟨hos, rfl, hn, SfqData.setRequest_sfqqSize hset, .inl (SfqData.setRequest_wakeups hset)⟩
  | addRequest rq =>
    simp only [ElevatorOps.call, elevator, sfqAddRequest, SfqData.addRequest, Option.map_map,
      Option.map_eq_some_iff] at hc
    obtain ⟨c, hadd, hc⟩ := hc
    obtain ⟨-, rfl⟩ := Prod.mk.inj hc
    have hlen := Core.length_addRequest hadd
    exact ⟨rfl, rfl, hlen.ge, fun h => ((Core.addRequest_sfqqSize hadd).trans h).trans hlen.symm, .inl ⟨rfl, rfl⟩⟩
  | dispatch force => cases hd
  | completed rq =>
    simp only [ElevatorOps.call, elevator, sfqCompleted] at hc
    split at hc
    case isTrue =>
      obtain ⟨-, rfl⟩ := Prod.mk.inj (Option.some.inj hc)
      exact ⟨rfl, rfl, le_rfl, id, .inr fun _ => rfl⟩
    case isFalse hpos =>
      obtain ⟨-, rfl⟩ := Prod.mk.inj (Option.some.inj hc)
      exact ⟨rfl, rfl, le_rfl, id, .inr fun h => absurd h hpos⟩
  | putRequest rq junk =>
    obtain ⟨-, rfl⟩ := Prod.mk.inj (Option.some.inj hc)
    have hlen : (w.elv.put rq junk).queue.length = w.elv.queue.length := Core.length_put junk
    exact ⟨rfl, rfl, hlen.ge, fun h => ((Core.put_sfqqSize junk).trans h).trans hlen.symm, .inl ⟨rfl, rfl⟩⟩

end Calls

/-- The cursor is in step with its counter. -/
structure Sound (s : CharaData) : Prop where
  seeks : s.Seeks
  size : s.sfqqSize = s.queue.length

/-- The loop of a dispatch ends. -/
theorem Sound.nextDispatch_eq (h : Sound s) (hos : s.osSfqq ≠ none) :
    ∃ jumps, SeekData.nextDispatch (s.queue.length + 2) { s.toSeekData with idleSliceTimer := true } =
      some (jumps, { s.toSeekData with
        idleSliceTimer := true, osSfqq := some (next s.queue.length s.sfqqTotalSeek)
        sfqqTotalSeek := next s.queue.length s.sfqqTotalSeek }) := by
  rcases h.seeks with ⟨hnone, -⟩ | ⟨hsome, h1, h2⟩
  · exact absurd hnone hos
  · exact ⟨_, SeekData.nextDispatch_eq (s := { s.toSeekData with idleSliceTimer := true }) hsome h1 h2 h.size _⟩

theorem Sound.dispatch {force : Bool} (h : Sound s) (hd : sfqDispatch s force = some (o, s')) : Sound s' := by
  obtain ⟨t, -, hkept, hseek, hcases⟩ := sfqDispatch_cases hd
  have hback (ht : t.Seeks) (hsize : t.sfqqSize = t.queue.length) : Sound s' :=
    ⟨ht.congr hkept.osSfqq hseek hkept.length.ge, (hkept.sfqqSize.trans hsize).trans hkept.length.symm⟩
  rcases hcases with rfl | ⟨hos, hn, rfl⟩ | ⟨hos, jumps, hloop⟩
  · exact hback h.seeks h.size
  · have hzero : s.sfqqTotalSeek = 0 := by
      rcases h.seeks with ⟨-, hzero⟩ | ⟨hsome, -⟩
      · exact hzero
      · exact absurd (hos.symm.trans hsome) (by simp)
    refine hback ?_ h.size
    right
    rw [hzero]
    exact ⟨rfl, le_rfl, List.length_pos_iff.mpr hn⟩
  · obtain ⟨j, heq⟩ := h.nextDispatch_eq hos
    obtain ⟨-, rfl⟩ := Prod.mk.inj (Option.some.inj (heq.symm.trans hloop))
    have hpos : 1 ≤ s.queue.length := by
      rcases h.seeks with ⟨hnone, -⟩ | ⟨-, h1, h2⟩
      · exact absurd hnone hos
      · exact h1.trans h2
    exact hback (SeekData.Seeks.moved (s := s.toSeekData) hpos) h.size

/-- Something will run the queue again. -/
def Awake (w : World CharaData) : Prop := w.elv.idleSliceTimer = true ∨ w.elv.unplugWork = true

theorem elv_of_dispatch {force : Bool} (hs : (elevator wrap).machine.step w (.dispatch force) = some (o, w')) :
    sfqDispatch w.elv force = some (o, w'.elv) := by
  obtain ⟨s, hc, rfl⟩ := (ElevatorOps.step_eq_some _).mp hs
  rw [World.after_elv]
  exact hc

theorem awake_step (hs : (waking wrap).step w x = some (o, w')) (h : x.dispatches = true ∨ Awake w)
    (hpos : 0 < w'.elv.sfqrSize) : Awake w' := by
  cases x with
  | call c =>
    cases hd : c.isDispatch with
    | true =>
      cases c with
      | dispatch force => exact .inl (dispatch_armed (elv_of_dispatch hs))
      | _ => cases hd
    | false =>
      rcases h with hdisp | hawake
      · exact absurd (hdisp.symm.trans hd) (by decide)
      · obtain ⟨-, -, -, -, ⟨htimer, hwork⟩ | hkick⟩ := call_frame hs hd
        · exact hawake.imp htimer.trans hwork.trans
        · exact .inr (hkick hpos)
  | timer =>
    obtain ⟨-, rfl⟩ := Prod.mk.inj (Option.some.inj hs)
    have hne : w.elv.sfqrSize ≠ 0 := (show 0 < w.elv.sfqrSize from hpos).ne'
    exact .inr (by simp [sfqIdleSliceTimer, hne])
  | work force => exact .inl (dispatch_armed (elv_of_dispatch hs))

theorem sound_step (h : Sound w.elv) (hs : (waking wrap).step w x = some (o, w')) : Sound w'.elv := by
  cases x with
  | call c =>
    cases hd : c.isDispatch with
    | true =>
      cases c with
      | dispatch force => exact h.dispatch (elv_of_dispatch hs)
      | _ => cases hd
    | false =>
      obtain ⟨hos, hseek, hn, hsize, -⟩ := call_frame hs hd
      exact ⟨h.seeks.congr hos hseek hn, hsize h.size⟩
  | timer =>
    obtain ⟨-, rfl⟩ := Prod.mk.inj (Option.some.inj hs)
    exact ⟨h.seeks, h.size⟩
  | work force =>
    have htaken : Sound (taken w).elv := ⟨h.seeks, h.size⟩
    exact htaken.dispatch (elv_of_dispatch hs)

theorem sound_of_reachable (h : (waking wrap).Reachable (elevator wrap).init w) : Sound w.elv := by
  apply h.invariant
  · intro w x o w' hw _ hs
    exact sound_step hw hs
  · exact ⟨.inl ⟨rfl, rfl⟩, rfl⟩

/-- `sfq_dispatch` has been called since `sfqr_size` last became positive. -/
def polled (tr : List (Event (World CharaData) Step Out)) : Bool :=
  tr.foldl (fun b e => decide (0 < e.post.elv.sfqrSize) && (b || e.call.dispatches)) false

/-- The loop of a dispatch ends. -/
theorem next_dispatch_ends (h : (waking wrap).Reachable (elevator wrap).init w) (hos : w.elv.osSfqq ≠ none) :
    ∃ jumps t, SeekData.nextDispatch (w.elv.queue.length + 2) { w.elv.toSeekData with idleSliceTimer := true } =
      some (jumps, t) := by
  obtain ⟨jumps, heq⟩ := (sound_of_reachable h).nextDispatch_eq hos
  exact ⟨jumps, _, heq⟩

/-- With requests around since before the last dispatch, the timer is armed or the work scheduled; a
completion, which cancels the timer, schedules the work itself if requests are left. -/
theorem standing_wakeup {tr : List (Event (World CharaData) Step Out)}
    (hr : (waking wrap).Run (elevator wrap).init tr w) :
    (polled tr = true → w.elv.idleSliceTimer = true ∨ w.elv.unplugWork = true) ∧
      ∀ rq o w', (waking wrap).step w (.call (.completed rq)) = some (o, w') → 0 < w'.elv.sfqrSize →
        w'.elv.unplugWork = true := by
  constructor
  · intro hp
    apply hr.history (P := fun w b => b = true → Awake w) _ (by simp) hp
    intro e b h hl hs hb
    obtain ⟨hpos, hb⟩ := (Bool.and_eq_true _ _).mp hb
    apply awake_step hs _ (of_decide_eq_true hpos)
    rcases (Bool.or_eq_true _ _).mp hb with hb | hd
    · exact .inr (h hb)
    · exact .inl hd
  · intro rq o w' hs hpos
    have hs : (elevator wrap).machine.step w (.completed rq) = some (o, w') := hs
    obtain ⟨s, hc, rfl⟩ := (ElevatorOps.step_eq_some _).mp hs
    simp only [ElevatorOps.call, elevator, sfqCompleted] at hc
    split at hc
    case isTrue =>
      obtain ⟨-, rfl⟩ := Prod.mk.inj (Option.some.inj hc)
      rfl
    case isFalse hneg =>
      obtain ⟨-, rfl⟩ := Prod.mk.inj (Option.some.inj hc)
      exact absurd hpos hneg

/-- One of two requests has completed, which cancelled the timer, and the other still waits. -/
theorem standing_wakeup_completed :
    ∃ w, (waking id).Reachable (elevator id).init w ∧ w.elv.idleSliceTimer = false ∧ w.elv.sfqrSize = 1 ∧
      w.elv.unplugWork = true := by
  have hplay : (waking id).Plays (elevator id).init
      [.call (granted 1 7 0), .call (granted 2 8 1), .call (.addRequest 1), .call (.addRequest 2),
        .call (.dispatch false), .timer, .work false, .call (.completed 1)] fun tr w =>
        w.elv.idleSliceTimer = false ∧ w.elv.sfqrSize = 1 ∧ polled tr = true := by decide
  obtain ⟨tr, w, hr, -, htimer, hsize, hp⟩ := hplay.exists_run
  rcases (standing_wakeup hr).1 hp with harmed | hwork
  · exact absurd (htimer.symm.trans harmed) (by decide)
  · exact ⟨w, ⟨tr, hr⟩, htimer, hsize, hwork⟩

end SsdScheduler.Sfq3
