import SsdScheduler.Beta.Conservation

/-! # Whether a dispatch that hands out nothing has the queue run again -/

namespace SsdScheduler.Iosched12

open Framework Framework.RoundRobin Sfq

variable {wrap : Int → Int} {w w' : World SeekData} {o : Out} {c : Call SetEnv Bool SfqRequest}

/-- The cursor has been set before any request is outstanding. -/
def Started (w : World SeekData) : Prop := ∀ rq, w.phase rq = .dispatched → w.elv.osSfqq ≠ none

theorem started_step (h : Inv w) (hstarted : Started w) (hs : (elevator wrap).machine.step w c = some (o, w')) :
    Started w' := by
  intro rq hrq hnone
  obtain ⟨hold, hempty⟩ := (osSfqq_step h hs).mp hnone
  suffices hback : w.phase rq = .dispatched from hstarted rq hback hold
  obtain ⟨s, hc, rfl⟩ := (ElevatorOps.step_eq_some _).mp hs
  cases c with
  | dispatch force =>
    have hn := hempty rfl
    have ht := (sfqDispatch_iff force h.ready h.rq_ne_none).mp hc
    cases ht with
    | empty => exact hrq
    | passes hq hp => exact hrq
    | serves hq hl hp hr hd =>
      obtain ⟨k, -, hk⟩ := Core.sfqq?_eq_some.mp hq
      simp [hn] at hk
  | _ => exact (World.phase_of_update (by decide) hrq).2

theorem started_of_reachable (h : (elevator wrap).Reachable w) : Inv w ∧ Started w := by
  apply h.invariant
  · intro w c o w' hw hl hs
    exact ⟨hw.1.step hl hs, started_step hw.1 hw.2 hs⟩
  · exact ⟨.init, fun rq hrq => by cases hrq⟩

theorem depth_of_started (h : Inv w) (hstarted : Started w) (hnone : w.elv.osSfqq = none) : w.elv.depth = 0 := by
  obtain ⟨F, hF, hd⟩ := h.core.outstanding
  have hempty : F = ∅ := by
    apply Finset.eq_empty_of_forall_notMem
    intro rq hrq
    exact hstarted rq ((hF rq).mp hrq) hnone
  rw [hempty] at hd
  exact hd

theorem depth_nonneg (h : Inv w) : 0 ≤ w.elv.depth := by
  obtain ⟨F, -, hd⟩ := h.core.outstanding
  exact (Int.natCast_nonneg F.card).trans_eq hd.symm

/-- While requests wait, only the very first look at an empty queue schedules nothing. -/
theorem kicks_iff (h : Inv w) (hstarted : Started w) (hload : 0 < w.elv.load) (q : SfqQueue) :
    kicks w.elv q = true ↔ w.elv.osSfqq ≠ none ∨ q.queue ≠ [] := by
  have hcount : w.elv.sfqrSize = w.elv.load + w.elv.depth := h.core.count
  have hdepth := depth_nonneg h
  have hsize : w.elv.sfqrSize ≠ 0 := by omega
  unfold kicks
  cases hos : w.elv.osSfqq with
  | none =>
    have hzero := depth_of_started h hstarted hos
    rw [if_neg (by simp [hzero, requestDepth])]
    simp
  | some k =>
    by_cases hq : q.queue = []
    · rw [if_pos (.inl ⟨hq, by simp⟩)]
      simp [hsize]
    · split <;> simp [hsize, hq]

theorem load_of_queue (hn : w.elv.queue = []) : w.elv.load = 0 := by
  simp [Core.load, hn]

/-- The queue under the cursor of the first dispatch is the first one. -/
theorem head_of_first (h : Inv w) (hnone : w.elv.osSfqq = none) {q : SfqQueue}
    (hq : w.elv.sfqq? (next w.elv.queue.length w.elv.sfqqTotalSeek) = some q) : w.elv.queue.head? = some q := by
  have hseek : w.elv.sfqqTotalSeek = 0 := by
    rcases h.seeks with ⟨-, hseek⟩ | ⟨hsome, -⟩
    · exact hseek
    · exact absurd (hnone.symm.trans hsome) (by simp)
  have hnext : next w.elv.queue.length 0 = 1 := by
    unfold next
    split <;> rfl
  rw [hseek, hnext] at hq
  rw [List.head?_eq_getElem?]
  exact hq

/-- A dispatch that hands out nothing while requests wait has scheduled the work, exactly if the cursor
was set before or the first queue is one of those with a request. -/
theorem quiet_dispatch_kicks_iff (h : (elevator wrap).Reachable w) {force : Bool}
    (hs : (elevator wrap).machine.step w (.dispatch force) = some (o, w')) :
    (o.ret = 0 → 0 < w.elv.load → o.kicked = true ∧ w'.elv.unplugWork = true) ↔
      w.elv.load = 0 ∨ w.elv.osSfqq ≠ none ∨ ∃ q ∈ w.elv.queue.head?, q.queue ≠ [] := by
  obtain ⟨hinv, hstarted⟩ := started_of_reachable h
  obtain ⟨s, ht, rfl⟩ := hinv.dispatch_iff.mp hs
  cases ht with
  | empty hn => simp [load_of_queue hn]
  | serves hq hl hp hr hrq =>
    have hfirst : w.elv.osSfqq = none → ∃ q ∈ w.elv.queue.head?, q.queue ≠ [] :=
      fun hnone => ⟨_, head_of_first hinv hnone hq, by simp [hl]⟩
    constructor
    · intro _
      exact .inr (not_or_of_imp hfirst)
    · intro _ hret
      cases hret
  | @passes q hq hp =>
    constructor
    · intro hkick
      rcases Nat.eq_zero_or_pos w.elv.load with hzero | hload
      · exact .inl hzero
      · right
        rcases (kicks_iff hinv hstarted hload q).mp (hkick rfl hload).1 with hsome | hne
        · exact .inl hsome
        · exact not_or_of_imp fun hnone => ⟨q, head_of_first hinv hnone hq, hne⟩
    · rintro hcond - hload
      have hkicks : kicks w.elv q = true := by
        apply (kicks_iff hinv hstarted hload q).mpr
        rcases hcond with hzero | hsome | ⟨q', hhead, hne⟩
        · omega
        · exact .inl hsome
        · apply not_or_of_imp
          intro hnone
          obtain rfl : q = q' := Option.some.inj ((head_of_first hinv hnone hq).symm.trans hhead)
          exact hne
      exact ⟨hkicks, Bool.or_eq_true_iff.mpr (.inl hkicks)⟩

/-- With one process, whose request finds no room in `requests[]`. -/
theorem quiet_dispatch_kicks_iff_single :
    ∃ w o w', (elevator id).Reachable w ∧ (elevator id).machine.step w (.dispatch false) = some (o, w') ∧
      o.ret = 0 ∧ o.kicked = true := by
  have hplay : (elevator id).machine.Plays (elevator id).init [granted 1 7 0, .addRequest 1] fun _ w =>
      (∃ q ∈ w.elv.queue.head?, q.queue ≠ []) ∧ 0 < w.elv.load ∧
        ((elevator id).machine.step w (.dispatch false)).any (·.1.ret == 0) = true := by decide
  obtain ⟨tr, w, hr, -, hq, hload, hret⟩ := hplay.exists_run
  obtain ⟨⟨o, w'⟩, hs, ho⟩ := (Option.any_eq_true _ _).mp hret
  have ho : o.ret = 0 := by simpa using ho
  exact ⟨w, o, w', ⟨tr, hr⟩, hs, ho, ((quiet_dispatch_kicks_iff ⟨tr, hr⟩ hs).mpr (.inr (.inr hq)) ho hload).1⟩

/-- Two processes are known and only the second has added a request when the first dispatch comes: it
returns `0` and schedules nothing. -/
theorem quiet_dispatch_loses_wakeup :
    ∃ w o w', (elevator id).Reachable w ∧ (elevator id).machine.step w (.dispatch false) = some (o, w') ∧
      o.ret = 0 ∧ 2 ∈ w'.elv.waiting 8 ∧ o.kicked = false ∧ w'.elv.unplugWork = false := by
  have hplay : (elevator id).machine.Plays (elevator id).init
      [granted 1 7 0, granted 2 8 1, .addRequest 2] fun _ w =>
        ((elevator id).machine.step w (.dispatch false)).any (fun p => p.1.ret == 0 &&
          decide (2 ∈ p.2.elv.waiting 8) && !p.1.kicked && !p.2.elv.unplugWork) = true := by decide
  obtain ⟨tr, w, hr, -, hlast⟩ := hplay.exists_run
  obtain ⟨⟨o, w'⟩, hs, ho⟩ := (Option.any_eq_true _ _).mp hlast
  simp only [Bool.and_eq_true, beq_iff_eq, decide_eq_true_eq, Bool.not_eq_true'] at ho
  obtain ⟨⟨⟨hret, hwait⟩, hkick⟩, hwork⟩ := ho
  exact ⟨w, o, w', ⟨tr, hr⟩, hs, hret, hwait, hkick, hwork⟩

end SsdScheduler.Iosched12
