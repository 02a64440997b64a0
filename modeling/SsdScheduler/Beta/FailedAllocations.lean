import SsdScheduler.Beta.DepthLimit

/-!
# Allocations that fail in `sfq-iosched_12.c`

`sfq_set_request` looks at none of its pointers. Without memory for the queue of a new process the
call itself ends on `NULL`; a request without a record ends the `sfq_add_request` that follows; and
an array that could not be moved ends the first `sfq_dispatch` that has a request to put into it.
-/

namespace SsdScheduler.Iosched12

open Framework Framework.RoundRobin Sfq

variable {wrap : Int → Int} {w w' : World SeekData} {o : Out} {c : Call SetEnv Bool SfqRequest}
  {s s' : SeekData} {rq : Rq} {pid : Pid} {env : SetEnv}

/-- `sfq_set_request` reports an error and has changed nothing, or `rq` has the queue of its process
and a live record. -/
def SetOrUntouched (rq : Rq) (pid : Pid) (s : SeekData) (o : Out) (s' : SeekData) : Prop :=
  o.ret ≠ 0 ∧ s'.queue = s.queue ∧ s'.sfqqSize = s.sfqqSize ∧ s'.heapLimitSize = s.heapLimitSize ∧
      s'.requests = s.requests ∨
    o.ret = 0 ∧ (∃ k ∈ s'.priv0 rq, ∃ q ∈ s'.sfqq? k, q.pid = pid) ∧ ∃ a ∈ s'.priv1 rq, s'.live a = true

/-- The call returns, and a request is set completely or not at all. -/
def Survives (wrap : Int → Int) (w : World SeekData) : Call SetEnv Bool SfqRequest → Prop
  | .setRequest rq pid env => ∃ o s, sfqSetRequest w.elv rq pid env = some (o, s) ∧ SetOrUntouched rq pid w.elv o s
  | c => (elevator wrap).machine.Returns w c

/-- A request is set with a record and with a queue for its process, and no dispatch has a request
for an array that is `NULL`. -/
def Equipped (w : World SeekData) : Call SetEnv Bool SfqRequest → Prop
  | .setRequest _ pid env => env.sfqr ≠ none ∧ (w.elv.queue.any (·.pid == pid) || env.sfqq) = true
  | .dispatch _ => w.elv.requests = none → Offers w.elv → requestDepth < w.elv.depth
  | _ => True

instance (s : SeekData) : Decidable (Offers s) :=
  inferInstanceAs (Decidable (2 ≤ s.queue.length ∧
    ∃ q ∈ s.sfqq? (next s.queue.length s.sfqqTotalSeek), q.queue ≠ []))

instance (w : World SeekData) : (c : Call SetEnv Bool SfqRequest) → Decidable (Equipped w c)
  | .setRequest _ pid env =>
    inferInstanceAs (Decidable (env.sfqr ≠ none ∧ (w.elv.queue.any (·.pid == pid) || env.sfqq) = true))
  | .addRequest _ => inferInstanceAs (Decidable True)
  | .dispatch _ => inferInstanceAs (Decidable (w.elv.requests = none → Offers w.elv → requestDepth < w.elv.depth))
  | .completed _ => inferInstanceAs (Decidable True)
  | .putRequest _ _ => inferInstanceAs (Decidable True)

/-- What `sfq_set_request` returns is `0`, with the queue of the process and whatever record there is. -/
theorem setOrUntouched_iff (hs : sfqSetRequest s rq pid env = some (o, s')) :
    SetOrUntouched rq pid s o s' ↔ env.sfqr ≠ none := by
  obtain ⟨-, rfl, rfl⟩ := sfqSetRequest_eq_some.mp hs
  obtain ⟨k, q, hk, hq, hpid, -⟩ := s.toCore.register_spec pid
  cases hsfqr : env.sfqr with
  | none =>
    refine iff_of_false ?_ (by simp)
    rintro (⟨hret, -⟩ | ⟨-, -, a, ha, -⟩)
    · exact hret rfl
    · simp [Core.allocSfqr] at ha
  | some a =>
    refine iff_of_true (.inr ⟨rfl, ⟨k + 1, ?_, q, ?_, hpid⟩, a, ?_, ?_⟩) (by simp)
    · simp [Core.allocSfqr, hk]
    · exact hq
    · simp [Core.allocSfqr]
    · simp [Core.allocSfqr]

theorem survives_set_iff :
    Survives wrap w (.setRequest rq pid env) ↔ Equipped w (.setRequest rq pid env) := by
  constructor
  · rintro ⟨o, s, hs, hset⟩
    exact ⟨(setOrUntouched_iff hs).mp hset, (sfqSetRequest_eq_some.mp hs).1⟩
  · rintro ⟨hsfqr, hqueue⟩
    obtain ⟨o, s, hs⟩ : ∃ o s, sfqSetRequest w.elv rq pid env = some (o, s) :=
      ⟨_, _, sfqSetRequest_eq_some.mpr ⟨hqueue, rfl, rfl⟩⟩
    exact ⟨o, s, hs, (setOrUntouched_iff hs).mpr hsfqr⟩

/-- A dispatch returns unless it has a request for an array that is `NULL`. -/
theorem exists_turn_iff (hrq : ∀ q ∈ s.queue, ∀ a ∈ q.queue, (s.pool a).rq ≠ none) :
    (∃ o s', Turn s o s') ↔ (s.requests = none → Offers s → requestDepth < s.depth) := by
  constructor
  · rintro ⟨o, s', ht⟩ hnull hoffers
    by_contra hdepth
    cases ht with
    | empty hn => simp [Offers, hn] at hoffers
    | @passes q hq hp =>
      obtain ⟨htwo, hne⟩ := (offers_iff hq).mp hoffers
      rcases hp with hempty | hlimit | hone
      · exact hne hempty
      · exact hdepth hlimit
      · omega
    | serves hq hl hp hr hrq => simp [hr] at hnull
  · intro h
    by_cases hr : s.requests = none
    · rcases eq_or_ne s.queue [] with hn | hn
      · exact ⟨_, _, .empty hn⟩
      · obtain ⟨q, hq⟩ := Core.exists_sfqq_next hn s.sfqqTotalSeek
        refine ⟨_, _, .passes hq ?_⟩
        by_contra hp
        unfold Passes at hp
        push Not at hp
        exact absurd (h hr ((offers_iff hq).mpr ⟨hp.2.2, hp.1⟩)) (not_lt.mpr hp.2.1)
    · exact exists_turn hrq fun _ => hr

/-- Every request that was set has a record. -/
def Recorded (w : World SeekData) : Prop := ∀ rq, w.phase rq ≠ .idle → w.elv.priv1 rq ≠ none

/-- A call that sets no request and puts one under way in another phase. -/
theorem Recorded.frame (h : Recorded w) {ph : Phase} (hrq : w.phase rq ≠ .idle) (hp : w'.elv.priv1 = w.elv.priv1)
    (hph : w'.phase = Function.update w.phase rq ph) : Recorded w' := by
  intro r hr
  rw [hph] at hr
  rw [hp]
  exact h r (World.busy_of_update hrq hr)

theorem Recorded.step (h : Recorded w) (hinv : Inv w) (hl : (elevator wrap).machine.legal w c)
    (he : Equipped w c) (hs : (elevator wrap).machine.step w c = some (o, w')) : Recorded w' := by
  obtain ⟨s, hc, rfl⟩ := (ElevatorOps.step_eq_some _).mp hs
  cases c with
  | setRequest rq pid env =>
    obtain ⟨-, rfl, rfl⟩ := sfqSetRequest_eq_some.mp hc
    intro r hr
    change (Core.allocSfqr _ rq _ env.sfqr).priv1 r ≠ none
    rw [Core.allocSfqr_priv1, Core.register_priv1]
    exact records_update h he.1 r hr
  | addRequest rq =>
    obtain ⟨c, hadd, rfl, rfl⟩ := sfqAddRequest_eq_some.mp hc
    have hset : w.phase rq = .set := hl
    exact h.frame (by rw [hset]; decide) (Core.addRequest_priv1 hadd) rfl
  | dispatch force =>
    have ht := (sfqDispatch_iff force hinv.ready hinv.rq_ne_none).mp hc
    have hadded : ∀ rq, o.dispatched = some rq → w.phase rq = .added := fun _ => hinv.added_of_turn ht
    cases ht with
    | empty hn => exact h
    | passes hq hp => exact h
    | serves hq hl hp hr hrq => exact h.frame (by rw [hadded _ rfl]; decide) rfl rfl
  | completed rq =>
    obtain ⟨rfl, rfl⟩ := (sfqCompleted_eq_some rq).mp hc
    have hd : w.phase rq = .dispatched := hl
    refine h.frame (by rw [hd]; decide) ?_ rfl
    change w.elv.completed.2.priv1 = w.elv.priv1
    rw [SfqData.completed_toCore]
    rfl
  | putRequest rq junk =>
    cases hc
    exact h.frame (World.phase_of_put hl).1 (Core.put_priv1 junk) rfl

theorem survives_iff (h : Inv w) (hrec : Recorded w) (hl : (elevator wrap).machine.legal w c) :
    Survives wrap w c ↔ Equipped w c := by
  cases c with
  | setRequest rq pid env => exact survives_set_iff
  | addRequest rq =>
    have hset : w.phase rq = .set := hl
    have hp : w.elv.priv1 rq ≠ none := hrec rq (by rw [hset]; decide)
    obtain ⟨c, hc⟩ := Option.ne_none_iff_exists'.mp (h.core.addRequest_ne_none wrap hset hp)
    exact iff_of_true
      ⟨_, _, (ElevatorOps.step_eq_some _).mpr ⟨_, sfqAddRequest_eq_some.mpr ⟨c, hc, rfl, rfl⟩, rfl⟩⟩ trivial
  | dispatch force =>
    refine Iff.trans ?_ (exists_turn_iff h.rq_ne_none)
    constructor
    · rintro ⟨o, w', hs⟩
      obtain ⟨s, ht, -⟩ := h.dispatch_iff.mp hs
      exact ⟨o, s, ht⟩
    · rintro ⟨o, s, ht⟩
      exact ⟨o, _, h.dispatch_iff.mpr ⟨s, ht, rfl⟩⟩
  | completed rq => exact iff_of_true ⟨_, _, rfl⟩ trivial
  | putRequest rq junk => exact iff_of_true ⟨_, _, rfl⟩ trivial

/-- All calls return and all requests are set completely or not at all, exactly if every request is set
with the memory it needs and no dispatch has a request for an array that is `NULL`. -/
theorem failed_allocations_iff {cs : List (Call SetEnv Bool SfqRequest)}
    (hlegal : (elevator wrap).machine.Each (elevator wrap).machine.legal (elevator wrap).init cs) :
    (elevator wrap).machine.Each (Survives wrap) (elevator wrap).init cs ↔
      (elevator wrap).machine.Each Equipped (elevator wrap).init cs := by
  have hinit : Inv (elevator wrap).init ∧ Recorded (elevator wrap).init := ⟨.init, fun _ hn => absurd rfl hn⟩
  apply Machine.each_iff_of_inv (I := fun w => Inv w ∧ Recorded w) hinit hlegal
  · exact fun w c hw hl => survives_iff hw.1 hw.2 hl
  · exact fun w c o w' hw hl he hs => ⟨hw.1.step hl hs, hw.2.step hw.1 hl he hs⟩

theorem failed_allocations_iff_two :
    (elevator id).machine.Each (Survives id) (elevator id).init
      [granted 1 7 0, .setRequest 2 7 ⟨true, false, false, some 1⟩, .addRequest 1, .dispatch false] := by
  apply (failed_allocations_iff _).mpr
  · decide
  · decide

/-- A request of a new process is set without a record: `0` is returned, and adding it reads through
`NULL`. -/
theorem null_record_added :
    ∃ w w', (elevator id).machine.legal w (.setRequest 1 7 ⟨true, true, true, none⟩) ∧
      (elevator id).machine.step w (.setRequest 1 7 ⟨true, true, true, none⟩) = some (.quiet false, w') ∧
      w.elv.queue = [] ∧ w'.elv.queue ≠ [] ∧ w'.elv.priv1 1 = none ∧
      (elevator id).machine.legal w' (.addRequest 1) ∧ (elevator id).machine.step w' (.addRequest 1) = none :=
  ⟨(elevator id).init, _, by decide, rfl, rfl, by decide, rfl, by decide, rfl⟩

end SsdScheduler.Iosched12
