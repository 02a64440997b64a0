import SsdScheduler.Beta.Conservation

/-!
# How many requests are outstanding

`sfq_dispatch` refuses once `depth > REQUEST_DEPTH`, so the last dispatch it lets through is the one
made with `depth` equal to the limit.
-/

namespace SsdScheduler.Iosched12

open Framework Framework.RoundRobin Sfq

variable {wrap : Int → Int} {w w' : World SeekData} {o : Out} {c : Call SetEnv Bool SfqRequest}
  {s s' : SeekData} {tr : List (Event (World SeekData) (Call SetEnv Bool SfqRequest) Out)}

/-- The queue the cursor moves to has a request, and `requests[]` has room for it. -/
def Offers (s : SeekData) : Prop :=
  2 ≤ s.queue.length ∧ ∃ q ∈ s.sfqq? (next s.queue.length s.sfqqTotalSeek), q.queue ≠ []

theorem offers_iff {q : SfqQueue} (hq : s.sfqq? (next s.queue.length s.sfqqTotalSeek) = some q) :
    Offers s ↔ 2 ≤ s.queue.length ∧ q.queue ≠ [] := by
  simp [Offers, hq]

theorem Turn.depth (ht : Turn s o s') :
    Offers s ∧ s.depth ≤ requestDepth ∧ s'.depth = s.depth + 1 ∨
      (Offers s → requestDepth < s.depth) ∧ s'.depth = s.depth := by
  cases ht with
  | empty hn => exact .inr ⟨fun hoffers => by simp [Offers, hn] at hoffers, rfl⟩
  | @passes q hq hp =>
    refine .inr ⟨fun hoffers => ?_, rfl⟩
    obtain ⟨htwo, hne⟩ := (offers_iff hq).mp hoffers
    rcases hp with hempty | hdepth | hone
    · exact absurd hempty hne
    · exact hdepth
    · omega
  | @serves q a rest b rq hq hl hp hr hrq =>
    have hne : q.queue ≠ [] := by simp [hl]
    unfold Passes at hp
    push Not at hp
    obtain ⟨-, hdepth, htwo⟩ := hp
    exact .inl ⟨(offers_iff hq).mpr ⟨htwo, hne⟩, hdepth, rfl⟩

theorem depth_dispatch (h : Inv w) {force : Bool}
    (hs : (elevator wrap).machine.step w (.dispatch force) = some (o, w')) :
    Offers w.elv ∧ w.elv.depth ≤ requestDepth ∧ w'.elv.depth = w.elv.depth + 1 ∨
      (Offers w.elv → requestDepth < w.elv.depth) ∧ w'.elv.depth = w.elv.depth := by
  obtain ⟨s, ht, rfl⟩ := h.dispatch_iff.mp hs
  have helv : (w.onDispatch s o.dispatched).elv = s := by cases o.dispatched <;> rfl
  rw [helv]
  exact ht.depth

theorem depth_completed {rq : Rq} (hs : (elevator wrap).machine.step w (.completed rq) = some (o, w')) :
    w'.elv.depth = w.elv.depth - 1 := by
  obtain ⟨s, hcall, rfl⟩ := (ElevatorOps.step_eq_some _).mp hs
  rw [World.after_elv]
  obtain ⟨-, rfl⟩ := (sfqCompleted_eq_some rq).mp hcall
  change w.elv.completed.2.depth = _
  rw [SfqData.completed_toCore]
  rfl

theorem depth_of_other (hs : (elevator wrap).machine.step w c = some (o, w')) (hc : c.isDispatch = false)
    (hne : ∀ rq, c ≠ .completed rq) : w'.elv.depth = w.elv.depth := by
  obtain ⟨s, hcall, rfl⟩ := (ElevatorOps.step_eq_some _).mp hs
  rw [World.after_elv]
  cases c with
  | setRequest rq pid env =>
    obtain ⟨-, -, rfl⟩ := sfqSetRequest_eq_some.mp hcall
    change (Core.allocSfqr _ rq _ env.sfqr).depth = _
    rw [Core.allocSfqr_depth, Core.register_depth]
  | addRequest rq =>
    obtain ⟨c, hadd, -, rfl⟩ := sfqAddRequest_eq_some.mp hcall
    exact Core.addRequest_depth hadd
  | dispatch force => cases hc
  | completed rq => exact absurd rfl (hne rq)
  | putRequest rq junk =>
    cases hcall
    exact Core.put_depth junk

theorem depth_other (hs : (elevator wrap).machine.step w c = some (o, w')) (hc : c.isDispatch = false) :
    w'.elv.depth ≤ w.elv.depth := by
  cases c with
  | completed rq =>
    rw [depth_completed hs]
    exact sub_le_self _ zero_le_one
  | _ => exact (depth_of_other hs hc nofun).le

/-- One more than the limit is never exceeded. -/
theorem depth_le (h : (elevator wrap).Reachable w) : w.elv.depth ≤ requestDepth + 1 := by
  suffices hboth : Inv w ∧ w.elv.depth ≤ requestDepth + 1 from hboth.2
  apply h.invariant
  · rintro w c o w' ⟨hinv, hle⟩ hl hs
    refine ⟨hinv.step hl hs, ?_⟩
    cases c with
    | dispatch force =>
      rcases depth_dispatch hinv hs with ⟨-, hlimit, hdepth⟩ | ⟨-, hdepth⟩ <;> omega
    | _ => exact (depth_other hs rfl).trans hle
  · exact ⟨.init, Int.le_of_lt (by decide : (0 : Int) < requestDepth + 1)⟩

theorem depth_limit_step (h : Inv w) (hle : w.elv.depth ≤ requestDepth)
    (hs : (elevator wrap).machine.step w c = some (o, w')) :
    w'.elv.depth ≤ requestDepth ↔ (c.isDispatch = true → w.elv.depth = requestDepth → ¬ Offers w.elv) := by
  cases c with
  | dispatch force =>
    rcases depth_dispatch h hs with ⟨hoffers, -, hdepth⟩ | ⟨hquiet, hdepth⟩
    · constructor
      · intro _ _ _
        omega
      · intro hcond
        have hne : w.elv.depth ≠ requestDepth := fun he => hcond rfl he hoffers
        omega
    · constructor
      · intro _ _ he hoffers
        exact absurd (hquiet hoffers) (by omega)
      · intro _
        omega
  | _ => exact iff_of_true ((depth_other hs rfl).trans hle) fun hfalse => by cases hfalse

/-- The requests that are outstanding never exceed the limit in a run exactly if no dispatch is made
with a request on offer while the limit is reached. -/
theorem depth_limit_iff (hr : (elevator wrap).machine.Run (elevator wrap).init tr w) :
    (∀ e ∈ tr, e.post.outstanding.ncard = e.post.elv.depth ∧ e.post.elv.depth ≤ requestDepth) ↔
      ∀ e ∈ tr, e.call.isDispatch = true → e.pre.elv.depth = requestDepth → ¬ Offers e.pre.elv := by
  apply hr.forall_iff (I := fun w => Inv w ∧ w.elv.depth ≤ requestDepth)
  · rintro ⟨w, c, o, w'⟩ ⟨hinv, hle⟩ hl hs
    have hinv' : Inv w' := hinv.step hl hs
    have hcount : (w'.outstanding.ncard : Int) = w'.elv.depth := hinv'.core.depth_eq_ncard.2.symm
    have hkeeps := depth_limit_step hinv hle hs
    exact ⟨(and_iff_right hcount).trans hkeeps, fun hcond => ⟨hinv', hkeeps.mpr hcond⟩⟩
  · exact ⟨.init, Int.le_of_lt (by decide : (0 : Int) < requestDepth)⟩

theorem depth_limit_iff_one :
    ∃ tr w, (elevator id).machine.Run (elevator id).init tr w ∧ w.elv.depth = 1 ∧
      ∀ e ∈ tr, e.post.elv.depth ≤ requestDepth := by
  have hplay : (elevator id).machine.Plays (elevator id).init
      [granted 1 7 0, granted 2 8 1, .addRequest 1, .addRequest 2, .dispatch false] fun tr w =>
        w.elv.depth = 1 ∧ ∀ e ∈ tr, e.pre.elv.depth ≠ requestDepth := by decide
  obtain ⟨tr, w, hr, -, hd, hne⟩ := hplay.exists_run
  have hall := (depth_limit_iff hr).mpr fun e he _ hlimit => absurd hlimit (hne e he)
  exact ⟨tr, w, hr, hd, fun e he => (hall e he).2⟩

set_option maxRecDepth 10000 in
/-- Two processes have 65 requests waiting, and 65 dispatches hand them all out. -/
theorem depth_limit_exceeded : ∃ w, (elevator id).Reachable w ∧ w.elv.depth = 65 ∧ requestDepth < w.elv.depth := by
  have hplay : (elevator id).machine.Plays (elevator id).init
      ((List.range 65).flatMap (fun i => [granted i (i % 2 : Nat) i, .addRequest i]) ++
        List.replicate 65 (.dispatch false)) fun _ w => w.elv.depth = 65 := by decide
  obtain ⟨tr, w, hr, -, hd⟩ := hplay.exists_run
  exact ⟨w, ⟨tr, hr⟩, hd, by rw [hd]; decide⟩

end SsdScheduler.Iosched12
