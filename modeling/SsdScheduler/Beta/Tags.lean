import SsdScheduler.Beta.Runs
import SsdScheduler.Sfq.PreviousTag

/-! # The start tags of `sfq-iosched_12.c` over a run -/

namespace SsdScheduler.Iosched12

open Framework Sfq

variable {wrap : Int → Int} {w w' : World SeekData} {o : Out} {c : Call SetEnv Bool SfqRequest} {rq : Rq}
  {e : Event (World SeekData) (Call SetEnv Bool SfqRequest) Out}
  {tr tr' : List (Event (World SeekData) (Call SetEnv Bool SfqRequest) Out)} {r : SfqRequest}

/-- What `sfq_add_request` leaves in the record of its request. -/
def written (e : Event (World SeekData) (Call SetEnv Bool SfqRequest) Out) : Option SfqRequest :=
  match e.call with
  | .addRequest rq => (e.post.elv.priv1 rq).map e.post.elv.pool
  | _ => none

/-- What the last `sfq_add_request` of a run left in the record of its request. -/
def previous (tr : List (Event (World SeekData) (Call SetEnv Bool SfqRequest) Out)) : Option SfqRequest :=
  tr.foldl (fun r e => (written e).or r) none

/-- The start tags assigned in a run. -/
def startTags (tr : List (Event (World SeekData) (Call SetEnv Bool SfqRequest) Out)) : List Int :=
  (tr.filterMap written).map SfqRequest.startTag

theorem written_add (h : Inv w) (hl : w.phase rq = .set)
    (hs : (elevator wrap).machine.step w (.addRequest rq) = some (o, w')) :
    ∃ a r, w.elv.priv1 rq = some a ∧ written ⟨w, .addRequest rq, o, w'⟩ = some r ∧ r.startTag = w.elv.nextStartTag ∧
      w.elv.live a = true ∧ Previous wrap (coreWorld w') r rq a := by
  obtain ⟨s, hc, rfl⟩ := (ElevatorOps.step_eq_some _).mp hs
  obtain ⟨c, hadd, -, rfl⟩ := sfqAddRequest_eq_some.mp hc
  have hbusy : w.phase rq ≠ .idle := by simp [hl]
  obtain ⟨k, q, h0, hk, -⟩ := h.core.home rq hbusy
  obtain ⟨a, h1, rfl⟩ := CoreInv.addRequest_eq h0 hk hadd
  have hpriv : w.elv.priv1 rq = some a := h1
  refine ⟨a, ⟨w.elv.nextStartTag, wrap (w.elv.nextStartTag + requestLength / requestWeight), some rq⟩, hpriv, ?_, rfl,
    h.core.live rq a hbusy hpriv, ⟨rfl, rfl, rfl, rfl, ?_, ?_⟩⟩
  · exact (congrArg (Option.map _) hpriv).trans (congrArg some (Function.update_self ..))
  · exact fun _ _ => ⟨hpriv, Function.update_self ..⟩
  · intro hphase
    simp [World.onAdd, World.after] at hphase

theorem written_other (hc : ∀ rq, c ≠ .addRequest rq) : written ⟨w, c, o, w'⟩ = none := by
  cases c with
  | addRequest rq => exact absurd rfl (hc rq)
  | _ => rfl

theorem addLog_after {σ : Type} {w : World σ} {s : σ} (hc : ∀ rq, c ≠ .addRequest rq) :
    (w.after o s c).addLog = w.addLog := by
  cases c with
  | addRequest rq => exact absurd rfl (hc rq)
  | dispatch env => cases h : o.dispatched <;> simp [World.after, World.onDispatch, h]
  | _ => rfl

theorem follows_step {x : Option SfqRequest} (h : Inv w) (hx : Follows wrap (coreWorld w) x)
    (hl : (elevator wrap).machine.legal w c) (hs : (elevator wrap).machine.step w c = some (o, w')) :
    Follows wrap (coreWorld w') ((written ⟨w, c, o, w'⟩).or x) := by
  by_cases hc : ∃ rq, c = .addRequest rq
  · obtain ⟨rq, rfl⟩ := hc
    obtain ⟨a, r, -, hr, -, -, hprev⟩ := written_add h hl hs
    rw [hr]
    exact ⟨rq, a, hprev⟩
  · have hc : ∀ rq, c ≠ .addRequest rq := fun rq he => hc ⟨rq, he⟩
    rw [written_other hc]
    apply hx.step h.core (h.coreStep hl hs)
    obtain ⟨s, -, rfl⟩ := (ElevatorOps.step_eq_some _).mp hs
    change (w.after o s c).addLog = w.addLog
    exact addLog_after hc

/-- What holds after a run. -/
theorem follows_run (hr : (elevator wrap).machine.Run (elevator wrap).init tr w) :
    Inv w ∧ Follows wrap (coreWorld w) (previous tr) := by
  apply hr.history (P := fun w x => Inv w ∧ Follows wrap (coreWorld w) x)
  · intro e x h hl hs
    exact ⟨h.1.step hl hs, follows_step h.1 h.2 hl hs⟩
  · exact ⟨.init, rfl, rfl⟩

/-- An add after the first finds the record of the previous request alive and as it was written, and
gives the new request the finish tag of the previous one, exactly if that request has not been put. -/
theorem previous_tag_iff (hr : (elevator id).machine.Run (elevator id).init (tr ++ e :: tr') w)
    (hc : e.call = .addRequest rq) (hp : previous tr = some r) :
    r.finishTag = r.startTag + requestLength / requestWeight ∧
    ((∃ a, e.pre.elv.prevSfqr = some a ∧ e.pre.elv.live a = true ∧ e.pre.elv.pool a = r) ∧
        (written e).map SfqRequest.startTag = some r.finishTag ↔
      ∀ p, r.rq = some p → e.pre.phase p ≠ .idle ∧ e.pre.phase p ≠ .set) := by
  obtain ⟨w, c, o, w'⟩ := e
  obtain rfl : c = .addRequest rq := hc
  obtain ⟨hrun, hl, hs, -⟩ := hr.split
  obtain ⟨hinv, hfollows⟩ := follows_run hrun
  rw [hp] at hfollows
  obtain ⟨p, a, hprev⟩ := hfollows
  obtain ⟨b, r', -, hwritten, htag, -, -⟩ := written_add hinv hl hs
  refine ⟨hprev.finishTag, ?_, ?_⟩
  · rintro ⟨⟨b, hb, hlive, hpool⟩, -⟩ p' hp'
    obtain rfl : a = b := Option.some.inj (hprev.prevSfqr.symm.trans hb)
    obtain rfl : p = p' := Option.some.inj (hprev.request.symm.trans hp')
    have hkeeps : ¬ (w.phase p = .idle ∨ w.phase p = .set) := by
      intro hphase
      have hgone := hprev.gone hphase hlive
      rw [show (coreWorld w).elv.pool a = r from hpool, hprev.request] at hgone
      cases hgone
    exact not_or.mp hkeeps
  · intro hphase
    obtain ⟨hidle, hset⟩ := hphase p hprev.request
    obtain ⟨hpriv, hpool⟩ := hprev.kept hidle hset
    refine ⟨⟨a, hprev.prevSfqr, hinv.core.live p a hidle hpriv, hpool⟩, ?_⟩
    have hnext : w.elv.nextStartTag = r.finishTag := by
      have hfinish := hprev.finishTag
      refine (hprev.nextStartTag hpool).trans (if_pos ?_)
      simp only [requestLength, requestWeight, id] at hfinish
      omega
    rw [hwritten, Option.map_some, htag, hnext]

/-- The second request is added while the first is still queued. -/
theorem previous_tag_iff_queued :
    ∃ tr e w, (elevator id).machine.Run (elevator id).init (tr ++ [e]) w ∧
      (written e).map SfqRequest.startTag = some 100 := by
  have hplay : (elevator id).machine.Plays (elevator id).init [granted 1 7 0, .addRequest 1, granted 2 8 3]
      fun tr w => previous tr = some ⟨0, 100, some 1⟩ ∧ w.phase 2 = .set ∧ w.phase 1 = .added ∧
        ((elevator id).machine.step w (.addRequest 2)).isSome = true := by decide
  obtain ⟨tr, w, hr, -, hp, hl, hadded, hsome⟩ := hplay.exists_run
  obtain ⟨⟨o, w'⟩, hs⟩ := Option.isSome_iff_exists.mp hsome
  have hrun : (elevator id).machine.Run (elevator id).init (tr ++ [⟨w, .addRequest 2, o, w'⟩]) w' :=
    hr.append (.single hl hs)
  refine ⟨tr, _, w', hrun, ((previous_tag_iff hrun rfl hp).2.mpr ?_).2⟩
  intro p hp
  obtain rfl : 1 = p := Option.some.inj hp
  simp [hadded]

/-- The first request is dispatched, completed and put before the second is added, whose record is the
one just freed: both requests get the start tag `0`. -/
theorem previous_tag_stale :
    ∃ tr e w r, (elevator id).machine.Run (elevator id).init (tr ++ [e]) w ∧ e.call = .addRequest 2 ∧
      previous tr = some r ∧ r.finishTag = 100 ∧ (written e).map SfqRequest.startTag = some 0 := by
  have hplay : (elevator id).machine.Plays (elevator id).init
      [granted 1 7 0, granted 3 8 1, .addRequest 1, .dispatch false, .completed 1, .putRequest 1 .zero, granted 2 7 0]
      fun tr w => previous tr = some ⟨0, 100, some 1⟩ ∧ w.phase 2 = .set ∧
        ((elevator id).machine.step w (.addRequest 2)).map (fun p =>
          (written ⟨w, .addRequest 2, p.1, p.2⟩).map SfqRequest.startTag) = some (some 0) := by decide
  obtain ⟨tr, w, hr, -, hp, hl, hlast⟩ := hplay.exists_run
  obtain ⟨⟨o, w'⟩, hs, htag⟩ := Option.map_eq_some_iff.mp hlast
  exact ⟨tr, ⟨w, .addRequest 2, o, w'⟩, w', _, hr.append (.single hl hs), rfl, hp, rfl, htag⟩

end SsdScheduler.Iosched12
