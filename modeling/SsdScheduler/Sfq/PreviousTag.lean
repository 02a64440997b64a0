import SsdScheduler.Sfq.CoreStep

/-!
# The record of the previous request

`prev_sfqr` keeps pointing to the record of the request that was added last. As long as that request
has not been put, the record holds what `sfq_add_request` wrote; afterwards it is free, or it belongs
to another request that has not been added.
-/

namespace SsdScheduler.Sfq

/-- `r` is what `sfq_add_request` wrote into record `a` of request `p`, the last one added. -/
structure Previous (wrap : Int → Int) (w : World Core) (r : SfqRequest) (p : Rq) (a : Addr) : Prop where
  request : r.rq = some p
  prevSfqr : w.elv.prevSfqr = some a
  virtualTime : w.elv.virtualTime = r.startTag
  finishTag : r.finishTag = wrap (r.startTag + requestLength / requestWeight)
  kept : w.phase p ≠ .idle → w.phase p ≠ .set → w.elv.priv1 p = some a ∧ w.elv.pool a = r
  gone : w.phase p = .idle ∨ w.phase p = .set → w.elv.live a = true → (w.elv.pool a).rq = none

variable {wrap : Int → Int} {w w' : World Core} {r : SfqRequest} {p rq : Rq} {a : Addr}

theorem register_frame (c : Core) (pid : Pid) :
    (c.register pid).2.prevSfqr = c.prevSfqr ∧ (c.register pid).2.virtualTime = c.virtualTime ∧
      (c.register pid).2.pool = c.pool ∧ (c.register pid).2.live = c.live := by
  unfold Core.register
  split <;> exact ⟨rfl, rfl, rfl, rfl⟩

namespace Previous

/-- The last request moves on to a phase it stays in the scheduler's hands in, or another one moves. -/
private theorem frame (h : Previous wrap w r p a) {c : Core} {ph : Phase} {log log' : List (Pid × Rq)}
    (hfrom : w.phase rq ≠ .idle ∧ w.phase rq ≠ .set) (hto : ph ≠ .idle ∧ ph ≠ .set)
    (hc : c.prevSfqr = w.elv.prevSfqr ∧ c.virtualTime = w.elv.virtualTime ∧ c.pool = w.elv.pool ∧
      c.live = w.elv.live ∧ c.priv1 = w.elv.priv1) :
    Previous wrap ⟨c, Function.update w.phase rq ph, w.owner, log, log'⟩ r p a := by
  obtain ⟨hprev, hvt, hpool, hlive, hpriv⟩ := hc
  refine ⟨h.request, hprev.trans h.prevSfqr, hvt.trans h.virtualTime, h.finishTag, ?_, ?_⟩
  · intro hi hs
    rw [hpriv, hpool]
    rcases eq_or_ne p rq with rfl | hne
    · exact h.kept hfrom.1 hfrom.2
    · exact h.kept ((Function.update_of_ne hne _ _).symm.trans_ne hi) ((Function.update_of_ne hne _ _).symm.trans_ne hs)
  · intro hphase
    rw [hlive, hpool]
    apply h.gone
    rcases eq_or_ne p rq with rfl | hne
    · simp [hto.1, hto.2] at hphase
    · simpa [hne] using hphase

theorem set (h : Previous wrap w r p a) (hinv : CoreInv w) {pid : Pid} {k : Nat} {sfqr : Option Addr}
    (hi : w.phase rq = .idle) (hf : ∀ a, sfqr = some a → w.elv.live a = false) :
    Previous wrap (w.onSet ((w.elv.register pid).2.allocSfqr rq k sfqr) rq pid) r p a := by
  obtain ⟨hprev, hvt, hpool, hlive⟩ := register_frame w.elv pid
  have hpriv : ((w.elv.register pid).2.allocSfqr rq k sfqr).priv1 = Function.update w.elv.priv1 rq sfqr := by
    rw [Core.allocSfqr_priv1, Core.register_priv1]
  refine ⟨h.request, ?_, ?_, h.finishTag, ?_, ?_⟩
  · cases sfqr <;> exact hprev.trans h.prevSfqr
  · cases sfqr <;> exact hvt.trans h.virtualTime
  · intro hidle hset
    have hne : p ≠ rq := by
      rintro rfl
      exact hset (Function.update_self ..)
    have hbusy : w.phase p ≠ .idle := (Function.update_of_ne hne _ _).symm.trans_ne hidle
    obtain ⟨hp, hr⟩ := h.kept hbusy ((Function.update_of_ne hne _ _).symm.trans_ne hset)
    refine ⟨?_, ?_⟩
    · change ((w.elv.register pid).2.allocSfqr rq k sfqr).priv1 p = some a
      rw [hpriv, Function.update_of_ne hne, hp]
    · cases sfqr with
      | none => exact (congrFun hpool a).trans hr
      | some b =>
        have hab : a ≠ b := by
          rintro rfl
          exact Bool.noConfusion ((hf a rfl).symm.trans (hinv.live p a hbusy hp))
        change Function.update (w.elv.register pid).2.pool b .zero a = r
        rw [Function.update_of_ne hab, hpool, hr]
  · intro hphase hl
    have hold : w.phase p = .idle ∨ w.phase p = .set := by
      rcases eq_or_ne p rq with rfl | hne
      · exact .inl hi
      · exact hphase.imp (Function.update_of_ne hne _ _).symm.trans (Function.update_of_ne hne _ _).symm.trans
    cases sfqr with
    | none =>
      change ((w.elv.register pid).2.pool a).rq = none
      rw [hpool]
      exact h.gone hold (hlive ▸ hl)
    | some b =>
      change (Function.update (w.elv.register pid).2.pool b .zero a).rq = none
      change Function.update (w.elv.register pid).2.live b true a = true at hl
      rcases eq_or_ne a b with rfl | hab
      · rw [Function.update_self]
        rfl
      · rw [Function.update_of_ne hab, hlive] at hl
        rw [Function.update_of_ne hab, hpool]
        exact h.gone hold hl

theorem put (h : Previous wrap w r p a) (hinv : CoreInv w) (junk : SfqRequest)
    (hs : w.phase rq = .set ∨ w.phase rq = .completed) : Previous wrap (w.onPut (w.elv.put rq junk) rq) r p a := by
  have hbusy : w.phase rq ≠ .idle := (World.phase_of_put hs).1
  have hprev : (w.elv.put rq junk).prevSfqr = w.elv.prevSfqr := by unfold Core.put; split <;> rfl
  have hvt : (w.elv.put rq junk).virtualTime = w.elv.virtualTime := by unfold Core.put; split <;> rfl
  have hsame (hne : w.elv.priv1 rq ≠ some a) :
      (w.elv.put rq junk).pool a = w.elv.pool a ∧ (w.elv.put rq junk).live a = w.elv.live a := by
    unfold Core.put
    split
    case h_1 b hb =>
      have hab : a ≠ b := fun he => hne (he ▸ hb)
      exact ⟨Function.update_of_ne hab _ _, Function.update_of_ne hab _ _⟩
    case h_2 => exact ⟨rfl, rfl⟩
  have hfreed (he : w.elv.priv1 rq = some a) : (w.elv.put rq junk).live a = false := by
    simp [Core.put, he]
  refine ⟨h.request, hprev.trans h.prevSfqr, hvt.trans h.virtualTime, h.finishTag, ?_, ?_⟩
  · intro hidle hset
    have hne : p ≠ rq := by
      rintro rfl
      exact hidle (Function.update_self ..)
    have hidle : w.phase p ≠ .idle := (Function.update_of_ne hne _ _).symm.trans_ne hidle
    obtain ⟨hp, hr⟩ := h.kept hidle ((Function.update_of_ne hne _ _).symm.trans_ne hset)
    have hother : w.elv.priv1 rq ≠ some a := fun he => hne (hinv.unique p rq a hidle hbusy hp he)
    exact ⟨(congrFun (Core.put_priv1 junk) p).trans hp, (hsame hother).1.trans hr⟩
  · intro hphase hl
    have hother : w.elv.priv1 rq ≠ some a := by
      intro he
      exact Bool.noConfusion ((hfreed he).symm.trans hl)
    have hold : w.phase p = .idle ∨ w.phase p = .set := by
      rcases eq_or_ne p rq with rfl | hne
      · rcases hs with hs | hs
        · exact .inr hs
        · exact absurd (h.kept hbusy (by simp [hs])).1 hother
      · exact hphase.imp (Function.update_of_ne hne _ _).symm.trans (Function.update_of_ne hne _ _).symm.trans
    obtain ⟨hpool, hlive⟩ := hsame hother
    change ((w.elv.put rq junk).pool a).rq = none
    rw [hpool]
    exact h.gone hold (hlive ▸ hl)

/-- Every step but the adding of a request. -/
theorem step (h : Previous wrap w r p a) (hinv : CoreInv w) (hs : CoreStep wrap w w') (hlog : w'.addLog = w.addLog) :
    Previous wrap w' r p a := by
  cases hs with
  | skip => exact h
  | set rq pid sfqr hi hf => exact h.set hinv hi hf
  | add rq hs hc => simp [World.onAdd] at hlog
  | @serve k q b rest rq hk hq hrq =>
    obtain ⟨rq', hrq', hph, -⟩ := hinv.linked q (List.mem_of_getElem? hk) b (by simp [hq])
    obtain rfl : rq' = rq := Option.some.inj (hrq'.symm.trans hrq)
    exact h.frame (by simp [hph]) (by decide) ⟨rfl, rfl, rfl, rfl, rfl⟩
  | complete rq hd => exact h.frame (by simp [hd]) (by decide) ⟨rfl, rfl, rfl, rfl, rfl⟩
  | put rq junk hs => exact h.put hinv junk hs

/-- The start tag of the next request, while the record is as it was written. -/
theorem nextStartTag (h : Previous wrap w r p a) (hr : w.elv.pool a = r) :
    w.elv.nextStartTag = if r.startTag < r.finishTag then r.finishTag else r.startTag := by
  unfold Core.nextStartTag
  rw [h.prevSfqr, h.virtualTime]
  simp only [hr]

end Previous

theorem tag_frame (hs : CoreStep wrap w w') (hlog : w'.addLog = w.addLog) :
    w'.elv.prevSfqr = w.elv.prevSfqr ∧ w'.elv.virtualTime = w.elv.virtualTime := by
  cases hs with
  | set rq pid sfqr hi hf =>
    obtain ⟨hprev, hvt, -⟩ := register_frame w.elv pid
    cases sfqr <;> exact ⟨hprev, hvt⟩
  | add rq hs hc => simp [World.onAdd] at hlog
  | put rq junk hs =>
    change (w.elv.put rq junk).prevSfqr = _ ∧ (w.elv.put rq junk).virtualTime = _
    unfold Core.put
    split <;> exact ⟨rfl, rfl⟩
  | _ => exact ⟨rfl, rfl⟩

/-- No request was added, or `r` was written for the last one. -/
def Follows (wrap : Int → Int) (w : World Core) : Option SfqRequest → Prop
  | none => w.elv.prevSfqr = none ∧ w.elv.virtualTime = 0
  | some r => ∃ p a, Previous wrap w r p a

theorem Follows.step {x : Option SfqRequest} (h : Follows wrap w x) (hinv : CoreInv w) (hs : CoreStep wrap w w')
    (hlog : w'.addLog = w.addLog) : Follows wrap w' x := by
  cases x with
  | none =>
    obtain ⟨hprev, hvt⟩ := tag_frame hs hlog
    exact ⟨hprev.trans h.1, hvt.trans h.2⟩
  | some r =>
    obtain ⟨p, a, hp⟩ := h
    exact ⟨p, a, hp.step hinv hs hlog⟩

end SsdScheduler.Sfq
