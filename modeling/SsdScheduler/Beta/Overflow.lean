import SsdScheduler.Beta.Tags

/-!
# Start tags that overflow

A tag is computed from the one before. Once a finish tag wraps to a negative number it no longer
exceeds the virtual time, and all later start tags are the same.
-/

namespace SsdScheduler.Iosched12

open Framework Sfq

variable {wrap : Int → Int} {w w' : World SeekData} {o : Out} {c : Call SetEnv Bool SfqRequest} {rq : Rq}
  {e : Event (World SeekData) (Call SetEnv Bool SfqRequest) Out}
  {tr : List (Event (World SeekData) (Call SetEnv Bool SfqRequest) Out)} {r : SfqRequest}

/-- Whenever a request is added, `prev_sfqr` points to what the last `sfq_add_request` wrote. -/
def Retains (tr : List (Event (World SeekData) (Call SetEnv Bool SfqRequest) Out)) : Prop :=
  ∀ pre e post rq r, tr = pre ++ e :: post → e.call = .addRequest rq → previous pre = some r →
    ∃ a, e.pre.elv.prevSfqr = some a ∧ e.pre.elv.pool a = r

/-- The start tag of request number `k`, from `0`. -/
def tagAt (k : Nat) : Int := min (100 * k) 2147483600

/-- The start tag after `t`. -/
def nextTag (t : Int) : Int :=
  let finish := wrapInt (t + requestLength / requestWeight)
  if t < finish then finish else t

theorem nextTag_tagAt (k : Nat) : nextTag (tagAt k) = tagAt (k + 1) := by
  unfold nextTag tagAt wrapInt Int.bmod
  simp only [requestLength, requestWeight]
  omega

theorem tagAt_zero : tagAt 0 = 0 := by
  unfold tagAt
  omega

theorem getLast_tags (n : Nat) : (((List.range n).map tagAt).getLast?.map nextTag).getD 0 = tagAt n := by
  cases n with
  | zero => rw [List.range_zero, tagAt_zero]; rfl
  | succ n =>
    rw [List.range_succ, List.map_append, List.map_singleton, List.getLast?_concat, Option.map_some, Option.getD_some]
    exact nextTag_tagAt n

theorem Retains.of_append {tr' : List (Event (World SeekData) (Call SetEnv Bool SfqRequest) Out)} (h : Retains (tr ++ tr')) :
    Retains tr := by
  intro pre e post rq r he
  apply h pre e (post ++ tr')
  rw [he, List.append_assoc, List.cons_append]

theorem Retains.append (h : Retains tr) (he : ∀ rq r, e.call = .addRequest rq → previous tr = some r →
    ∃ a, e.pre.elv.prevSfqr = some a ∧ e.pre.elv.pool a = r) : Retains (tr ++ [e]) := by
  intro pre e' post rq r heq
  rcases List.eq_nil_or_concat post with rfl | ⟨post', e'', rfl⟩
  · obtain ⟨rfl, he'⟩ := List.append_inj' heq rfl
    obtain rfl : e = e' := List.singleton_inj.mp he'
    exact he rq r
  · rw [List.concat_eq_append, ← List.cons_append, ← List.append_assoc] at heq
    exact h pre e' post' rq r (List.append_inj' heq rfl).1

theorem previous_append (tr : List (Event (World SeekData) (Call SetEnv Bool SfqRequest) Out)) :
    previous (tr ++ [e]) = (written e).or (previous tr) := by
  simp [previous]

theorem startTags_append (tr : List (Event (World SeekData) (Call SetEnv Bool SfqRequest) Out)) :
    startTags (tr ++ [e]) = startTags tr ++ ((written e).map SfqRequest.startTag).toList := by
  cases h : written e <;> simp [startTags, h]

theorem previous_startTag (tr : List (Event (World SeekData) (Call SetEnv Bool SfqRequest) Out)) :
    (previous tr).map SfqRequest.startTag = (startTags tr).getLast? := by
  induction tr using List.reverseRecOn with
  | nil => rfl
  | append_singleton tr e ih =>
    rw [previous_append, startTags_append]
    cases h : written e <;> simp [ih]

/-- The tag assigned by an add, computed from the previous one. -/
theorem written_startTag (hr : (elevator wrapInt).machine.Run (elevator wrapInt).init (tr ++ [e]) w)
    (hretains : Retains (tr ++ [e])) (hc : e.call = .addRequest rq) :
    (written e).map SfqRequest.startTag = some (((startTags tr).getLast?.map nextTag).getD 0) := by
  obtain ⟨hrun, hl, hs, -⟩ := hr.split
  obtain ⟨hinv, hfollows⟩ := follows_run hrun
  have hmem := hretains tr e [] rq
  obtain ⟨w, c, o, w'⟩ := e
  obtain rfl : c = .addRequest rq := hc
  obtain ⟨b, r', -, hwritten, htag, -, -⟩ := written_add hinv hl hs
  rw [hwritten, Option.map_some, htag, ← previous_startTag]
  cases hp : previous tr with
  | none =>
    rw [hp] at hfollows
    simp [Core.nextStartTag, show w.elv.prevSfqr = none from hfollows.1, show w.elv.virtualTime = 0 from hfollows.2]
  | some r =>
    rw [hp] at hfollows
    obtain ⟨p, a, hprev⟩ := hfollows
    obtain ⟨a', ha', hpool⟩ := hmem r rfl rfl hp
    obtain rfl : a = a' := Option.some.inj (hprev.prevSfqr.symm.trans ha')
    have hnext := hprev.nextStartTag hpool
    rw [hprev.finishTag] at hnext
    exact congrArg some hnext

theorem startTags_eq (hr : (elevator wrapInt).machine.Run (elevator wrapInt).init tr w) (hretains : Retains tr) :
    startTags tr = (List.range (startTags tr).length).map tagAt := by
  induction tr using List.reverseRecOn generalizing w with
  | nil => rfl
  | append_singleton tr e ih =>
    have ih := ih hr.split.1 hretains.of_append
    by_cases hc : ∃ rq, e.call = .addRequest rq
    · obtain ⟨rq, hc⟩ := hc
      have hnext : ((startTags tr).getLast?.map nextTag).getD 0 = tagAt (startTags tr).length :=
        (congrArg (fun l => (l.getLast?.map nextTag).getD 0) ih).trans (getLast_tags _)
      rw [startTags_append, written_startTag hr hretains hc, Option.toList_some, hnext, List.length_append,
        List.length_singleton, List.range_succ, List.map_append, ← ih, List.map_singleton]
    · have hnone : written e = none := by
        obtain ⟨w, c, o, w'⟩ := e
        exact written_other fun rq he => hc ⟨rq, he⟩
      rw [startTags_append, hnone]
      simpa using ih

theorem pairwise_tags (n : Nat) : ((List.range n).map tagAt).Pairwise (· < ·) ↔ n ≤ 21474837 := by
  rw [List.pairwise_map]
  constructor
  · intro h
    by_contra hn
    generalize hm : 21474836 = m at hn
    have hlt := List.pairwise_iff_getElem.mp h m (m + 1) (by simp; omega) (by simp; omega) (Nat.lt_succ_self m)
    rw [List.getElem_range, List.getElem_range] at hlt
    unfold tagAt at hlt
    omega
  · intro hn
    apply List.pairwise_lt_range.imp_of_mem
    intro i j hi hj hij
    have hj := List.mem_range.mp hj
    unfold tagAt
    omega

section LongRuns

/-- Runs that set and add new requests, one after the other. -/
structure Adding (tr : List (Event (World SeekData) (Call SetEnv Bool SfqRequest) Out)) (w : World SeekData) (n : Nat) :
    Prop where
  run : (elevator wrapInt).machine.Run (elevator wrapInt).init tr w
  retains : Retains tr
  length : (startTags tr).length = n
  idle : ∀ rq, n ≤ rq → w.phase rq = .idle
  free : ∀ a, n ≤ a → w.elv.live a = false
  last : ∀ r, previous tr = some r → ∃ p, r.rq = some p ∧ w.phase p = .added

theorem set_new {n : Nat} (hi : w.phase n = .idle)
    (hfree : w.elv.live n = false) :
    ∃ w₁, (elevator wrapInt).machine.Run w [⟨w, granted n 7 n, .quiet false, w₁⟩] w₁ ∧ w₁.phase = Function.update w.phase n .set ∧
      w₁.elv.live = Function.update w.elv.live n true ∧ w₁.elv.priv1 n = some n := by
  have hset : sfqSetRequest w.elv n 7 ⟨true, true, true, some n⟩ = some (.quiet false, _) :=
    sfqSetRequest_eq_some.mpr ⟨Bool.or_true _, rfl, rfl⟩
  have hl : (elevator wrapInt).machine.legal w (granted n 7 n) := ⟨hi, by simp [elevator, hfree]⟩
  refine ⟨_, .single hl ((ElevatorOps.step_eq_some _).mpr ⟨_, hset, rfl⟩), rfl, ?_, ?_⟩
  · change Function.update (w.elv.register 7).2.live n true = _
    rw [(register_frame w.elv.toCore 7).2.2.2]
  · change (Core.allocSfqr _ n _ (some n)).priv1 n = some n
    rw [Core.allocSfqr_priv1, Function.update_self]

/-- While the previous request waits its record is as it was written. -/
theorem retained_of_added (hr : (elevator wrapInt).machine.Run (elevator wrapInt).init tr w) (hp : previous tr = some r)
    (hadded : ∀ p, r.rq = some p → w.phase p = .added) : ∃ a, w.elv.prevSfqr = some a ∧ w.elv.pool a = r := by
  obtain ⟨-, hfollows⟩ := follows_run hr
  rw [hp] at hfollows
  obtain ⟨p, a, hprev⟩ := hfollows
  have hphase : (coreWorld w).phase p = .added := hadded p hprev.request
  exact ⟨a, hprev.prevSfqr, (hprev.kept (by simp [hphase]) (by simp [hphase])).2⟩

theorem Adding.succ {n : Nat} (h : Adding tr w n) : ∃ tr' w', Adding tr' w' (n + 1) := by
  obtain ⟨w₁, hset, hphase, hlive, hpriv⟩ := set_new (h.idle n le_rfl) (h.free n le_rfl)
  have hrun := h.run.append hset
  have hinv := Inv.of_reachable ⟨_, hrun⟩
  have hs : w₁.phase n = .set := by rw [hphase, Function.update_self]
  have hrecord : (coreWorld w₁).elv.priv1 n ≠ none := hpriv.trans_ne (Option.some_ne_none n)
  obtain ⟨c, hadd⟩ := Option.ne_none_iff_exists'.mp (hinv.core.addRequest_ne_none wrapInt hs hrecord)
  have hstep : (elevator wrapInt).machine.step w₁ (.addRequest n) = some (.quiet false, _) :=
    (ElevatorOps.step_eq_some _).mpr ⟨_, sfqAddRequest_eq_some.mpr ⟨c, hadd, rfl, rfl⟩, rfl⟩
  obtain ⟨a, r, -, hwritten, -, -, hprev⟩ := written_add hinv hs hstep
  have hl : (elevator wrapInt).machine.legal w₁ (.addRequest n) := hs
  have hnone : written ⟨w, granted n 7 n, .quiet false, w₁⟩ = none := rfl
  have hbefore : previous (tr ++ [⟨w, granted n 7 n, .quiet false, w₁⟩]) = previous tr := by
    rw [previous_append, hnone, Option.none_or]
  refine ⟨_, _, hrun.append (.single hl hstep), ?_, ?_, ?_, ?_, ?_⟩
  · apply (h.retains.append fun _ _ hc => by cases hc).append
    intro rq r' _ hp
    apply retained_of_added hrun hp
    intro p hrq
    obtain ⟨p', hp', hadded⟩ := h.last r' (hbefore ▸ hp)
    obtain rfl : p = p' := Option.some.inj (hrq.symm.trans hp')
    have hne : p ≠ n := by
      rintro rfl
      simp [h.idle p le_rfl] at hadded
    rw [hphase, Function.update_of_ne hne, hadded]
  · rw [startTags_append, startTags_append, hnone, hwritten]
    simp [h.length]
  · intro rq hrq
    have hne : rq ≠ n := Nat.ne_of_gt hrq
    change Function.update w₁.phase n .added rq = .idle
    rw [Function.update_of_ne hne, hphase, Function.update_of_ne hne, h.idle rq (Nat.le_of_succ_le hrq)]
  · intro b hb
    change c.live b = false
    rw [Core.addRequest_live hadd]
    change w₁.elv.live b = false
    rw [hlive, Function.update_of_ne (Nat.ne_of_gt hb), h.free b (Nat.le_of_succ_le hb)]
  · intro r' hr'
    rw [previous_append, hwritten] at hr'
    obtain rfl : r = r' := Option.some.inj hr'
    exact ⟨n, hprev.request, Function.update_self ..⟩

theorem exists_adding (n : Nat) : ∃ tr w, Adding tr w n := by
  induction n with
  | zero =>
    refine ⟨[], _, .nil _, ?_, rfl, fun _ _ => rfl, fun _ _ => rfl, fun r h => by cases h⟩
    intro pre e post rq r he
    simp at he
  | succ n ih =>
    obtain ⟨tr, w, h⟩ := ih
    exact h.succ

end LongRuns

/-- As long as `prev_sfqr` is not overwritten, the start tags of a run increase exactly if it adds at
most 21474837 requests. -/
theorem startTags_increase_iff (hr : (elevator wrapInt).machine.Run (elevator wrapInt).init tr w)
    (hretains : Retains tr) : (startTags tr).Pairwise (· < ·) ↔ (startTags tr).length ≤ 21474837 := by
  have heq := startTags_eq hr hretains
  calc
    (startTags tr).Pairwise (· < ·) ↔ ((List.range (startTags tr).length).map tagAt).Pairwise (· < ·) := by rw [← heq]
    _ ↔ (startTags tr).length ≤ 21474837 := pairwise_tags _

theorem startTags_increase_iff_three :
    ∃ tr w, (elevator wrapInt).machine.Run (elevator wrapInt).init tr w ∧ (startTags tr).length = 3 ∧
      (startTags tr).Pairwise (· < ·) := by
  obtain ⟨tr, w, h⟩ := exists_adding 3
  refine ⟨tr, w, h.run, h.length, (startTags_increase_iff h.run h.retains).mpr ?_⟩
  rw [h.length]
  omega

/-- With 21474838 requests the last two start tags are the same. -/
theorem startTags_stall :
    ∃ tr w, (elevator wrapInt).machine.Run (elevator wrapInt).init tr w ∧ Retains tr ∧
      ¬ (startTags tr).Pairwise (· < ·) := by
  obtain ⟨tr, w, h⟩ := exists_adding 21474838
  refine ⟨tr, w, h.run, h.retains, ?_⟩
  rw [startTags_eq h.run h.retains, pairwise_tags, h.length]
  omega

end SsdScheduler.Iosched12
