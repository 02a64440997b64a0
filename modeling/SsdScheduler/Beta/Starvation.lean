import SsdScheduler.Beta.DepthLimit
import SsdScheduler.Beta.Fairness

/-!
# A process that gets nothing

Two processes have requests, and `REQUEST_DEPTH + 1` requests are outstanding. A completion lets one
dispatch through, and the dispatch after it is refused. With completions one at a time the turns that
are refused are those of one process, however long this goes on.
-/

namespace SsdScheduler.Iosched12

open Framework Framework.RoundRobin Sfq

variable {wrap : Int → Int} {w w' w'' : World SeekData} {o : Out} {c : Call SetEnv Bool SfqRequest}
  {p p' : Pid} {rq : Rq} {i j m n : Nat}

/-- A request of process `p` waits. -/
def Waits (w : World SeekData) (p : Pid) : Prop := ∃ rq, w.phase rq = .added ∧ w.owner rq = p

theorem Inv.queueOf_ne_nil (h : Inv w) (hw : Waits w p) : w.elv.queueOf p ≠ [] := by
  obtain ⟨rq, hph, how⟩ := hw
  have hmem : rq ∈ (coreWorld w).elv.waiting p := h.core.mem_waiting.mpr ⟨hph, how⟩
  obtain ⟨a, ha, -⟩ := List.mem_filterMap.mp hmem
  exact List.ne_nil_of_mem ha

/-- A request goes on waiting unless it is handed out. -/
theorem Waits.step (hw : Waits w p) (hl : (elevator wrap).machine.legal w c)
    (hs : (elevator wrap).machine.step w c = some (o, w')) (hn : hands p ⟨w, c, o, w'⟩ = false) : Waits w' p := by
  obtain ⟨rq, hph, how⟩ := hw
  obtain ⟨s, -, rfl⟩ := (ElevatorOps.step_eq_some _).mp hs
  have hmoved {rq' : Rq} (hph' : w.phase rq' ≠ .added) : rq ≠ rq' := by
    rintro rfl
    exact hph' hph
  have hstays {rq' : Rq} (hne : rq ≠ rq') (ph : Phase) : Function.update w.phase rq' ph rq = .added := by
    rwa [Function.update_of_ne hne]
  cases c with
  | setRequest rq' pid env =>
    have hne : rq ≠ rq' := hmoved (by rw [hl.1]; decide)
    exact ⟨rq, hstays hne .set, (Function.update_of_ne hne ..).trans how⟩
  | addRequest rq' =>
    have hph' : w.phase rq' = .set := hl
    exact ⟨rq, hstays (hmoved (by rw [hph']; decide)) .added, how⟩
  | dispatch force =>
    cases hd : o.dispatched with
    | none => exact ⟨rq, by simpa [World.after, World.onDispatch, hd] using hph,
        by simpa [World.after, World.onDispatch, hd] using how⟩
    | some rq' =>
      have hne : rq ≠ rq' := by
        rintro rfl
        simp [hands, hd, how] at hn
      refine ⟨rq, ?_, by simpa [World.after, World.onDispatch, hd] using how⟩
      simpa [World.after, World.onDispatch, hd] using hstays hne .dispatched
  | completed rq' =>
    have hph' : w.phase rq' = .dispatched := hl
    exact ⟨rq, hstays (hmoved (by rw [hph']; decide)) .completed, how⟩
  | putRequest rq' junk => exact ⟨rq, hstays (hmoved (World.phase_of_put hl).2.1) .idle, how⟩

/-- On the way from `w` to `w'` no process registers and both processes wait at every dispatch;
`p` gets `n` requests out and `p'` none. -/
def Neglects (wrap : Int → Int) (p p' : Pid) (n : Nat) (w w' : World SeekData) : Prop :=
  ∃ tr, (elevator wrap).machine.Run w tr w' ∧ (∀ e ∈ tr, e.post.elv.sfqqSize = e.pre.elv.sfqqSize) ∧
    (∀ e ∈ tr, e.call.isDispatch = true → e.pre.elv.queueOf p ≠ [] ∧ e.pre.elv.queueOf p' ≠ []) ∧
    tr.countP (hands p) = n ∧ tr.countP (hands p') = 0

namespace Neglects

theorem refl : Neglects wrap p p' 0 w w := ⟨[], .nil w, by simp, by simp, rfl, rfl⟩

theorem trans (h : Neglects wrap p p' n w w') (h' : Neglects wrap p p' m w' w'') :
    Neglects wrap p p' (n + m) w w'' := by
  obtain ⟨tr, hr, hsize, hwaits, hn, hzero⟩ := h
  obtain ⟨tr', hr', hsize', hwaits', hm, hzero'⟩ := h'
  refine ⟨tr ++ tr', hr.append hr', ?_, ?_, ?_, ?_⟩
  · simpa only [List.forall_mem_append] using ⟨hsize, hsize'⟩
  · simpa only [List.forall_mem_append] using ⟨hwaits, hwaits'⟩
  · rw [List.countP_append, hn, hm]
  · rw [List.countP_append, hzero, hzero']

theorem single (hl : (elevator wrap).machine.legal w c) (hs : (elevator wrap).machine.step w c = some (o, w'))
    (hsize : w'.elv.sfqqSize = w.elv.sfqqSize)
    (hwaits : c.isDispatch = true → w.elv.queueOf p ≠ [] ∧ w.elv.queueOf p' ≠ [])
    (hn : (hands p ⟨w, c, o, w'⟩).toNat = n) (hzero : hands p' ⟨w, c, o, w'⟩ = false) :
    Neglects wrap p p' n w w' := by
  refine ⟨_, .single hl hs, by simpa using hsize, by simpa using hwaits, ?_, by simp [hzero]⟩
  rw [← hn]
  cases hp : hands p ⟨w, c, o, w'⟩ with
  | false => simp [hp]
  | true => simp [hp]

end Neglects

/-- Processes `p` and `p'` are the only ones, at the places `i` and `j`, and memory was never short. -/
structure Rivals (p p' : Pid) (i j : Nat) (w : World SeekData) : Prop where
  inv : Inv w
  supplied : Supplied (dataWorld w)
  two : w.elv.queue.length = 2
  left : (w.elv.queue.map SfqQueue.pid)[i]? = some p
  right : (w.elv.queue.map SfqQueue.pid)[j]? = some p'
  apart : i ≠ j

namespace Rivals

theorem step (wrap : Int → Int) (h : Rivals p p' i j w) (hl : (granting (elevator wrap)).legal w c)
    (hreg : ∀ rq pid env, c = .setRequest rq pid env → pid = p) :
    ∃ o w', (elevator wrap).machine.step w c = some (o, w') ∧ w'.elv.sfqqSize = w.elv.sfqqSize ∧
      Rivals p p' i j w' := by
  obtain ⟨o, w', hs⟩ := exists_step h.inv h.supplied hl
  have hs' : (elevator wrap).machine.step w c = some (o, w') := hs
  have hsize : w'.elv.sfqqSize = w.elv.sfqqSize := by
    apply sfqqSize_step h.inv hs'
    rintro rq pid env rfl
    obtain rfl := hreg rq pid env rfl
    obtain ⟨q, hq, hpid⟩ := List.mem_map.mp (List.mem_of_getElem? h.left)
    exact List.any_eq_true.mpr ⟨q, hq, by simp [hpid]⟩
  have hpids := pids_step h.inv hl.1 hs' hsize
  have hlen : w'.elv.queue.length = w.elv.queue.length := by simpa using congrArg List.length hpids
  exact ⟨o, w', hs', hsize, h.inv.step hl.1 hs', supplied_step h.inv h.supplied hl hs, hlen.trans h.two,
    hpids ▸ h.left, hpids ▸ h.right, h.apart⟩

theorem ne_nil (h : Rivals p p' i j w) : w.elv.queue ≠ [] := by
  rw [← List.length_pos_iff, h.two]
  decide

/-- The two processes take turns. -/
theorem next_after (h : Rivals p p' i j w) {k : Nat} (hk : k < 2) :
    next 2 (k + 1) = (if k = j then i else j) + 1 := by
  have hi : i < (w.elv.queue.map SfqQueue.pid).length := (List.getElem?_eq_some_iff.mp h.left).1
  have hj : j < (w.elv.queue.map SfqQueue.pid).length := (List.getElem?_eq_some_iff.mp h.right).1
  rw [List.length_map, h.two] at hi hj
  have hne := h.apart
  unfold next
  split <;> split <;> omega

end Rivals

/-- The two processes when the depth is `d` and the cursor moves to place `k` next, with a request of
`p'` waiting. -/
structure Contest (p p' : Pid) (i j : Nat) (d : Int) (k : Nat) (w : World SeekData) : Prop
    extends Rivals p p' i j w where
  depth : w.elv.depth = d
  turn : next 2 w.elv.sfqqTotalSeek = k + 1
  waits : Waits w p'

namespace Contest

variable (wrap) {d : Int} {k : Nat}

/-- A call that is not a dispatch hands out nothing. -/
theorem quiet (h : Contest p p' i j d k w) (hl : (granting (elevator wrap)).legal w c) (hc : c.isDispatch = false)
    (hreg : ∀ rq pid env, c = .setRequest rq pid env → pid = p) :
    ∃ o w', (elevator wrap).machine.step w c = some (o, w') ∧ Neglects wrap p p' 0 w w' ∧
      Contest p p' i j w'.elv.depth k w' ∧ (Waits w p → Waits w' p) := by
  obtain ⟨o, w', hs, hsize, h'⟩ := h.step wrap hl hreg
  have hnone (p : Pid) : hands p ⟨w, c, o, w'⟩ = false := by simp [hands, dispatched_eq_none hs hc]
  have hseek : w'.elv.sfqqTotalSeek = w.elv.sfqqTotalSeek := by
    rw [sfqqTotalSeek_step h.inv h.ne_nil hs, hc]
    rfl
  have hnext := h.turn
  rw [← hseek] at hnext
  exact ⟨o, w', hs, .single hl.1 hs hsize (by simp [hc]) (by rw [hnone]; rfl) (hnone p'),
    ⟨h', rfl, hnext, h.waits.step hl.1 hs (hnone p')⟩, fun hw => hw.step hl.1 hs (hnone p)⟩

/-- Both processes wait, so the dispatch hands out a request exactly if the depth test lets it through,
and then one of the process whose turn it is. -/
theorem dispatch (h : Contest p p' i j d k w) (hw : Waits w p) (hp' : k = j → requestDepth < d) :
    ∃ o w', (elevator wrap).machine.step w (.dispatch false) = some (o, w') ∧
      hands p ⟨w, .dispatch false, o, w'⟩ = (k == i && !decide (requestDepth < d)) ∧
      Neglects wrap p p' (k == i && !decide (requestDepth < d)).toNat w w' ∧
      Contest p p' i j w'.elv.depth (if k = j then i else j) w' := by
  have hl : (granting (elevator wrap)).legal w (.dispatch false) := ⟨trivial, trivial⟩
  obtain ⟨o, w', hs, hsize, h'⟩ := h.step wrap hl nofun
  have hq := h.inv.queueOf_ne_nil hw
  have hq' := h.inv.queueOf_ne_nil h.waits
  have hone := hands_step h.inv hs h.two.ge fun _ => hq
  rw [turnOf_step h.inv hs h.left, h.two, h.turn, h.depth] at hone
  have hnone := hands_step h.inv hs h.two.ge fun _ => hq'
  rw [turnOf_step h.inv hs h.right, h.two, h.turn, h.depth] at hnone
  have hone : hands p ⟨w, .dispatch false, o, w'⟩ = (k == i && !decide (requestDepth < d)) := by
    simpa [Call.isDispatch] using hone
  have hnone : hands p' ⟨w, .dispatch false, o, w'⟩ = false := by
    rw [hnone]
    simpa [Call.isDispatch] using hp'
  have hseek : w'.elv.sfqqTotalSeek = k + 1 := by
    rw [sfqqTotalSeek_step h.inv h.ne_nil hs, h.two]
    exact h.turn
  refine ⟨o, w', hs, hone, .single hl.1 hs hsize (fun _ => ⟨hq, hq'⟩) (by rw [hone]) hnone, h', rfl, ?_,
    h.waits.step hl.1 hs hnone⟩
  rw [hseek]
  apply h.next_after
  have hle : next 2 w.elv.sfqqTotalSeek ≤ 2 := next_le (by decide) _
  rw [h.turn] at hle
  exact hle

/-- The call for `p'` is refused. -/
theorem refused (h : Contest p p' i j (requestDepth + 1) j w) (hw : Waits w p) :
    ∃ w', Neglects wrap p p' 0 w w' ∧ Contest p p' i j (requestDepth + 1) i w' ∧ Waits w' p := by
  obtain ⟨o, w', hs, hp, hneglects, h'⟩ := h.dispatch wrap hw fun _ => Int.lt_succ _
  have hdepth : w'.elv.depth = requestDepth + 1 := by
    rcases depth_dispatch h.inv hs with ⟨-, hle, -⟩ | ⟨-, hkeep⟩
    · exact absurd h.depth (by omega)
    · exact hkeep.trans h.depth
  rw [hdepth, if_pos rfl] at h'
  have hl : (elevator wrap).machine.legal w (.dispatch false) := trivial
  exact ⟨w', by simpa using hneglects, h', hw.step hl hs (by simp [hp])⟩

/-- The call after a completion is for `p`, which gets a request out. -/
theorem served (h : Contest p p' i j requestDepth i w) (hw : Waits w p) (hrq : w.phase rq = .completed) :
    ∃ w', Neglects wrap p p' 1 w w' ∧ Contest p p' i j (requestDepth + 1) j w' ∧ w'.phase rq = .completed := by
  obtain ⟨o, w', hs, hp, hneglects, h'⟩ := h.dispatch wrap hw fun he => absurd he h.apart
  obtain ⟨hdepth, hph⟩ : w'.elv.depth = w.elv.depth + 1 ∧ w'.phase rq = .completed := by
    obtain ⟨s, ht, rfl⟩ := h.inv.dispatch_iff.mp hs
    have hadded (rq' : Rq) : o.dispatched = some rq' → w.phase rq' = .added := h.inv.added_of_turn ht
    cases ht with
    | empty hn => simp [hands, Out.quiet] at hp
    | passes hq hpass => simp [hands, Out.quiet] at hp
    | @serves q a rest b rq' hq hl hpass hr hrq' =>
      have hne : rq ≠ rq' := by
        rintro rfl
        simp [hadded rq rfl] at hrq
      exact ⟨rfl, (Function.update_of_ne hne ..).trans hrq⟩
  rw [hdepth, h.depth, if_neg h.apart] at h'
  exact ⟨w', by simpa using hneglects, h', hph⟩

/-- One of the outstanding requests is completed. -/
theorem completed (h : Contest p p' i j (requestDepth + 1) k w) (hw : Waits w p) :
    ∃ w' rq, Neglects wrap p p' 0 w w' ∧ Contest p p' i j requestDepth k w' ∧ Waits w' p ∧
      w'.phase rq = .completed := by
  obtain ⟨F, hF, hcard⟩ := h.inv.core.outstanding
  have hpos : 0 < F.card := by
    have hdepth : w.elv.depth = F.card := hcard
    have hfull := h.depth
    unfold requestDepth at hfull
    omega
  obtain ⟨rq, hmem⟩ := Finset.card_pos.mp hpos
  have hph : w.phase rq = .dispatched := (hF rq).mp hmem
  obtain ⟨o, w', hs, hneglects, h', hkeep⟩ := h.quiet wrap (c := .completed rq) ⟨hph, trivial⟩ rfl nofun
  have hdepth : w'.elv.depth = requestDepth := by rw [depth_completed hs, h.depth, add_sub_cancel_right]
  rw [hdepth] at h'
  refine ⟨w', rq, hneglects, h', hkeep hw, ?_⟩
  obtain ⟨s, -, rfl⟩ := (ElevatorOps.step_eq_some _).mp hs
  exact Function.update_self ..

/-- A completed request is put and set again for `p`, so that `p` never runs out of requests. -/
theorem refilled (h : Contest p p' i j d k w) (hrq : w.phase rq = .completed) :
    ∃ w', Neglects wrap p p' 0 w w' ∧ Contest p p' i j d k w' ∧ Waits w' p := by
  obtain ⟨a, ha⟩ : ∃ a, w.elv.priv1 rq = some a :=
    Option.ne_none_iff_exists'.mp (h.supplied.records rq (by rw [dataWorld, World.map_phase, hrq]; decide))
  obtain ⟨o₁, w₁, hs₁, hn₁, h₁, -⟩ :=
    h.quiet wrap (c := .putRequest rq .zero) ⟨.inr hrq, trivial⟩ rfl fun _ _ _ he => by cases he
  have hd₁ := depth_of_other hs₁ rfl fun _ he => by cases he
  obtain ⟨hidle, hfree⟩ : w₁.phase rq = .idle ∧ w₁.elv.live a = false := by
    obtain ⟨s, hc, rfl⟩ := (ElevatorOps.step_eq_some _).mp hs₁
    cases hc
    refine ⟨Function.update_self .., ?_⟩
    change (w.elv.toCore.put rq .zero).live a = false
    simp [Core.put, ha]
  have hpossible : (some a).all (fun a => !w₁.elv.live a) = true := by simp [hfree]
  obtain ⟨o₂, w₂, hs₂, hn₂, h₂, -⟩ := h₁.quiet wrap (c := granted rq p a)
    ⟨⟨hidle, hpossible⟩, rfl, rfl, Option.some_ne_none a⟩ rfl fun _ _ _ he => by cases he; rfl
  have hd₂ := depth_of_other hs₂ rfl fun _ he => by cases he
  obtain ⟨hset, how⟩ : w₂.phase rq = .set ∧ w₂.owner rq = p := by
    obtain ⟨s, -, rfl⟩ := (ElevatorOps.step_eq_some _).mp hs₂
    exact ⟨Function.update_self .., Function.update_self ..⟩
  obtain ⟨o₃, w₃, hs₃, hn₃, h₃, -⟩ := h₂.quiet wrap (c := .addRequest rq) ⟨hset, trivial⟩ rfl
    fun _ _ _ he => by cases he
  have hd₃ := depth_of_other hs₃ rfl fun _ he => by cases he
  rw [hd₃, hd₂, hd₁, h.depth] at h₃
  refine ⟨w₃, (hn₁.trans hn₂).trans hn₃, h₃, rq, ?_⟩
  obtain ⟨s, -, rfl⟩ := (ElevatorOps.step_eq_some _).mp hs₃
  exact ⟨Function.update_self .., how⟩

end Contest

/-- Completions come one at a time, each followed by two dispatches, and `p` sets a new request after each:
`p` gets any number of requests out and `p'` none. -/
theorem neglects_of_contest (wrap : Int → Int) (h : Contest p p' i j (requestDepth + 1) j w) (hw : Waits w p)
    (n : Nat) : ∃ w', Neglects wrap p p' n w w' := by
  suffices hkeep : ∃ w', Neglects wrap p p' n w w' ∧ Contest p p' i j (requestDepth + 1) j w' ∧ Waits w' p from
    hkeep.imp fun _ hboth => hboth.1
  induction n with
  | zero => exact ⟨w, .refl, h, hw⟩
  | succ n ih =>
    obtain ⟨w₀, hn, h₀, hw₀⟩ := ih
    -- `p'` is refused, a request completes, `p` is served, and the completed request is set again
    obtain ⟨w₁, hn₁, h₁, hw₁⟩ := h₀.refused wrap hw₀
    obtain ⟨w₂, rq, hn₂, h₂, hw₂, hrq⟩ := h₁.completed wrap hw₁
    obtain ⟨w₃, hn₃, h₃, hrq₃⟩ := h₂.served wrap hw₂ hrq
    obtain ⟨w₄, hn₄, h₄, hw₄⟩ := h₃.refilled wrap hrq₃
    refine ⟨w₄, ?_, h₄, hw₄⟩
    simpa using (((hn.trans hn₁).trans hn₂).trans hn₃).trans hn₄

set_option maxRecDepth 10000 in
set_option synthInstance.maxSize 1000 in
/-- Process 7 has 34 requests and process 8 has 33, and 65 dispatches hand out all but one of each. -/
theorem starvation_unbounded :
    ∃ w, (elevator id).Reachable w ∧ ∀ n, ∃ w', Neglects id 7 8 n w w' := by
  have hplay : (granting (elevator id)).Plays (elevator id).init
      ((List.range 67).flatMap (fun i => [granted i (7 + i % 2 : Nat) i, .addRequest i]) ++
        List.replicate 65 (.dispatch false)) fun _ w =>
        w.elv.queue.map SfqQueue.pid = [7, 8] ∧ w.elv.depth = requestDepth + 1 ∧
          next 2 w.elv.sfqqTotalSeek = 1 + 1 ∧ (w.phase 66 = .added ∧ w.owner 66 = 7) ∧
          w.phase 65 = .added ∧ w.owner 65 = 8 := by decide
  obtain ⟨tr, w, hr, -, hpids, hdepth, hturn, h7, h8⟩ := hplay.exists_run
  obtain ⟨hinv, hsup⟩ := of_granting ⟨tr, hr⟩
  have hrivals : Rivals 7 8 0 1 w := by
    refine ⟨hinv, hsup, ?_, by rw [hpids]; rfl, by rw [hpids]; rfl, by decide⟩
    simpa using congrArg List.length hpids
  have hcontest : Contest 7 8 0 1 (requestDepth + 1) 1 w := ⟨hrivals, hdepth, hturn, 65, h8⟩
  exact ⟨w, ⟨tr, hr.of_restrict⟩, neglects_of_contest id hcontest ⟨66, h7⟩⟩

end SsdScheduler.Iosched12
