import SsdScheduler.Theta.Runs

/-!
# Which queues the cursor of `sfq_5.c` visits

If two queues are registered when `wrong_sfqq` is set, every round of dispatches visits every queue.
Otherwise `wrong_sfqq` is a process queue, and that queue is never visited again.
-/

namespace SsdScheduler.Sfq5

open Framework Framework.RoundRobin Sfq

variable {wrap : Int → Int} {w w' : World WrongData} {o : Out} {c : Call SetEnv DispatchEnv SfqRequest}

/-- The number of dispatches in a run. -/
def dispatches (tr : List (Event (World WrongData) (Call SetEnv DispatchEnv SfqRequest) Out)) : Nat :=
  tr.countP fun e => e.call.isDispatch

/-- Without registrations the dispatches of a run visit the queues in turn. -/
theorem visits_of_turns {tr : List (Event _ _ Out)} (h : Cursor w.elv) (hr : (overlaidTwo wrap).Run w tr w')
    (hos : w.elv.osSfqq ≠ none) (hn : w'.elv.queue.length = w.elv.queue.length) {k : Nat}
    (hk : k ∈ turns w.elv.queue.length (place w.elv) (dispatches tr)) :
    ∃ e ∈ tr, e.call.isDispatch = true ∧ e.post.elv.osSfqq = some k := by
  induction hr with
  | nil => cases hk
  | @cons w w₁ u c o tr hl hs hr ih =>
    have hle := length_step h hl hs
    have hle' := length_run (h.step hl hs) hr
    cases hd : c.isDispatch with
    | true =>
      cases c with
      | dispatch env =>
        cases dispatch_moved h hl hs with
        | empty hnone => exact absurd hnone hos
        | first hnone => exact absurd hnone hos
        | turn _ hos' hwrong hlen =>
          have hcount : dispatches (⟨w, .dispatch env, o, w₁⟩ :: tr) = dispatches tr + 1 := by
            simp [dispatches, Call.isDispatch]
          rw [hcount, turns, List.mem_cons] at hk
          rcases hk with rfl | hk
          · exact ⟨_, List.mem_cons_self .., rfl, hos'⟩
          · have hplace : place w₁.elv = next w.elv.queue.length (place w.elv) := by
              unfold place
              rw [hwrong, hos']
              rfl
            rw [← hplace, ← hlen] at hk
            obtain ⟨e, he, hed, hek⟩ := ih (h.step hl hs) (hos' ▸ Option.some_ne_none _) (hn.trans hlen.symm) hk
            exact ⟨e, List.mem_cons_of_mem _ he, hed, hek⟩
      | _ => cases hd
    | false =>
      obtain ⟨hos', hwrong, -⟩ := step_frame hs hd
      have hlen : w₁.elv.queue.length = w.elv.queue.length := by omega
      have hcount : dispatches (⟨w, c, o, w₁⟩ :: tr) = dispatches tr := by simp [dispatches, hd]
      have hplace : place w₁.elv = place w.elv := by
        unfold place
        rw [hwrong, hos']
      rw [hcount, ← hplace, ← hlen] at hk
      obtain ⟨e, he, hed, hek⟩ := ih (h.step hl hs) (hos'.trans_ne hos) (hn.trans hlen.symm) hk
      exact ⟨e, List.mem_cons_of_mem _ he, hed, hek⟩

private theorem visits_of_null {tr : List (Event _ _ Out)} (h : Cursor w.elv)
    (hr : (overlaidTwo wrap).Run w tr w') (hos : w.elv.osSfqq = none)
    (hn : w'.elv.queue.length = w.elv.queue.length) {k : Nat} (hk : 1 ≤ k ∧ k ≤ w.elv.queue.length)
    (hm : w.elv.queue.length + 1 ≤ dispatches tr) :
    ∃ e ∈ tr, e.call.isDispatch = true ∧ e.post.elv.osSfqq = some k := by
  induction hr with
  | nil => simp [dispatches] at hm
  | @cons w w₁ u c o tr hl hs hr ih =>
    have hle := length_step h hl hs
    have hle' := length_run (h.step hl hs) hr
    cases hd : c.isDispatch with
    | true =>
      cases c with
      | dispatch env =>
        cases dispatch_moved h hl hs with
        | empty _ h0 => omega
        | first _ _ hos' hwrong hlen =>
          have hcount : dispatches (⟨w, .dispatch env, o, w₁⟩ :: tr) = dispatches tr + 1 := by
            simp [dispatches, Call.isDispatch]
          have hk' : k ∈ turns w₁.elv.queue.length (place w₁.elv) (dispatches tr) :=
            mem_turns (hlen ▸ hk) (h.step hl hs).place_le (by omega)
          obtain ⟨e, he, hed, hek⟩ :=
            visits_of_turns (h.step hl hs) hr (hos' ▸ Option.some_ne_none _) (hn.trans hlen.symm) hk'
          exact ⟨e, List.mem_cons_of_mem _ he, hed, hek⟩
        | turn hne => exact absurd hos hne
      | _ => cases hd
    | false =>
      obtain ⟨hos', -, -⟩ := step_frame hs hd
      have hlen : w₁.elv.queue.length = w.elv.queue.length := by omega
      have hcount : dispatches (⟨w, c, o, w₁⟩ :: tr) = dispatches tr := by simp [dispatches, hd]
      obtain ⟨e, he, hed, hek⟩ :=
        ih (h.step hl hs) (hos'.trans hos) (hn.trans hlen.symm) (hlen ▸ hk) (by rw [← hcount]; omega)
      exact ⟨e, List.mem_cons_of_mem _ he, hed, hek⟩

/-- While the condition is met, the loop ends, the cursor is `NULL` or a process queue after every
dispatch, and every run with more dispatches than queues visits each of them. -/
theorem cursor_visits_all (h : (overlaidTwo wrap).Reachable (elevator wrap).init w) :
    (∀ env, (overlaidTwo wrap).legal w (.dispatch env) → w.elv.osSfqq ≠ none →
      ∃ t, nextDispatch env (w.elv.queue.length + 3) { w.elv with idleSliceTimer := true } = some t) ∧
    (∀ env o w', (overlaidTwo wrap).legal w (.dispatch env) →
      (overlaidTwo wrap).step w (.dispatch env) = some (o, w') →
      w'.elv.osSfqq = none ∨ ∃ k q, w'.elv.osSfqq = some k ∧ w'.elv.sfqq? k = some q) ∧
    ∀ tr w', (overlaidTwo wrap).Run w tr w' → w'.elv.queue.length = w.elv.queue.length →
      w.elv.queue.length + 1 ≤ dispatches tr → ∀ k q, w.elv.sfqq? k = some q →
        ∃ e ∈ tr, e.call.isDispatch = true ∧ e.post.elv.osSfqq = some k := by
  have hc := Cursor.of_reachable h
  refine ⟨?_, ?_, ?_⟩
  · intro env hl hos
    have hc' : Cursor { w.elv with idleSliceTimer := true } := hc.congr rfl rfl le_rfl
    exact ⟨_, hc'.nextDispatch_eq hos hl.1.2 (hl.2 hos)⟩
  · intro env o w' hl hs
    rcases eq_or_ne w'.elv.osSfqq none with hos | hos
    · exact .inl hos
    · exact .inr ((hc.step hl hs).exists_sfqq hos)
  · intro tr w' hr hn hm k q hq
    obtain ⟨j, rfl, hj⟩ := Core.sfqq?_eq_some.mp hq
    have hk : 1 ≤ j + 1 ∧ j + 1 ≤ w.elv.queue.length := ⟨Nat.succ_pos j, (List.getElem?_eq_some_iff.mp hj).1⟩
    rcases eq_or_ne w.elv.osSfqq none with hos | hos
    · exact visits_of_null hc hr hos hn hk hm
    · exact visits_of_turns hc hr hos hn (mem_turns hk hc.place_le (by omega))

/-- Three processes, the third registered after `wrong_sfqq` was set. -/
theorem cursor_visits_all_three :
    ∃ w, (overlaidTwo id).Reachable (elevator id).init w ∧ w.elv.queue.length = 3 ∧ w.elv.osSfqq = some 3 ∧
      ∃ t, nextDispatch ⟨false, 0, true⟩ 6 { w.elv with idleSliceTimer := true } = some t := by
  have hplay : (overlaidTwo id).Plays (elevator id).init
      [granted 1 7 0, granted 2 8 1, .addRequest 2, .dispatch ⟨false, 0, true⟩, .dispatch ⟨true, -3, false⟩,
        granted 3 9 2, .dispatch ⟨false, 0, true⟩, .dispatch ⟨false, 5, true⟩] fun _ w =>
        w.elv.queue.length = 3 ∧ w.elv.osSfqq = some 3 ∧ (overlaidTwo id).legal w (.dispatch ⟨false, 0, true⟩) := by
    decide
  obtain ⟨tr, w, hr, -, hn, hos, hl⟩ := hplay.exists_run
  obtain ⟨t, ht⟩ := (cursor_visits_all ⟨tr, hr⟩).1 _ hl (hos ▸ Option.some_ne_none _)
  exact ⟨w, ⟨tr, hr⟩, hn, hos, t, by rwa [hn] at ht⟩

/-- With one process the second dispatch leaves the cursor on the list head, which is no process
queue. -/
theorem cursor_on_list_head :
    ∃ w o w', (overlaid id).Reachable (elevator id).init w ∧ (overlaid id).legal w (.dispatch ⟨false, 0, false⟩) ∧
      (overlaid id).step w (.dispatch ⟨false, 0, false⟩) = some (o, w') ∧ w'.elv.queue.length = 1 ∧
      w'.elv.osSfqq = some 0 ∧ w'.elv.sfqq? 0 = none := by
  have hplay : (overlaid id).Plays (elevator id).init
      [granted 1 7 0, .addRequest 1, .dispatch ⟨false, 0, false⟩] fun _ w =>
        (overlaid id).legal w (.dispatch ⟨false, 0, false⟩) ∧
        ((overlaid id).step w (.dispatch ⟨false, 0, false⟩)).any (fun r =>
          r.2.elv.queue.length == 1 && r.2.elv.osSfqq == some 0) = true := by decide
  obtain ⟨tr, w, hr, -, hl, hd⟩ := hplay.exists_run
  obtain ⟨⟨o, w'⟩, hs, hw⟩ := (Option.any_eq_true _ _).mp hd
  obtain ⟨hn, hos⟩ : w'.elv.queue.length = 1 ∧ w'.elv.osSfqq = some 0 := by simpa using hw
  exact ⟨w, o, w', ⟨tr, hr⟩, hl, hs, hn, hos, rfl⟩

/-- Until `wrong_sfqq` is set the cursor is `NULL` or on the first queue. -/
private theorem begun (h : (overlaid wrap).Reachable (elevator wrap).init w) :
    w.elv.wrongSfqq = none → w.elv.osSfqq = none ∨ w.elv.osSfqq = some 1 ∧ 1 ≤ w.elv.queue.length := by
  apply Machine.Reachable.invariant h
  · intro w c o w' hw hl hs hwrong
    cases hd : c.isDispatch with
    | true =>
      cases c with
      | dispatch env =>
        obtain ⟨s, hd, rfl⟩ := (ElevatorOps.step_eq_some _).mp hs
        rw [World.after_elv] at *
        rcases sfqDispatch_cases hd with ⟨hos, hn, hsame⟩ | ⟨hos, hn, hsame⟩ | ⟨hos, t, ht, hsame⟩
        · exact .inl (hsame.osSfqq.trans hos)
        · exact .inr ⟨hsame.osSfqq, hsame.length ▸ List.length_pos_iff.mpr hn⟩
        · obtain ⟨k, hk⟩ := Option.ne_none_iff_exists'.mp hos
          have hset := (nextDispatch_wrong ht hk).2.1
          simp [hsame.wrongSfqq, hset] at hwrong
      | _ => cases hd
    | false =>
      obtain ⟨hos, hw', hn⟩ := step_frame hs hd
      rcases hw (hw'.symm.trans hwrong) with h1 | ⟨h1, h2⟩
      · exact .inl (hos.trans h1)
      · exact .inr ⟨hos.trans h1, h2.trans hn⟩
  · exact fun _ => .inl rfl

/-- The loop never stops on `wrong_sfqq` again. -/
private theorem passes_wrong {tr : List (Event _ _ Out)} {k : Nat} (hr : (overlaid wrap).Run w tr w')
    (hwrong : w.elv.wrongSfqq = some k) (hos : w.elv.osSfqq ≠ none) :
    ∀ e ∈ tr, e.call.isDispatch = true → e.post.elv.osSfqq ≠ some k := by
  induction hr with
  | nil => intro e he; cases he
  | @cons w w₁ u c o tr hl hs _ ih =>
    have hnext : w₁.elv.wrongSfqq = some k ∧ w₁.elv.osSfqq ≠ none ∧
        (c.isDispatch = true → w₁.elv.osSfqq ≠ some k) := by
      cases hd : c.isDispatch with
      | true =>
        cases c with
        | dispatch env =>
          obtain ⟨s, hd, rfl⟩ := (ElevatorOps.step_eq_some _).mp hs
          rw [World.after_elv]
          rcases sfqDispatch_cases hd with ⟨hnone, -⟩ | ⟨hnone, -⟩ | ⟨-, t, ht, hsame⟩
          · exact absurd hnone hos
          · exact absurd hnone hos
          · obtain ⟨j, hj⟩ := Option.ne_none_iff_exists'.mp hos
            obtain ⟨-, hw, hsome, hne⟩ := nextDispatch_wrong ht hj
            have hw : t.wrongSfqq = some k := by simpa [hwrong] using hw
            rw [hsame.osSfqq, hsame.wrongSfqq]
            exact ⟨hw, hsome, fun _ => hw ▸ hne⟩
        | _ => cases hd
      | false =>
        obtain ⟨hos', hw', -⟩ := step_frame hs hd
        exact ⟨hw'.trans hwrong, hos'.trans_ne hos, fun hf => by cases hf⟩
    intro e he hed
    rcases List.mem_cons.mp he with rfl | he
    · exact hnext.2.2 hed
    · exact ih hnext.1 hnext.2.1 e he hed

/-- If the dispatch that sets `wrong_sfqq` does not find two queues, some queue is not visited any
more. -/
theorem cursor_misses_one {env : DispatchEnv} (h : (overlaid wrap).Reachable (elevator wrap).init w)
    (hos : w.elv.osSfqq ≠ none) (hwrong : w.elv.wrongSfqq = none) (hn : w.elv.queue.length ≠ 2)
    (hs : (overlaid wrap).step w (.dispatch env) = some (o, w')) :
    ∃ k q, w'.elv.sfqq? k = some q ∧ ∀ tr u, (overlaid wrap).Run w' tr u →
      ∀ e ∈ tr, e.call.isDispatch = true → e.post.elv.osSfqq ≠ some k := by
  obtain ⟨s, hd, rfl⟩ := (ElevatorOps.step_eq_some _).mp hs
  rw [World.after_elv]
  rcases begun h hwrong with hnone | ⟨hfirst, hpos⟩
  · exact absurd hnone hos
  rcases sfqDispatch_cases hd with ⟨hnone, -⟩ | ⟨hnone, -⟩ | ⟨-, t, ht, hsame⟩
  · exact absurd hnone hos
  · exact absurd hnone hos
  obtain ⟨hcore, hw, hsome, -⟩ := nextDispatch_wrong ht hfirst
  have hlen : s.queue.length = w.elv.queue.length := hsame.length.trans (congrArg (fun c => c.queue.length) hcore)
  obtain ⟨k, hk, h1, h2⟩ : ∃ k, t.wrongSfqq = some k ∧ 1 ≤ k ∧ k ≤ w.elv.queue.length := by
    refine ⟨_, hw, ?_⟩
    simp only [hwrong, Option.getD_none, Core.listNextEntry]
    split <;> split <;> omega
  obtain ⟨q, -, hq⟩ := Core.exists_sfqq (c := s.toCore) h1 (hlen ▸ h2)
  refine ⟨k, q, hq, fun tr u hr => passes_wrong hr ?_ ?_⟩
  · rw [World.after_elv, hsame.wrongSfqq, hk]
  · rw [World.after_elv, hsame.osSfqq]
    exact hsome

end SsdScheduler.Sfq5
