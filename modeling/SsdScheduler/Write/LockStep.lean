import SsdScheduler.Sfq.PlainPath
import SsdScheduler.Write.Versions

/-!
# The heap path and the plain path agree

Each version runs in lock-step with the dispatcher that serves the queue under the cursor, hence
with the other.
-/

namespace SsdScheduler.Write

open Framework Framework.Heap Framework.RoundRobin Framework.Machine Sfq

/-- The sections of a dispatcher that serve the head of the queue under the cursor. -/
structure ServesHead (fill : SfqData → Nat → Option (Bool × SfqData))
    (serve : SfqData → Nat → Option (Option Rq × SfqData)) : Prop where
  pass : ∀ {d : SfqData} {k : Nat} {q : SfqQueue}, d.HeapIdle → d.sfqq? k = some q → q.queue = [] →
    fill d k = some (true, d) ∧ serve d k = some (none, d)
  head : ∀ {d : SfqData} {k : Nat} {q : SfqQueue} {a : Addr} {rest : List Addr} {rq : Rq} {b : Block Addr},
    d.HeapIdle → d.sfqq? k = some q → q.queue = a :: rest → (d.pool a).rq = some rq →
    d.requests = some b → ∃ room d₁ d₂, fill d k = some (room, d₁) ∧ d₁.osSfqq = d.osSfqq ∧
      serve d₁ k = some (some rq, d₂) ∧ d₂.osSfqq = d.osSfqq ∧ d₂.toCore = d.toCore.serve k q rest ∧
      d₂.heapSize = 0 ∧ d₂.heapLimitSize = d.heapLimitSize ∧ ∃ b', d₂.requests = some b' ∧ b'.length = b.length

variable {d : SfqData} {k : Nat} {q : SfqQueue} {a : Addr} {rest : List Addr} {rq : Rq}

theorem dispatchHead_nil (hk : d.sfqq? k = some q) (hq : q.queue = []) : d.dispatchHead k = some (none, d) := by
  simp [SfqData.dispatchHead, hk, hq]

theorem dispatchHead_cons (hk : d.sfqq? k = some q) (hq : q.queue = a :: rest)
    (hrq : (d.pool a).rq = some rq) :
    d.dispatchHead k = some (some rq, { d with toCore := d.toCore.serve k q rest }) := by
  simp [SfqData.dispatchHead, hk, hq, hrq, Core.serve, Core.setQueue]

theorem Sfq3.servesHead : ServesHead (fun d _ => some (true, d)) SfqData.dispatchHead where
  pass _ hk hq := ⟨rfl, dispatchHead_nil hk hq⟩
  head h hk hq hrq hb :=
    ⟨true, _, _, rfl, rfl, dispatchHead_cons hk hq hrq, rfl, rfl, h.empty, rfl, _, hb, rfl⟩

theorem Sfq4.servesHead : ServesHead SfqData.transfer Sfq4.dispatchSection where
  pass {d k q} h hk hq := by
    constructor
    · exact SfqData.transfer_nil hk hq
    · simp [dispatchSection, SfqData.heapSort_idle h.empty, dispatchHead_nil hk hq]
  head {d k q a rest rq b} h hk hq hrq hb := by
    rcases Nat.lt_or_ge d.queue.length 2 with hn | hn
    · refine ⟨false, d, { d with toCore := d.toCore.serve k q rest }, ?_, rfl, ?_, rfl, rfl, h.empty, rfl,
        b, hb, rfl⟩
      · exact SfqData.transfer_full h hk hq (by omega)
      · simp [dispatchSection, SfqData.heapSort_idle h.empty, dispatchHead_cons hk hq hrq]
    · have hroot : 0 < b.length := by rw [h.slots b hb, h.limit]; omega
      refine ⟨true, d.rooted k q a rest b, { d with
        toCore := d.toCore.serve k q rest, requests := some (b.set 0 (some a)), heapSize := 0 },
        SfqData.transfer_eq h hk hq hn hb, rfl, ?_, rfl, rfl, rfl, rfl, _, rfl, List.length_set⟩
      simp [dispatchSection, SfqData.heapSort_rooted hroot hrq]

/-- What a dispatcher needs to find, beyond what the plain one does. -/
structure HeapReady (s : SeekData) : Prop where
  heap : s.HeapIdle
  requests : s.queue ≠ [] → s.requests ≠ none

section Dispatch

variable {fill : SfqData → Nat → Option (Bool × SfqData)} {serve : SfqData → Nat → Option (Option Rq × SfqData)}
  (hserves : ServesHead fill serve) {s : SeekData} (hseeks : s.Seeks) (hsize : s.sfqqSize = s.queue.length)
  (h : HeapReady s) (hq : s.sfqq? (next s.queue.length s.sfqqTotalSeek) = some q)

include hserves hseeks hsize h hq

private theorem dispatch_refuses (hr : q.queue = [] ∨ requestDepth < s.depth) :
    ∃ kicked, SeekData.dispatchWith fill serve s =
      some (.quiet kicked, { s.moved with toSfqData := s.moved.toSfqData.kickIf kicked }) := by
  have hidle : s.moved.HeapIdle := ⟨h.heap.empty, h.heap.limit, h.heap.slots⟩
  have hos : s.moved.osSfqq = some (next s.queue.length s.sfqqTotalSeek) := rfl
  have hdepth : s.moved.depth = s.depth := rfl
  rw [SeekData.dispatchWith_eq hseeks hsize hq]
  by_cases hnil : q.queue = []
  · obtain ⟨hfill, hserve⟩ := hserves.pass hidle hq hnil
    have hfinish (kicked : Bool) : SeekData.finish serve kicked s.moved =
        some (.quiet kicked, { s.moved with toSfqData := s.moved.toSfqData.kickIf kicked }) := by
      simp only [SeekData.finish, hos, hserve, Option.bind_eq_bind, Option.bind_some]
      rfl
    split
    · exact ⟨_, hfinish _⟩
    · unfold SeekData.limited
      split
      · exact ⟨_, rfl⟩
      · simp only [hos, hfill, Option.bind_eq_bind, Option.bind_some]
        exact ⟨_, hfinish _⟩
  · rw [if_neg fun hj => hnil hj.2, SeekData.limited, hdepth, if_pos (hr.resolve_left hnil)]
    exact ⟨_, rfl⟩

private theorem dispatch_serves (hl : q.queue = a :: rest) (hd : ¬ requestDepth < s.depth)
    (hrq : (s.pool a).rq = some rq) :
    ∃ kicked s', SeekData.dispatchWith fill serve s = some (⟨1, some rq, kicked⟩, s') ∧ HeapReady s' ∧
      s'.view = ⟨s.toCore.serve (next s.queue.length s.sfqqTotalSeek) q rest,
        some (next s.queue.length s.sfqqTotalSeek), next s.queue.length s.sfqqTotalSeek⟩ := by
  have hidle : s.moved.HeapIdle := ⟨h.heap.empty, h.heap.limit, h.heap.slots⟩
  obtain ⟨j, -, hj⟩ := Core.sfqq?_eq_some.mp hq
  obtain ⟨b, hb⟩ := Option.ne_none_iff_exists'.mp (h.requests (List.ne_nil_of_mem (List.mem_of_getElem? hj)))
  obtain ⟨room, d₁, d₂, hfill, hos₁, hserve, hos₂, hcore, hempty, hlimit, b', hb', hlen⟩ :=
    hserves.head (d := s.moved.toSfqData) hidle hq hl hrq hb
  have hos : s.moved.osSfqq = some (next s.queue.length s.sfqqTotalSeek) := rfl
  have hdepth : s.moved.depth = s.depth := rfl
  refine ⟨!room, { s.moved with toSfqData := d₂.kickIf (!room) }, ?_, ⟨⟨hempty, ?_, ?_⟩, ?_⟩, ?_⟩
  · rw [SeekData.dispatchWith_eq hseeks hsize hq, if_neg fun hj => by simp [hl] at hj, SeekData.limited, hdepth,
      if_neg hd]
    simp only [hos, hfill, SeekData.finish, hos₁, hserve, Option.bind_eq_bind, Option.bind_some]
    rfl
  · change d₂.heapLimitSize = d₂.toCore.queue.length
    rw [hlimit, hcore]
    exact h.heap.limit.trans (Core.length_setQueue _).symm
  · intro b'' hb''
    obtain rfl : b' = b'' := Option.some.inj (hb'.symm.trans hb'')
    exact hlen.trans ((h.heap.slots b hb).trans hlimit.symm)
  · intro _
    exact ne_of_eq_of_ne hb' (Option.some_ne_none _)
  · change View.mk d₂.toCore d₂.osSfqq _ = _
    rw [hcore, hos₂]
    rfl

omit hq in
/-- Such a dispatcher does what the plain one does. -/
theorem dispatchWith_of_turn {o : Out} {v : View} (ht : Plain.Turn s.view o v) :
    ∃ o' s', SeekData.dispatchWith fill serve s = some (o', s') ∧ o'.Agrees o ∧ s'.view = v ∧ HeapReady s' := by
  cases ht with
  | empty hn => exact ⟨_, s, SeekData.dispatchWith_empty hseeks hn, ⟨rfl, rfl⟩, rfl, h⟩
  | refuses hq hr =>
    obtain ⟨kicked, hd⟩ := dispatch_refuses hserves hseeks hsize h hq hr
    exact ⟨_, _, hd, ⟨rfl, rfl⟩, rfl, ⟨h.heap.empty, h.heap.limit, h.heap.slots⟩, h.requests⟩
  | serves hq hl hd hrq =>
    obtain ⟨kicked, s', hd, hready, hview⟩ := dispatch_serves hserves hseeks hsize h hq hl hd hrq
    exact ⟨_, s', hd, ⟨rfl, rfl⟩, hview, hready⟩

end Dispatch

/-- The world of a version next to the one of the plain dispatcher. -/
structure Related (w : World SeekData) (v : World View) : Prop where
  view : w.map SeekData.view = v
  plain : Plain.Inv v
  ready : HeapReady w.elv

section Steps

variable {wrap : Int → Int} {sfqDispatch : SeekData → Bool → Option (Out × SeekData)}
  {sfqCompleted : SeekData → Rq → Option (Out × SeekData)}
  (hdispatch : ∀ {s : SeekData} {o : Out} {v : View} (force : Bool), s.Seeks → s.sfqqSize = s.queue.length →
    HeapReady s → Plain.Turn s.view o v →
    ∃ o' s', sfqDispatch s force = some (o', s') ∧ o'.Agrees o ∧ s'.view = v ∧ HeapReady s')
  (hcompleted : ∀ {s : SeekData} (rq : Rq), s.Seeks → s.osSfqq ≠ none →
    sfqCompleted s rq = some (s.completed.1, { s with toSfqData := s.completed.2 }))

include hdispatch hcompleted

private theorem call_eq_some {w : World SeekData} {c : Call SetEnv Bool SfqRequest} {o : Out} {v : View}
    (h : Related w (w.map SeekData.view))
    (hl : (withBio (Write.elevator wrap sfqDispatch sfqCompleted)).legal w c)
    (hc : (Plain.elevator wrap).call w.elv.view c = some (o, v)) :
    ∃ o' s, (Write.elevator wrap sfqDispatch sfqCompleted).call w.elv c = some (o', s) ∧ o'.Agrees o ∧
      s.view = v ∧ HeapReady s := by
  have hseeks : w.elv.Seeks := h.plain.seeks
  cases c with
  | setRequest rq pid env =>
    have hbio : (true && !env.bio) = false := by simp [show env.bio = true from hl.2]
    have hsfqq : env.sfqq = true := hl.1.2.2.1
    obtain ⟨rfl, rfl⟩ := Prod.mk.inj (Option.some.inj hc)
    refine ⟨.quiet false, { w.elv with toSfqData := { w.elv.grown pid env with
      toCore := (w.elv.toCore.register pid).2.allocSfqr rq (w.elv.toCore.register pid).1 env.sfqr } },
      ?_, ⟨rfl, rfl⟩, ?_, h.ready.heap.set, ?_⟩
    · change sfqSetRequest w.elv rq pid env = _
      rw [sfqSetRequest, SfqData.setRequest_eq hbio, hsfqq, Bool.or_true, if_pos rfl]
      rfl
    · change View.mk _ (w.elv.grown pid env).osSfqq _ = _
      rw [SfqData.grown_osSfqq]
      rfl
    · intro _
      exact SfqData.grown_requests h.ready.requests hl.1.2.1
  | addRequest rq =>
    obtain ⟨c, hadd, hc⟩ := Option.map_eq_some_iff.mp hc
    obtain ⟨rfl, rfl⟩ := Prod.mk.inj hc
    have hlen : c.queue.length = w.elv.queue.length := Core.length_addRequest hadd
    refine ⟨.quiet false, { w.elv with toCore := c }, ?_, ⟨rfl, rfl⟩, rfl, h.ready.heap.addRequest hadd, ?_⟩
    · change sfqAddRequest wrap w.elv rq = _
      have hadd : w.elv.toCore.addRequest wrap rq = some c := hadd
      simp [sfqAddRequest, SfqData.addRequest, hadd]
    · intro hn
      exact h.ready.requests (List.length_pos_iff.mp (hlen ▸ List.length_pos_iff.mpr hn))
  | dispatch force =>
    obtain ⟨o₁, v₁, ht⟩ := Plain.exists_turn h.plain.rq_ne_none
    obtain ⟨rfl, rfl⟩ : o₁ = o ∧ v₁ = v := by
      simpa using (Plain.dispatch_of_turn ht).symm.trans hc
    exact hdispatch force hseeks h.plain.core.size h.ready ht
  | completed rq =>
    obtain ⟨rfl, rfl⟩ := Prod.mk.inj (Option.some.inj hc)
    refine ⟨_, _, hcompleted rq hseeks (h.plain.started rq hl.1.1), ?_, ?_, h.ready.heap.completed, ?_⟩
    · exact SfqData.completed_agrees _
    · change View.mk w.elv.completed.2.toCore w.elv.completed.2.osSfqq _ = _
      rw [SfqData.completed_toCore, SfqData.completed_osSfqq]
      rfl
    · change w.elv.completed.2.queue ≠ [] → w.elv.completed.2.requests ≠ none
      rw [SfqData.completed_toCore, SfqData.completed_requests]
      exact h.ready.requests
  | putRequest rq junk =>
    obtain ⟨rfl, rfl⟩ := Prod.mk.inj (Option.some.inj hc)
    have hlen : (w.elv.toCore.put rq junk).queue.length = w.elv.queue.length := Core.length_put junk
    refine ⟨_, _, rfl, ⟨rfl, rfl⟩, rfl, h.ready.heap.put, ?_⟩
    intro hn
    exact h.ready.requests (List.length_pos_iff.mp (hlen ▸ List.length_pos_iff.mpr hn))

theorem lockStep_plain : LockStep (withBio (Write.elevator wrap sfqDispatch sfqCompleted))
    (withBio (Plain.elevator wrap)) Related Out.Agrees where
  legal w v c h := by
    obtain rfl := h.view
    cases c <;> exact Iff.rfl
  step w v c h hl := by
    obtain rfl := h.view
    obtain ⟨o, v', hstep, hinv⟩ : ∃ o v', (withBio (Plain.elevator wrap)).step (w.map SeekData.view) c =
        some (o, v') ∧ Plain.Inv v' := by
      apply h.plain.step
      cases c <;> exact hl
    obtain ⟨v, hv, rfl⟩ := (ElevatorOps.step_eq_some _).mp hstep
    obtain ⟨o', s, hs, ho, rfl, hready⟩ := call_eq_some hdispatch hcompleted h hl hv
    refine ⟨o', w.after o' s c, o, _, (ElevatorOps.step_eq_some _).mpr ⟨s, hs, rfl⟩, hstep, ho, ?_, hinv, ?_⟩
    · exact World.map_after SeekData.view w ho s c
    · rwa [World.after_elv]

end Steps

variable {wrap : Int → Int}

theorem Sfq3.lockStep : LockStep (withBio (elevator wrap)) (withBio (Plain.elevator wrap)) Related Out.Agrees := by
  apply lockStep_plain
  · intro s o v force hseeks hsize h ht
    exact dispatchWith_of_turn servesHead hseeks hsize h ht
  · intro s rq hseeks hos
    obtain ⟨q, hk, hq⟩ := hseeks.exists_sfqq hos
    simp [sfqCompleted, hk, hq]

theorem Sfq4.lockStep : LockStep (withBio (elevator wrap)) (withBio (Plain.elevator wrap)) Related Out.Agrees := by
  apply lockStep_plain
  · intro s o v force hseeks hsize h ht
    have hready : HeapReady { s with idleSliceTimer := false } :=
      ⟨⟨h.heap.empty, h.heap.limit, h.heap.slots⟩, h.requests⟩
    exact dispatchWith_of_turn (s := { s with idleSliceTimer := false }) servesHead hseeks hsize hready ht
  · intro s rq hseeks hos
    rfl

theorem related_init {sfqDispatch : SeekData → Bool → Option (Out × SeekData)}
    {sfqCompleted : SeekData → Rq → Option (Out × SeekData)} :
    Related (Write.elevator wrap sfqDispatch sfqCompleted).init (Plain.elevator wrap).init where
  view := rfl
  plain := .init
  ready := ⟨⟨rfl, rfl, fun b hb => by cases hb⟩, fun hn => absurd rfl hn⟩

/-- The same call with the same result, after which the process queues and the cursor are equal. -/
def Matches (e e' : Event (World SeekData) (Call SetEnv Bool SfqRequest) Out) : Prop :=
  e.call = e'.call ∧ e.out.Agrees e'.out ∧ e.post.map SeekData.view = e'.post.map SeekData.view

/-- Two machines whose runs match: every run of one is matched by a run of the other, and neither
stops at a legal call. -/
structure RunsMatch (M N : Machine (World SeekData) (Call SetEnv Bool SfqRequest) Out) (s t : World SeekData) :
    Prop where
  run : ∀ {tr u}, M.Run s tr u → ∃ tr' v, N.Run t tr' v ∧ List.Forall₂ Matches tr tr'
  total : ∀ {u c}, M.Reachable s u → M.legal u c → ∃ o u', M.step u c = some (o, u')

theorem runsMatch {M N : Machine (World SeekData) (Call SetEnv Bool SfqRequest) Out}
    {P : Machine (World View) (Call SetEnv Bool SfqRequest) Out} (hM : LockStep M P Related Out.Agrees)
    (hN : LockStep N P Related Out.Agrees) {s t : World SeekData} {v : World View} (hs : Related s v)
    (ht : Related t v) : RunsMatch M N s t where
  run hrun := by
    obtain ⟨tr', u, hrun', -, hall⟩ := (hM.trans hN.symm).run ⟨v, hs, ht⟩ hrun
    refine ⟨tr', u, hrun', hall.imp ?_⟩
    intro e e' ⟨hcall, ⟨o, ho, ho'⟩, v', hv, hv'⟩
    exact ⟨hcall, ⟨ho.1.trans ho'.1.symm, ho.2.trans ho'.2.symm⟩, hv.view.trans hv'.view.symm⟩
  total := by
    intro u c ⟨tr, hrun⟩ hl
    obtain ⟨_, x, -, hx, -⟩ := hM.run hs hrun
    obtain ⟨o, u', -, -, hstep, -⟩ := hM.step u x c hx hl
    exact ⟨o, u', hstep⟩

/-- `sfq_4.c` and `sfq_3.c` dispatch the same requests, whatever the calls. -/
theorem heap_path_matches_plain_path (wrap : Int → Int) :
    RunsMatch (withBio (Sfq4.elevator wrap)) (withBio (Sfq3.elevator wrap))
      (Sfq4.elevator wrap).init (Sfq3.elevator wrap).init ∧
    RunsMatch (withBio (Sfq3.elevator wrap)) (withBio (Sfq4.elevator wrap))
      (Sfq3.elevator wrap).init (Sfq4.elevator wrap).init :=
  ⟨runsMatch Sfq4.lockStep Sfq3.lockStep related_init related_init,
    runsMatch Sfq3.lockStep Sfq4.lockStep related_init related_init⟩

/-- A request that took the heap in one version and one that took the fallback. -/
theorem heap_path_matches_plain_path_two :
    ∃ tr w tr' w', (withBio (Sfq4.elevator id)).Run (Sfq4.elevator id).init tr w ∧
      tr.map (fun e => e.out.dispatched) = [none, none, some 1, none, none, none, some 2] ∧
      (withBio (Sfq3.elevator id)).Run (Sfq3.elevator id).init tr' w' ∧ List.Forall₂ Matches tr tr' := by
  have hplay : (withBio (Sfq4.elevator id)).Plays (Sfq4.elevator id).init
      [granted 1 7 0, .addRequest 1, .dispatch false, .completed 1, granted 2 8 1, .addRequest 2,
        .dispatch false] fun tr _ =>
        tr.map (fun e => e.out.dispatched) = [none, none, some 1, none, none, none, some 2] := by decide
  obtain ⟨tr, w, hr, -, hd⟩ := hplay.exists_run
  obtain ⟨tr', w', hr', hall⟩ := (heap_path_matches_plain_path id).1.run hr
  exact ⟨tr, w, tr', w', hr, hd, hr', hall⟩

end SsdScheduler.Write
