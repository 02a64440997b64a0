import SsdScheduler.Alpha.HeapRuns

/-!
# The heap behind a depth gate

`sfq-sched_15.c` and `sfq-shed_16_array_limit.c` are the same text but for the calls of `krealloc`:
`grow` is what `sfq_add_request` makes of the array of a heap of the given size before it inserts,
`shrink` what `sfq_dispatch` makes of it after a removal that leaves at least two records.
-/

namespace SsdScheduler.Alpha

open Framework Framework.Heap

def requestDepth : Int := 1

/-- `struct sfq_data` with the work item (scheduled or not); the own field of a record is
`complete_flag`. `currSfqr` is `none` until it is first written. -/
structure GatedData extends HeapArray Int where
  depth : Int
  currSfqr : Option Addr
  unplugWork : Bool

namespace Gated

def initQueue : GatedData :=
  { HeapArray.initial 0 with depth := 0, currSfqr := none, unplugWork := false }

def sfqSetRequest (wrap : Int → Int) (s : GatedData) (rq : Rq) (pid : Pid) (env : SetEnv Int) :
    Option (Out × GatedData) :=
  (setRequest wrap 0 s.toHeapArray rq pid env).map fun h => (.quiet false, { s with toHeapArray := h })

def sfqAddRequest (grow : Block Addr → Nat → Block Addr) (s : GatedData) (rq : Rq) : Option (Out × GatedData) := do
  let sfqr ← s.priv0 rq
  if 0 ≤ (s.pool sfqr).startTag then
    let h ← insert s.toHeapArray (grow s.requests s.size) rq sfqr
    some (.quiet false, { s with toHeapArray := h })
  else some (.quiet false, s)

/-- The flag `force` is not looked at. A root without request is removed and nothing handed out. -/
def sfqDispatch (shrink : Block Addr → Nat → Block Addr) (s : GatedData) (_force : Bool) : Option (Out × GatedData) :=
  if 0 < s.size ∧ s.depth ≤ requestDepth then do
    let (sfqr, h) ← removeRoot 2 shrink s.toHeapArray
    match (s.pool sfqr).rq with
    | some rq =>
      some (⟨1, some rq, false⟩, { s with toHeapArray := h, currSfqr := some sfqr, depth := s.depth + 1 })
    | none => some (.quiet false, { s with toHeapArray := h })
  else some (.quiet false, s)

def sfqCompleted (s : GatedData) (_rq : Rq) : Option (Out × GatedData) :=
  let s := { s with depth := s.depth - 1 }
  if 0 < s.depth then do
    let sfqr ← s.currSfqr
    some (.quiet true, { s with
      unplugWork := true, pool := Function.update s.pool sfqr { s.pool sfqr with own := 1 } })
  else some (.quiet false, s)

/-- The back pointer `sfqd` is read through `priv[0]`; nothing is freed. -/
def sfqPutRequest (s : GatedData) (rq : Rq) (_ : Unit) : Option (Out × GatedData) := do
  let _ ← s.priv0 rq
  if 0 < s.depth then some (.quiet true, { s with unplugWork := true }) else some (.quiet false, s)

def elevator (wrap : Int → Int) (grow shrink : Block Addr → Nat → Block Addr) :
    ElevatorOps GatedData (SetEnv Int) Bool Unit where
  initQueue := initQueue
  possible s env := !s.live env.sfqr
  setRequest := sfqSetRequest wrap
  addRequest := sfqAddRequest grow
  dispatch := sfqDispatch shrink
  completed := sfqCompleted
  putRequest := sfqPutRequest

/-- The array of a world. -/
abbrev arrayWorld (w : World GatedData) : World (HeapArray Int) := w.map GatedData.toHeapArray

/-- A reallocation that keeps the first `n` slots if it makes room for one more. -/
def Keeps (grow : Block Addr → Nat → Block Addr) : Prop :=
  ∀ b n, n < (grow b n).length → ∀ j < n, load (grow b n) j = load b j

/-- `sfq_add_request` will find a slot for another record. -/
def Room (grow : Block Addr → Nat → Block Addr) (s : GatedData) : Prop := s.size < (grow s.requests s.size).length

variable {wrap : Int → Int} {grow shrink : Block Addr → Nat → Block Addr} {s s' : GatedData} {f : Nat → Addr} {rq : Rq}
  {a : Addr} {o : Out}

theorem sfqSetRequest_eq (wrap : Int → Int) (rq : Rq) (pid : Pid) {env : SetEnv Int} (h : HeapState s.toHeapArray f)
    (hfresh : env.sfqr ∉ pointers f s.size) :
    ∃ vt, sfqSetRequest wrap s rq pid env =
        some (.quiet false, { s with toHeapArray := prepared wrap 0 s.toHeapArray rq pid env vt }) ∧
      s.virtualTime ≤ vt := by
  obtain ⟨vt, hset, hle⟩ := setRequest_eq wrap 0 rq pid h hfresh
  exact ⟨vt, Option.map_eq_some_iff.mpr ⟨_, hset, rfl⟩, hle⟩

theorem sfqAddRequest_eq (h : HeapState s.toHeapArray f) (ha : Waits s.toHeapArray f rq a) (hkeeps : Keeps grow)
    (hroom : Room grow s) :
    ∃ h' f', sfqAddRequest grow s rq = some (.quiet false, { s with toHeapArray := h' }) ∧
      Inserted s.toHeapArray h' f f' rq a := by
  obtain ⟨h', f', hinsert, hi⟩ := insert_eq rq h hroom (hkeeps _ _ hroom) ha.out
  refine ⟨h', f', ?_, hi⟩
  simp only [sfqAddRequest, ha.priv0, ha.tag, if_true, hinsert, Option.bind_eq_bind, Option.bind_some]

/-- With no slot for the new record the insertion leaves the block. -/
theorem sfqAddRequest_full (ha : Waits s.toHeapArray f rq a) (hfull : ¬ Room grow s) :
    sfqAddRequest grow s rq = none := by
  have hnone : insert s.toHeapArray (grow s.requests s.size) rq a = none := insert_none (not_lt.mp hfull)
  simp only [sfqAddRequest, ha.priv0, ha.tag, if_true, hnone, Option.bind_eq_bind, Option.bind_some, Option.bind_none]

theorem sfqDispatch_closed (h : ¬ (0 < s.size ∧ s.depth ≤ requestDepth)) (force : Bool) :
    sfqDispatch shrink s force = some (.quiet false, s) := if_neg h

theorem sfqDispatch_eq (h : HeapState s.toHeapArray f) (hopen : 0 < s.size ∧ s.depth ≤ requestDepth)
    (hs : Shrinks shrink) (force : Bool) (hrq : (s.pool (f 0)).rq = some rq) :
    ∃ h' f', removeRoot 2 shrink s.toHeapArray = some (f 0, h') ∧ Removed s.toHeapArray h' f f' ∧
      sfqDispatch shrink s force =
        some (⟨1, some rq, false⟩, { s with toHeapArray := h', currSfqr := some (f 0), depth := s.depth + 1 }) := by
  obtain ⟨h', f', hremove, hr⟩ := removeRoot_eq h hopen.1 ⟨Nat.two_pos, le_rfl⟩ hs
  refine ⟨h', f', hremove, hr, ?_⟩
  simp only [sfqDispatch, if_pos hopen, hremove, hrq, Option.bind_eq_bind, Option.bind_some]

/-- The calls of `sfq_completed` that return. -/
theorem sfqCompleted_eq_some (rq : Rq) : sfqCompleted s rq = some (o, s') ↔
    (s.depth ≤ 1 ∧ o = .quiet false ∧ s' = { s with depth := s.depth - 1 }) ∨
    (1 < s.depth ∧ o = .quiet true ∧ ∃ a, s.currSfqr = some a ∧ s' = { s with
      depth := s.depth - 1, unplugWork := true, pool := Function.update s.pool a { s.pool a with own := 1 } }) := by
  unfold sfqCompleted
  dsimp only
  by_cases hd : 1 < s.depth
  · rw [if_pos (by omega : 0 < s.depth - 1)]
    cases hcurr : s.currSfqr with
    | none => simp [hd]
    | some a =>
      simp only [Option.bind_eq_bind, Option.bind_some, Option.some.injEq, Prod.mk.injEq, hd, not_le.mpr hd, false_and,
        true_and, false_or, exists_eq_left']
      exact and_congr eq_comm eq_comm
  · rw [if_neg (by omega : ¬ 0 < s.depth - 1)]
    simp only [Option.some.injEq, Prod.mk.injEq, hd, not_lt.mp hd, true_and, false_and, or_false]
    exact and_congr eq_comm eq_comm

/-- The calls of `sfq_put_request` that return. -/
theorem sfqPutRequest_eq_some (rq : Rq) (env : Unit) : sfqPutRequest s rq env = some (o, s') ↔
    s.priv0 rq ≠ none ∧ o = .quiet (decide (0 < s.depth)) ∧
      s' = { s with unplugWork := decide (0 < s.depth) || s.unplugWork } := by
  unfold sfqPutRequest
  cases hpriv : s.priv0 rq with
  | none => simp
  | some a =>
    simp only [Option.bind_eq_bind, Option.bind_some]
    by_cases hd : 0 < s.depth
    · simp only [hd, if_true, Option.some.injEq, Prod.mk.injEq, decide_true, Bool.true_or]
      exact ⟨fun h => ⟨Option.some_ne_none _, h.1.symm, h.2.symm⟩, fun h => ⟨h.2.1.symm, h.2.2.symm⟩⟩
    · simp only [hd, if_false, Option.some.injEq, Prod.mk.injEq, decide_false, Bool.false_or]
      exact ⟨fun h => ⟨Option.some_ne_none _, h.1.symm, h.2.symm⟩, fun h => ⟨h.2.1.symm, h.2.2.symm⟩⟩

/-- What a call does that finds the heap of `f` in the array. -/
inductive Step (wrap : Int → Int) (shrink : Block Addr → Nat → Block Addr) (w : World GatedData) (f : Nat → Addr) :
    Call (SetEnv Int) Bool Unit → Out → World GatedData → Prop
  | set {rq : Rq} {pid : Pid} {env : SetEnv Int} {vt : Int} (hi : w.phase rq = .idle)
      (hfree : w.elv.live env.sfqr = false) (hle : w.elv.virtualTime ≤ vt) :
      Step wrap shrink w f (.setRequest rq pid env) (.quiet false)
        (w.onSet { w.elv with toHeapArray := prepared wrap 0 w.elv.toHeapArray rq pid env vt } rq pid)
  | add {rq : Rq} {a : Addr} {h' : HeapArray Int} {f' : Nat → Addr} (hs : w.phase rq = .set)
      (ha : Waits w.elv.toHeapArray f rq a) (hi : Inserted w.elv.toHeapArray h' f f' rq a) :
      Step wrap shrink w f (.addRequest rq) (.quiet false) (w.onAdd { w.elv with toHeapArray := h' } rq)
  | closed {force : Bool} (hclosed : ¬ (0 < w.elv.size ∧ w.elv.depth ≤ requestDepth)) :
      Step wrap shrink w f (.dispatch force) (.quiet false) w
  | remove {force : Bool} {rq : Rq} {h' : HeapArray Int} {f' : Nat → Addr}
      (hopen : 0 < w.elv.size ∧ w.elv.depth ≤ requestDepth) (hrq : (w.elv.pool (f 0)).rq = some rq)
      (hremove : removeRoot 2 shrink w.elv.toHeapArray = some (f 0, h')) (hr : Removed w.elv.toHeapArray h' f f') :
      Step wrap shrink w f (.dispatch force) ⟨1, some rq, false⟩
        (w.onDispatch { w.elv with toHeapArray := h', currSfqr := some (f 0), depth := w.elv.depth + 1 } (some rq))
  | last {rq : Rq} (hp : w.phase rq = .dispatched) (hd : w.elv.depth ≤ 1) :
      Step wrap shrink w f (.completed rq) (.quiet false) (w.onCompleted { w.elv with depth := w.elv.depth - 1 } rq)
  | complete {rq : Rq} {a : Addr} (hp : w.phase rq = .dispatched) (hd : 1 < w.elv.depth) (ha : w.elv.currSfqr = some a) :
      Step wrap shrink w f (.completed rq) (.quiet true) (w.onCompleted { w.elv with
        depth := w.elv.depth - 1, unplugWork := true
        pool := Function.update w.elv.pool a { w.elv.pool a with own := 1 } } rq)
  | put {rq : Rq} {env : Unit} (hp : w.phase rq = .set ∨ w.phase rq = .completed) :
      Step wrap shrink w f (.putRequest rq env) (.quiet (decide (0 < w.elv.depth)))
        (w.onPut { w.elv with unplugWork := decide (0 < w.elv.depth) || w.elv.unplugWork } rq)

section Steps

variable {w w' : World GatedData} {c : Call (SetEnv Int) Bool Unit}

theorem step_cases (h : HeapInv (arrayWorld w) f) (hkeeps : Keeps grow) (hs : Shrinks shrink)
    (hl : (elevator wrap grow shrink).machine.legal w c)
    (hstep : (elevator wrap grow shrink).machine.step w c = some (o, w')) : Step wrap shrink w f c o w' := by
  obtain ⟨s, hcall, rfl⟩ := (ElevatorOps.step_eq_some _).mp hstep
  cases c with
  | setRequest rq pid env =>
    have hfree : w.elv.live env.sfqr = false := by simpa [elevator] using hl.2
    obtain ⟨vt, hset, hle⟩ := sfqSetRequest_eq wrap rq pid h.state (h.fresh hfree)
    obtain ⟨rfl, rfl⟩ := Prod.mk.inj (Option.some.inj (hset.symm.trans hcall))
    exact .set hl.1 hfree hle
  | addRequest rq =>
    obtain ⟨a, ha⟩ := h.waits rq hl
    by_cases hroom : Room grow w.elv
    · obtain ⟨h', f', hadd, hi⟩ := sfqAddRequest_eq h.state ha hkeeps hroom
      obtain ⟨rfl, rfl⟩ := Prod.mk.inj (Option.some.inj (hadd.symm.trans hcall))
      exact .add hl ha hi
    · cases (sfqAddRequest_full ha hroom).symm.trans hcall
  | dispatch force =>
    by_cases hopen : 0 < w.elv.size ∧ w.elv.depth ≤ requestDepth
    · obtain ⟨rq, hrq⟩ := Option.ne_none_iff_exists'.mp (h.rq_ne_none (HeapInv.root_mem hopen.1))
      obtain ⟨h', f', hremove, hr, hd⟩ := sfqDispatch_eq h.state hopen hs force hrq
      obtain ⟨rfl, rfl⟩ := Prod.mk.inj (Option.some.inj (hd.symm.trans hcall))
      exact .remove hopen hrq hremove hr
    · obtain ⟨rfl, rfl⟩ := Prod.mk.inj (Option.some.inj ((sfqDispatch_closed hopen force).symm.trans hcall))
      exact .closed hopen
  | completed rq =>
    rcases (sfqCompleted_eq_some rq).mp hcall with ⟨hd, rfl, rfl⟩ | ⟨hd, rfl, a, ha, rfl⟩
    · exact .last hl hd
    · exact .complete hl hd ha
  | putRequest rq env =>
    obtain ⟨-, rfl, rfl⟩ := (sfqPutRequest_eq_some rq env).mp hcall
    exact .put hl

/-- Setting `complete_flag` changes nothing else of a record. -/
theorem update_own {α : Type} {g : SfqRequest Int → α} (hg : ∀ r : SfqRequest Int, g { r with own := 1 } = g r)
    {pool : Addr → SfqRequest Int} (p : Addr) :
    g (Function.update pool a { pool a with own := 1 } p) = g (pool p) := by
  rcases eq_or_ne p a with rfl | hne
  · rw [Function.update_self, hg]
  · rw [Function.update_of_ne hne]

theorem Step.heap (h : HeapInv (arrayWorld w) f) (ht : Step wrap shrink w f c o w') :
    ∃ f', HeapInv (arrayWorld w') f' := by
  cases ht with
  | set hi hfree hle => exact ⟨f, h.set hi hfree hle⟩
  | add hs ha hi => exact ⟨_, h.add hs ha hi⟩
  | closed hclosed => exact ⟨f, h⟩
  | remove hopen hrq hremove hr => exact ⟨_, h.remove hr hrq⟩
  | last hp hd => exact ⟨f, h.frame (by rw [World.map_phase, hp]; decide) (by decide) (by decide)⟩
  | @complete rq a hp hd ha =>
    have hframe : HeapInv { arrayWorld w with phase := Function.update w.phase rq .completed } f :=
      h.frame (by rw [World.map_phase, hp]; decide) (by decide) (by decide)
    exact ⟨f, hframe.relabel (update_own (g := SfqRequest.startTag) fun _ => rfl) (update_own (g := SfqRequest.rq) fun _ => rfl)⟩
  | put hp => exact ⟨f, h.frame (World.phase_of_put hp).2.1 (by decide) (by decide)⟩

/-- Besides the heap: the last dispatched record is known while requests are outstanding, and every
request under way has a record. -/
structure Inv (w : World GatedData) : Prop where
  heap : ∃ f, HeapInv (arrayWorld w) f
  curr : 0 < w.elv.depth → w.elv.currSfqr ≠ none
  owned : ∀ rq, w.phase rq ≠ .idle → w.elv.priv0 rq ≠ none

theorem owned_of_update {phase : Rq → Phase} {priv0 : Rq → Option Addr} {rq : Rq} {ph : Phase}
    (h : ∀ rq, phase rq ≠ .idle → priv0 rq ≠ none) (hrq : phase rq ≠ .idle) :
    ∀ r, Function.update phase rq ph r ≠ .idle → priv0 r ≠ none := by
  intro r hr
  rcases eq_or_ne r rq with rfl | hne
  · exact h r hrq
  · rw [Function.update_of_ne hne] at hr
    exact h r hr

theorem Inv.step (h : Inv w) (hkeeps : Keeps grow) (hs : Shrinks shrink)
    (hl : (elevator wrap grow shrink).machine.legal w c)
    (hstep : (elevator wrap grow shrink).machine.step w c = some (o, w')) : Inv w' := by
  obtain ⟨f, hf⟩ := h.heap
  have ht := step_cases hf hkeeps hs hl hstep
  refine ⟨ht.heap hf, ?_, ?_⟩
  · cases ht with
    | set => exact h.curr
    | add => exact h.curr
    | closed => exact h.curr
    | remove => exact fun _ => Option.some_ne_none _
    | last hp hd =>
      intro hpos
      have hpos : 0 < w.elv.depth - 1 := hpos
      omega
    | complete hp hd ha => exact fun _ => ha.trans_ne (Option.some_ne_none _)
    | put => exact h.curr
  · cases ht with
    | @set rq pid env =>
      intro r hr
      change Function.update w.elv.priv0 rq (some env.sfqr) r ≠ none
      rcases eq_or_ne r rq with rfl | hne
      · rw [Function.update_self]
        exact Option.some_ne_none _
      · rw [Function.update_of_ne hne]
        apply h.owned r
        change Function.update w.phase rq .set r ≠ .idle at hr
        rwa [Function.update_of_ne hne] at hr
    | @add rq a h' f' hs ha hi =>
      change ∀ r, Function.update w.phase rq .added r ≠ .idle → h'.priv0 r ≠ none
      rw [hi.priv0]
      exact owned_of_update h.owned (by rw [hs]; decide)
    | closed => exact h.owned
    | @remove force rq h' f' hopen hrq hremove hr =>
      have hadded : w.phase rq = .added := hf.added_of_mem (HeapInv.root_mem hopen.1) hrq
      change ∀ r, Function.update w.phase rq .dispatched r ≠ .idle → h'.priv0 r ≠ none
      rw [hr.priv0]
      exact owned_of_update h.owned (by rw [hadded]; decide)
    | last hp hd => exact owned_of_update h.owned (by rw [hp]; decide)
    | complete hp hd ha => exact owned_of_update h.owned (by rw [hp]; decide)
    | put hp => exact owned_of_update h.owned (World.phase_of_put hp).1

/-- A call fails only for want of a slot. -/
theorem exists_step (h : Inv w) (hkeeps : Keeps grow) (hs : Shrinks shrink)
    (hl : (elevator wrap grow shrink).machine.legal w c) (hroom : ∀ rq, c = .addRequest rq → Room grow w.elv) :
    ∃ o w', (elevator wrap grow shrink).machine.step w c = some (o, w') := by
  obtain ⟨f, hf⟩ := h.heap
  suffices hcall : ∃ o s, (elevator wrap grow shrink).call w.elv c = some (o, s) by
    obtain ⟨o, s, hcall⟩ := hcall
    exact ⟨o, _, (ElevatorOps.step_eq_some _).mpr ⟨s, hcall, rfl⟩⟩
  cases c with
  | setRequest rq pid env =>
    have hfree : w.elv.live env.sfqr = false := by simpa [elevator] using hl.2
    obtain ⟨vt, hset, -⟩ := sfqSetRequest_eq wrap rq pid hf.state (hf.fresh hfree)
    exact ⟨_, _, hset⟩
  | addRequest rq =>
    obtain ⟨a, ha⟩ := hf.waits rq hl
    obtain ⟨h', f', hadd, -⟩ := sfqAddRequest_eq hf.state ha hkeeps (hroom rq rfl)
    exact ⟨_, _, hadd⟩
  | dispatch force =>
    by_cases hopen : 0 < w.elv.size ∧ w.elv.depth ≤ requestDepth
    · obtain ⟨rq, hrq⟩ := Option.ne_none_iff_exists'.mp (hf.rq_ne_none (HeapInv.root_mem hopen.1))
      obtain ⟨h', f', -, -, hd⟩ := sfqDispatch_eq hf.state hopen hs force hrq
      exact ⟨_, _, hd⟩
    · exact ⟨_, _, sfqDispatch_closed hopen force⟩
  | completed rq =>
    rcases le_or_gt w.elv.depth 1 with hd | hd
    · exact ⟨_, _, (sfqCompleted_eq_some rq).mpr (.inl ⟨hd, rfl, rfl⟩)⟩
    · obtain ⟨a, ha⟩ := Option.ne_none_iff_exists'.mp (h.curr (by omega))
      exact ⟨_, _, (sfqCompleted_eq_some rq).mpr (.inr ⟨hd, rfl, a, ha, rfl⟩)⟩
  | putRequest rq env =>
    have hbusy : w.phase rq ≠ .idle := (World.phase_of_put hl).1
    exact ⟨_, _, (sfqPutRequest_eq_some rq env).mpr ⟨h.owned rq hbusy, rfl, rfl⟩⟩

theorem step_full {rq : Rq} (h : Inv w) (hl : w.phase rq = .set) (hfull : ¬ Room grow w.elv) :
    (elevator wrap grow shrink).machine.step w (.addRequest rq) = none := by
  obtain ⟨f, hf⟩ := h.heap
  obtain ⟨a, ha⟩ := hf.waits rq hl
  have hnone : (elevator wrap grow shrink).call w.elv (.addRequest rq) = none := sfqAddRequest_full ha hfull
  simp [ElevatorOps.machine, hnone]

theorem Inv.init : Inv (elevator wrap grow shrink).init where
  heap := ⟨_, HeapInv.init 0⟩
  curr h := absurd h (lt_irrefl 0)
  owned _ h := absurd rfl h

theorem Inv.of_reachable (hkeeps : Keeps grow) (hs : Shrinks shrink) (h : (elevator wrap grow shrink).Reachable w) :
    Inv w :=
  h.invariant (fun _ _ _ _ hi hl hstep => hi.step hkeeps hs hl hstep) .init

end Steps

end Gated
end SsdScheduler.Alpha
