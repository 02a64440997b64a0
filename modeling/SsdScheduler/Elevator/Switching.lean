import SsdScheduler.Elevator.References

/-!
# Changing the scheduler of a queue

What a change comes to does not depend on what other queues and the module loader do in the meantime. The old scheduler
stays in place until the new one works, and the name that `elv_iosched_show` marks is the one to write to keep it.
-/

namespace SsdScheduler.Registry

open Framework

variable {c : Config} {s s' s₁ : Schedulers} {q : QueueId} {name : List Char} {act : Act} {o : Out}

section Frames

theorem queues_setQueue {x : Queue} {y : QueueId} (h : q ≠ y) : (s.setQueue y x).queues q = s.queues q := by
  simp [Schedulers.setQueue, h]

theorem got_queues {y : QueueId} {caller : Caller} (h : q ≠ y) : (s.got c y name caller).2.queues q = s.queues q := by
  unfold Schedulers.got
  cases hget : s.elevatorGet c name with
  | none => exact queues_setQueue h
  | some r =>
    obtain ⟨-, -, -, hqueues, -⟩ := elevatorGet_spec (q := q) hget
    exact (queues_setQueue h).trans (congrFun hqueues q)

theorem getLoading_queues {y : QueueId} {caller : Caller} (h : q ≠ y) :
    (s.getLoading c y name caller).2.queues q = s.queues q := by
  unfold Schedulers.getLoading
  cases s.elevatorFind c name with
  | none => exact queues_setQueue h
  | some _ => exact got_queues h

theorem got_cases {caller : Caller} :
    (s.got c q name caller).1.ret = some einval ∧
        (s.got c q name caller).2.queues q = { s.queues q with pc := .idle } ∨
      (s.got c q name caller).1.ret = none ∧
        ∃ e, c.elevatorName e = name ∧ (s.got c q name caller).2.queues q = { s.queues q with pc := .holding e caller } := by
  unfold Schedulers.got
  cases hget : s.elevatorGet c name with
  | none => exact .inl ⟨rfl, setQueue_self⟩
  | some r =>
    obtain ⟨-, hname, -, hqueues, -⟩ := elevatorGet_spec (q := q) hget
    exact .inr ⟨rfl, r.1, hname, setQueue_self.trans (by rw [hqueues])⟩

/-- A change of the scheduler of `q` from `old` to the type called `name` that is not over yet. -/
structure Pending (c : Config) (q : QueueId) (old : ElevatorQueue) (name : List Char) (s : Schedulers) : Prop where
  elevator : (s.queues q).elevator = some old
  pc : (s.queues q).pc = .loading (skipSpaces name) (.change name) ∨
    ∃ e, (s.queues q).pc = .holding e (.change name) ∧ c.elevatorName e = skipSpaces name

/-- What the change comes to. -/
structure Ends (c : Config) (q : QueueId) (old : ElevatorQueue) (name : List Char) (ret : Int) (s : Schedulers) : Prop where
  idle : (s.queues q).pc = .idle
  elevator : ∃ e, (s.queues q).elevator = some e ∧
    (ret = 0 → c.elevatorName e.type = skipSpaces name ∨ c.elevatorName e.type = name) ∧
    (ret ≠ 0 → e.type = old.type) ∧
    (c.elevatorName old.type = name → e = old)

variable {old : ElevatorQueue}

theorem Pending.busy (h : Pending c q old name s) : (s.queues q).pc ≠ .idle := by
  intro hidle
  rcases h.pc with hpc | ⟨e, hpc, -⟩
  all_goals
    rw [hidle] at hpc
    cases hpc

theorem Ends.of_restored {ret : Int} {registered : Bool} (hret : ret ≠ 0) (hne : name ≠ c.elevatorName old.type)
    (h : s.queues q = ⟨some ⟨old.type, registered⟩, .idle⟩) : Ends c q old name ret s where
  idle := by rw [h]
  elevator := ⟨⟨old.type, registered⟩, by rw [h], fun h0 => absurd h0 hret, fun _ => rfl, fun hold => absurd hold.symm hne⟩

theorem Ends.of_failed {ret : Int} (hret : ret ≠ 0) (h : s.queues q = ⟨some old, .idle⟩) : Ends c q old name ret s where
  idle := by rw [h]
  elevator := ⟨old, by rw [h], fun h0 => absurd h0 hret, fun _ => rfl, fun _ => rfl⟩

theorem pending_of_got (name : List Char) (h : (s.queues q).elevator = some old) :
    ((s.got c q (skipSpaces name) (.change name)).1.ret = none ∧
        Pending c q old name (s.got c q (skipSpaces name) (.change name)).2) ∨
      ∃ ret, (s.got c q (skipSpaces name) (.change name)).1.ret = some ret ∧
        Ends c q old name ret (s.got c q (skipSpaces name) (.change name)).2 := by
  rcases got_cases (c := c) (s := s) (q := q) with ⟨hret, hq⟩ | ⟨hret, e, hname, hq⟩
  · right
    exact ⟨einval, hret, .of_failed (by decide) (by rw [hq]; simp only [h])⟩
  · left
    exact ⟨hret, by rw [hq]; exact h, .inr ⟨e, by rw [hq], hname⟩⟩

theorem pending_of_change (h : (s.queues q).elevator = some old)
    (hs : s.step c (.elevatorChange q name) = some (o, s')) :
    (o.ret = none ∧ Pending c q old (stripTail (name.take (elvNameMax - 1))) s') ∨
      ∃ ret, o.ret = some ret ∧ Ends c q old (stripTail (name.take (elvNameMax - 1))) ret s' := by
  simp only [Schedulers.step, h, Option.isNone_some, Bool.false_eq_true, if_false, Option.some.injEq] at hs
  unfold Schedulers.getLoading at hs
  split at hs
  case h_1 =>
    cases hs
    left
    exact ⟨rfl, by rw [setQueue_self]; exact h, .inl (by rw [setQueue_self])⟩
  case h_2 =>
    have hgot := pending_of_got (c := c) (stripTail (name.take (elvNameMax - 1))) h
    rwa [hs] at hgot

/-- The queue that a call is about. -/
def Act.queue : Act → Option QueueId
  | .insmod _ | .stop _ | .exit _ => none
  | .elevatorInit q _ | .elevatorChange q _ | .loaded q | .initFn q _ | .switch q _ _ _ | .registerQueue q _ |
    .unregisterQueue q | .elevatorExit q => some q

theorem registerQueue_queues {y : QueueId} {reg : Int} (h : q ≠ y) : (s.elvRegisterQueue y reg).queues q = s.queues q := by
  unfold Schedulers.elvRegisterQueue
  cases (s.queues y).elevator with
  | none => rfl
  | some e => exact queues_setQueue h

theorem unregisterQueue_queues {y : QueueId} (h : q ≠ y) : (s.elvUnregisterQueue y).queues q = s.queues q := by
  unfold Schedulers.elvUnregisterQueue
  cases (s.queues y).elevator with
  | none => rfl
  | some e => exact queues_setQueue h

theorem initFn_queues {y : QueueId} {e : Ty} {r : InitResult} (h : q ≠ y) :
    (s.elevatorInitFn c y e r).2.queues q = s.queues q := by
  cases r with
  | ok => exact queues_setQueue h
  | early => rfl
  | late => exact congrFun elevatorPut_queues q

theorem Switched.queues {y : QueueId} {e : Ty} {r : InitResult} (h : Switched c s y old e name r o s') (hq : q ≠ y) :
    s'.queues q = s.queues q := by
  cases h with
  | same | replaced | unregistered | late =>
    rw [elevatorPut_queues]
    exact queues_setQueue hq
  | early => exact queues_setQueue hq

/-- A call leaves the other queues alone. -/
theorem step_queues (hq : act.queue ≠ some q) (hs : s.step c act = some (o, s')) : s'.queues q = s.queues q := by
  have hne {y : QueueId} (hact : act.queue = some y) : q ≠ y := by
    rintro rfl
    exact hq hact
  cases act with
  | insmod e =>
    simp only [Schedulers.step, Schedulers.elvRegister] at hs
    cases hnew : s.elevatorFind c (c.elevatorName e) with
    | some _ =>
      simp only [hnew] at hs
      cases hs
      rfl
    | none =>
      simp only [hnew] at hs
      cases hs
      rfl
  | stop e =>
    cases hs
    rfl
  | exit e =>
    cases hs
    rfl
  | elevatorInit y name =>
    simp only [Schedulers.step] at hs
    split at hs
    case isTrue =>
      cases hs
      rfl
    case isFalse =>
      cases name with
      | some name =>
        obtain rfl : _ = s' := congrArg Prod.snd (Option.some.inj hs)
        exact getLoading_queues (hne rfl)
      | none =>
        simp only [Option.bind_eq_bind, Option.bind_eq_some_iff, Option.some.injEq, Prod.mk.injEq, Prod.exists] at hs
        obtain ⟨e, s₁, hdefault, -, rfl⟩ := hs
        obtain ⟨name, hget⟩ := elevatorDefault_spec hdefault
        obtain ⟨-, -, -, hqueues, -⟩ := elevatorGet_spec (q := q) hget
        exact (queues_setQueue (hne rfl)).trans (congrFun hqueues q)
  | elevatorChange y name =>
    simp only [Schedulers.step] at hs
    split at hs
    case isTrue =>
      cases hs
      rfl
    case isFalse =>
      obtain rfl : _ = s' := congrArg Prod.snd (Option.some.inj hs)
      exact getLoading_queues (hne rfl)
  | loaded y =>
    simp only [Schedulers.step] at hs
    split at hs
    case h_1 =>
      obtain rfl : _ = s' := congrArg Prod.snd (Option.some.inj hs)
      exact got_queues (hne rfl)
    case h_2 => cases hs
  | initFn y r =>
    simp only [Schedulers.step] at hs
    split at hs
    case h_1 =>
      cases hs
      split
      case isTrue =>
        rw [elevatorPut_queues, initFn_queues (hne rfl)]
        exact queues_setQueue (hne rfl)
      case isFalse =>
        rw [initFn_queues (hne rfl)]
        exact queues_setQueue (hne rfl)
    case h_2 => cases hs
  | switch y r reg rereg =>
    simp only [Schedulers.step] at hs
    split at hs
    case h_1 e name hpc =>
      cases hold : (s.queues y).elevator with
      | none => simp [Schedulers.switchTo, hold] at hs
      | some old => exact (switchTo_cases hold hs).queues (hne rfl)
    case h_2 => cases hs
  | registerQueue y reg =>
    cases hs
    exact registerQueue_queues (hne rfl)
  | unregisterQueue y =>
    cases hs
    exact unregisterQueue_queues (hne rfl)
  | elevatorExit y =>
    simp only [Schedulers.step] at hs
    split at hs
    case h_1 =>
      cases hs
      rw [elevatorPut_queues]
      exact queues_setQueue (hne rfl)
    case h_2 => cases hs

end Frames

section Changes

theorem Switched.ends {e : Ty} {r : InitResult} (h : Switched c s q old e name r o s')
    (hname : c.elevatorName e = skipSpaces name) : ∃ ret, o.ret = some ret ∧ Ends c q old name ret s' := by
  have hput {x : Queue} {u : Ty} : ((s.setQueue q x).elevatorPut c u).queues q = x := by
    rw [elevatorPut_queues, setQueue_self]
  cases h with
  | same hsame =>
    exact ⟨0, rfl, by rw [hput], old, by rw [hput], fun _ => .inr hsame.symm, fun _ => rfl, fun _ => rfl⟩
  | replaced registered hne =>
    exact ⟨0, rfl, by rw [hput], ⟨e, registered⟩, by rw [hput], fun _ => .inl hname, fun h0 => absurd rfl h0,
      fun hold => absurd hold.symm hne⟩
  | unregistered registered hreg hne => exact ⟨_, rfl, .of_restored hreg hne hput⟩
  | early registered hne => exact ⟨enomem, rfl, .of_restored (by decide) hne setQueue_self⟩
  | late registered hne => exact ⟨enomem, rfl, .of_restored (by decide) hne hput⟩

/-- A change goes on, or ends with what it returns. -/
theorem Pending.step (h : Pending c q old name s) (hl : s.legal c act) (hs : s.step c act = some (o, s')) :
    Pending c q old name s' ∨ ∃ ret, o.ret = some ret ∧ Ends c q old name ret s' := by
  by_cases hq : act.queue = some q
  case neg =>
    have hsame := step_queues hq hs
    exact .inl ⟨by rw [hsame, h.elevator], by rw [hsame]; exact h.pc⟩
  case pos =>
    cases act with
    | insmod | stop | exit => cases hq
    | elevatorInit | elevatorChange =>
      obtain rfl := Option.some.inj hq
      exact absurd hl h.busy
    | registerQueue | unregisterQueue | elevatorExit =>
      obtain rfl := Option.some.inj hq
      exact absurd hl.1 h.busy
    | loaded =>
      obtain rfl := Option.some.inj hq
      obtain ⟨name', caller, hloading⟩ := Pc.isLoading_iff.mp hl
      rcases h.pc with hpc | ⟨e, hpc, -⟩
      · simp only [Schedulers.step, hpc, Option.some.injEq] at hs
        have hgot := pending_of_got (c := c) name h.elevator
        rw [hs] at hgot
        exact hgot.imp_left And.right
      · cases hpc.symm.trans hloading
    | initFn =>
      obtain rfl := Option.some.inj hq
      obtain ⟨e, hholding⟩ := Pc.isInitializing_iff.mp hl
      rcases h.pc with hpc | ⟨e, hpc, -⟩
      all_goals cases hpc.symm.trans hholding
    | switch =>
      obtain rfl := Option.some.inj hq
      obtain ⟨e, name', hholding⟩ := Pc.isChanging_iff.mp hl
      rcases h.pc with hpc | ⟨e, hpc, hname⟩
      · cases hpc.symm.trans hholding
      · right
        simp only [Schedulers.step, hpc] at hs
        exact (switchTo_cases h.elevator hs).ends hname

/-- The calls that are made before the change of `q` is over. -/
def busy (c : Config) (q : QueueId) : Machine Schedulers Act Out := (machine c).restrict fun t _ => (t.queues q).pc ≠ .idle

instance (act : Act) : Decidable ((busy c q).legal s act) :=
  inferInstanceAs (Decidable (s.legal c act ∧ (s.queues q).pc ≠ .idle))

/-- How a change stands after a call that returned `o`. -/
def Progress (c : Config) (q : QueueId) (old : ElevatorQueue) (name : List Char) (o : Out) (s : Schedulers) : Prop :=
  Pending c q old name s ∨ ∃ ret, o.ret = some ret ∧ Ends c q old name ret s

theorem Progress.run {tr : List (Event Schedulers Act Out)} (h : Progress c q old name o s)
    (hrun : (busy c q).Run s tr s') :
    Progress c q old name ((tr.map Event.out).getLastD o) s' := by
  induction hrun generalizing o with
  | nil => exact h
  | cons hl hs _ ih =>
    rw [List.map_cons, List.getLastD_cons]
    rcases h with hpending | ⟨ret, -, hends⟩
    · exact ih (hpending.step hl.1 hs)
    · exact absurd hends.idle hl.2

/-- However the calls for other queues and the module loader are mixed with those of a change, the queue keeps its
scheduler until the change is over. Then it has a scheduler of the given name if `0` is returned, and the old one if
an error is. -/
theorem change_ends {tr : List (Event Schedulers Act Out)} (hold : (s.queues q).elevator = some old)
    (hs : s.step c (.elevatorChange q name) = some (o, s₁))
    (hrun : (busy c q).Run s₁ tr s') :
    ((s'.queues q).pc ≠ .idle → (s'.queues q).elevator = some old) ∧
    ((s'.queues q).pc = .idle → ∃ ret, ((tr.map Event.out).getLastD o).ret = some ret ∧
      Ends c q old (stripTail (name.take (elvNameMax - 1))) ret s') := by
  have hstart : Progress c q old (stripTail (name.take (elvNameMax - 1))) o s₁ :=
    (pending_of_change hold hs).imp_left And.right
  rcases hstart.run hrun with hpending | ⟨ret, hret, hends⟩
  · exact ⟨fun _ => hpending.elevator, fun hidle => absurd hidle hpending.busy⟩
  · exact ⟨fun hbusy => absurd hends.idle hbusy, fun _ => ⟨ret, hret, hends⟩⟩

/-- The module loads while the change waits for it, and another queue is changed in between. -/
theorem change_ends_sfq :
    ∃ (u u' v : Schedulers) (o : Out) (tr : List (Event Schedulers Act Out)),
      u.step kernel (.elevatorChange 0 [' ', 's', 'f', 'q', '\n']) = some (o, u') ∧
      (busy kernel 0).Run u' tr v ∧
      ∃ ret, ((tr.map Event.out).getLastD o).ret = some ret ∧ Ends kernel 0 ⟨0, false⟩ [' ', 's', 'f', 'q'] ret v := by
  have hplays : (machine kernel).Plays init
      [.insmod 0, .elevatorInit 0 none, .initFn 0 .ok, .elevatorInit 1 none, .initFn 1 .ok]
      (fun _ u => (u.queues 0).elevator = some ⟨0, false⟩ ∧
        ∃ r ∈ u.step kernel (.elevatorChange 0 [' ', 's', 'f', 'q', '\n']),
          (busy kernel 0).Plays r.2
            [.insmod 1, .elevatorChange 1 ['s', 'f', 'q'], .loaded 0, .switch 1 .early 0 0, .switch 0 .ok 0 0]
            fun _ v => (v.queues 0).pc = .idle) := by decide
  obtain ⟨-, u, -, -, hel, ⟨o, u'⟩, hs, hrest⟩ := hplays.exists_run
  obtain ⟨tr, v, hr, -, hidle⟩ := hrest.exists_run
  exact ⟨u, u', v, o, tr, hs, hr, (change_ends hel hs hr).2 hidle⟩

end Changes

section Showing

/-- The text between the brackets. -/
def marked (text : List Char) : List Char := ((text.dropWhile fun x => x ≠ '[').drop 1).takeWhile fun x => x ≠ ']'

/-- For a stackable queue `elv_iosched_show` puts its scheduler, and no other, in brackets. -/
theorem marked_show {leaks : Ty → Nat} (h : Inv c leaks s) (hold : (s.queues q).elevator = some old)
    (hplain : ∀ e ∈ s.elvList, ∀ x ∈ c.elevatorName e, x ≠ '[' ∧ x ≠ ']') :
    marked (s.elvIoschedShow c q true) = c.elevatorName old.type := by
  have hin : old.type ∈ s.elvList := (h.live (q := q) (by simp [Queue.claims, hold])).1
  obtain ⟨before, after, hsplit⟩ := List.append_of_mem hin
  have hother : ∀ e ∈ before, c.elevatorName old.type ≠ c.elevatorName e := by
    have hnames := h.names
    rw [hsplit, List.map_append, List.nodup_append] at hnames
    exact fun e he => (hnames.2.2 _ (List.mem_map_of_mem he) _ (by simp)).symm
  have hbefore : ∀ x ∈ before.flatMap (fun e => if c.elevatorName old.type = c.elevatorName e then
      '[' :: c.elevatorName e ++ [']', ' '] else c.elevatorName e ++ [' ']), x ≠ '[' := by
    intro x hx
    obtain ⟨e, he, hx⟩ := List.mem_flatMap.mp hx
    rw [if_neg (hother e he)] at hx
    rcases List.mem_append.mp hx with hx | hx
    · exact (hplain e (hsplit ▸ List.mem_append_left _ he) x hx).1
    · obtain rfl := List.mem_singleton.mp hx
      decide
  simp only [Schedulers.elvIoschedShow, hold, hsplit, List.flatMap_append, List.flatMap_cons, if_true, List.append_assoc,
    marked]
  rw [List.dropWhile_append_of_pos (by simpa using hbefore)]
  simp only [List.cons_append, List.dropWhile_cons, ne_eq, not_true_eq_false, decide_false, Bool.false_eq_true, if_false,
    List.drop_one, List.tail_cons]
  rw [List.takeWhile_append_of_pos (by simpa using fun x hx => (hplain old.type hin x hx).2)]
  simp

theorem stripTail_eq_self {str : List Char} (h : ∀ x ∈ str, isspace x = false) : stripTail str = str := by
  apply List.rdropWhile_eq_self_iff.mpr
  intro hne hspace
  rw [h _ (List.getLast_mem hne)] at hspace
  cases hspace

/-- Writing back the name that is marked in what was read keeps the scheduler, whatever goes on meanwhile. -/
theorem shown_written_back {tr tr' : List (Event Schedulers Act Out)} (h : (careful c).Run init tr s)
    (hold : (s.queues q).elevator = some old)
    (hplain : ∀ e ∈ s.elvList, ∀ x ∈ c.elevatorName e, (x ≠ '[' ∧ x ≠ ']') ∧ isspace x = false)
    (hlength : ∀ e ∈ s.elvList, (c.elevatorName e).length < elvNameMax)
    (hs : s.step c (.elevatorChange q (marked (s.elvIoschedShow c q true))) = some (o, s₁))
    (hrun : (busy c q).Run s₁ tr' s') :
    (s'.queues q).elevator = some old := by
  have hinv := Inv.of_run h
  have hin : old.type ∈ s.elvList := (hinv.live (q := q) (by simp [Queue.claims, hold])).1
  have hname : stripTail ((marked (s.elvIoschedShow c q true)).take (elvNameMax - 1)) = c.elevatorName old.type := by
    rw [marked_show hinv hold fun e he x hx => (hplain e he x hx).1,
      List.take_of_length_le (Nat.le_sub_one_of_lt (hlength old.type hin))]
    exact stripTail_eq_self fun x hx => (hplain old.type hin x hx).2
  have hstart := (pending_of_change hold hs).imp_left And.right
  rw [hname] at hstart
  have hprogress : Progress c q old (c.elevatorName old.type) o s₁ := hstart
  rcases hprogress.run hrun with hpending | ⟨ret, -, hends⟩
  · exact hpending.elevator
  · obtain ⟨e, he, -, -, hkeep⟩ := hends.elevator
    rw [he, hkeep rfl]

theorem plain_elevatorName (e : Ty) : ∀ x ∈ kernel.elevatorName e, (x ≠ '[' ∧ x ≠ ']') ∧ isspace x = false := by
  intro x hx
  simp only [kernel] at hx
  split at hx
  all_goals
    simp only [List.mem_cons, List.not_mem_nil, or_false] at hx
    rcases hx with rfl | rfl | rfl | rfl
    all_goals simp [isspace]

theorem shown_written_back_noop :
    ∃ tr u o u' tr' v, (careful kernel).Run init tr u ∧ marked (u.elvIoschedShow kernel 0 true) = ['n', 'o', 'o', 'p'] ∧
      u.step kernel (.elevatorChange 0 (marked (u.elvIoschedShow kernel 0 true))) = some (o, u') ∧
      (busy kernel 0).Run u' tr' v ∧
      (v.queues 0).elevator = some ⟨0, true⟩ := by
  have hplays : (careful kernel).Plays init
      [.insmod 1, .insmod 0, .elevatorInit 0 none, .initFn 0 .ok, .registerQueue 0 0]
      (fun _ u => ((u.queues 0).elevator = some ⟨0, true⟩ ∧ u.elvList = [1, 0] ∧
          marked (u.elvIoschedShow kernel 0 true) = ['n', 'o', 'o', 'p']) ∧
        ∃ r ∈ u.step kernel (.elevatorChange 0 (marked (u.elvIoschedShow kernel 0 true))),
          (busy kernel 0).Plays r.2 [.switch 0 .ok 0 0] fun _ _ => True) := by
    decide
  obtain ⟨tr, u, hr, -, ⟨hel, hlist, hmarked⟩, ⟨o, u'⟩, hs, hrest⟩ := hplays.exists_run
  obtain ⟨tr', v, hr', -, -⟩ := hrest.exists_run
  have hlength : ∀ e ∈ u.elvList, (kernel.elevatorName e).length < elvNameMax := by
    rw [hlist]
    decide
  exact ⟨tr, u, o, u', tr', v, hr, hmarked, hs, hr',
    shown_written_back hr hel (fun e _ => plain_elevatorName e) hlength hs hr'⟩

end Showing

end SsdScheduler.Registry
