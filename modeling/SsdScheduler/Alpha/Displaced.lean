import SsdScheduler.Alpha.Homing

/-!
# A root away from home

A root that is removed with moved contents takes a request with it that stays in the heap: its list
head is emptied, and no later call finds it.
-/

namespace SsdScheduler.SfqNoop

open Framework Framework.Heap Framework.ListHead Alpha

variable {wrap : Int → Int} {w w' : World SfqData} {f : Nat → Addr} {rq : Rq} {o : Out}
  {c : Call (SetEnv (ListHead Node)) Bool Unit}

/-- `rq` was added, and no list of the memory leads to it. -/
structure Lost (w : World SfqData) (rq : Rq) : Prop where
  added : w.phase rq = .added
  unlinked : Unlinked w.elv.links (.queuelist rq)

/-- Whatever comes of the records, the lists led elsewhere before. -/
theorem unlinked_withArray {s : SfqData} {h : HeapArray (ListHead Node)} (hu : Unlinked s.links (.queuelist rq))
    (hown : ∀ p, (h.pool p).own.next ≠ .queuelist rq) : Unlinked (s.withArray h).links (.queuelist rq) := by
  intro n
  cases n with
  | sfqrQueue p => exact hown p
  | queuelist r => exact hu (.queuelist r)

theorem links_setLinks {s : SfqData} (m : Node → ListHead Node) : (s.setLinks m).links = m := by
  funext n
  cases n <;> rfl

section Callbacks

variable {s s' : SfqData} {r : Rq}

theorem unlinked_sfqSetRequest {pid : Pid} {env : SetEnv (ListHead Node)} (hu : Unlinked s.links (.queuelist rq))
    (h : sfqSetRequest wrap s r pid env = some (o, s')) : Unlinked s'.links (.queuelist rq) := by
  obtain ⟨h', hset, he⟩ := Option.map_eq_some_iff.mp h
  obtain ⟨rfl, rfl⟩ := Prod.mk.inj he
  apply unlinked_withArray hu
  intro p
  rcases setRequest_own hset p with hp | hp
  · simp [hp]
  · exact hp ▸ hu (.sfqrQueue p)

theorem unlinked_sfqAddRequest (hu : Unlinked s.links (.queuelist rq)) (hr : rq ≠ r)
    (h : sfqAddRequest s r = some (o, s')) : Unlinked s'.links (.queuelist rq) := by
  simp only [sfqAddRequest, Option.bind_eq_bind, Option.bind_eq_some_iff] at h
  obtain ⟨a, -, h⟩ := h
  split at h
  case isTrue =>
    obtain ⟨h', hinsert, he⟩ := Option.bind_eq_some_iff.mp h
    obtain ⟨rfl, rfl⟩ := Prod.mk.inj (Option.some.inj he)
    rw [links_setLinks]
    apply Unlinked.listAddTail _ (by simp) (by simpa using hr.symm)
    apply unlinked_withArray hu
    intro p
    exact insert_own hinsert p ▸ hu (.sfqrQueue p)
  case isFalse =>
    obtain ⟨rfl, rfl⟩ := Prod.mk.inj (Option.some.inj h)
    exact hu

/-- No list leads to the request, so that it is not the one a dispatch hands out. -/
theorem unlinked_sfqDispatch (force : Bool) (hu : Unlinked s.links (.queuelist rq))
    (h : sfqDispatch s force = some (o, s')) : Unlinked s'.links (.queuelist rq) ∧ o.dispatched ≠ some rq := by
  unfold sfqDispatch at h
  split at h
  case isFalse =>
    obtain ⟨rfl, rfl⟩ := Prod.mk.inj (Option.some.inj h)
    exact ⟨hu, by simp [Out.quiet]⟩
  case isTrue =>
    obtain ⟨⟨a, h'⟩, hremove, h⟩ := Option.bind_eq_some_iff.mp h
    have hu' : Unlinked (s.withArray h').links (.queuelist rq) :=
      unlinked_withArray hu (removeRoot_forall (P := fun x => x.own.next ≠ _) hremove fun p => hu (.sfqrQueue p))
    dsimp only at h
    split at h
    case h_1 r hfirst =>
      obtain ⟨rfl, rfl⟩ := Prod.mk.inj (Option.some.inj h)
      have hr : Node.queuelist r ≠ .queuelist rq := hu'.first_ne hfirst
      refine ⟨?_, by simpa using hr⟩
      change Unlinked (SfqData.links (SfqData.setLinks _ _)) _
      rw [links_setLinks]
      exact hu'.listDelInit hr
    case h_2 => cases h
    case h_3 =>
      obtain ⟨rfl, rfl⟩ := Prod.mk.inj (Option.some.inj h)
      exact ⟨hu', by simp [Out.quiet]⟩

theorem unlinked_sfqPutRequest (hu : Unlinked s.links (.queuelist rq)) (h : sfqPutRequest s r = some (o, s')) :
    Unlinked s'.links (.queuelist rq) := by
  simp only [sfqPutRequest, Option.bind_eq_bind, Option.bind_eq_some_iff] at h
  obtain ⟨a, -, h⟩ := h
  obtain ⟨rfl, rfl⟩ := Prod.mk.inj (Option.some.inj h)
  exact hu

end Callbacks

/-- A lost request stays lost. -/
theorem Lost.step (h : Lost w rq) (hl : (elevator wrap).machine.legal w c)
    (hs : (elevator wrap).machine.step w c = some (o, w')) : Lost w' rq := by
  obtain ⟨s, hc, rfl⟩ := (ElevatorOps.step_eq_some _).mp hs
  have hne {r : Rq} {ph : Phase} (hph : ph ≠ .added) (hr : w.phase r = ph) : rq ≠ r := by
    rintro rfl
    exact hph (hr.symm.trans h.added)
  have hkept {r : Rq} {ph : Phase} (hr : rq ≠ r) : Function.update w.phase r ph rq = .added :=
    (Function.update_of_ne hr _ _).trans h.added
  cases c with
  | setRequest r pid env => exact ⟨hkept (hne (by decide) hl.1), unlinked_sfqSetRequest h.unlinked hc⟩
  | addRequest r =>
    have hr : rq ≠ r := hne (by decide) hl
    exact ⟨hkept hr, unlinked_sfqAddRequest h.unlinked hr hc⟩
  | dispatch force =>
    obtain ⟨hu, hout⟩ := unlinked_sfqDispatch force h.unlinked hc
    show Lost (w.onDispatch s o.dispatched) rq
    cases hd : o.dispatched with
    | none => exact ⟨h.added, hu⟩
    | some r =>
      have hr : rq ≠ r := by
        rintro rfl
        exact hout hd
      exact ⟨hkept hr, hu⟩
  | completed r =>
    obtain ⟨rfl, rfl⟩ := Prod.mk.inj (Option.some.inj hc)
    exact ⟨hkept (hne (by decide) hl), h.unlinked⟩
  | putRequest r junk =>
    have hr : rq ≠ r := hl.elim (hne (by decide)) (hne (by decide))
    exact ⟨hkept hr, unlinked_sfqPutRequest h.unlinked hc⟩

/-- A dispatch that removes a root away from home hands out its request and loses the request whose
contents lie in the home of that request. -/
theorem displaced_loses (h : Inv w f) (hgo : 0 < w.elv.size ∧ w.elv.depth ≤ requestDepth) (hroot : ¬ RootHome w.elv)
    (force : Bool) : ∃ rq o w', (elevator wrap).machine.step w (.dispatch force) = some (o, w') ∧ Lost w' rq := by
  obtain ⟨r, hown, hlink⟩ := h.linked _ (HeapInv.root_mem hgo.1)
  have hadded := h.array.added_of_mem (HeapInv.root_mem hgo.1) hown
  obtain ⟨b, hb, hpriv, hlist⟩ := h.home r hadded
  have hb0 : b ≠ f 0 := by
    rintro rfl
    apply hroot
    simp [RootHome, show load w.elv.requests 0 = some (f 0) from h.array.state.load_lt hgo.1, hown, hpriv]
  obtain ⟨h', f', hd, hr⟩ := sfqDispatch_eq h.array.state hgo force hlink
  generalize hm : (w.elv.withArray h').links = m at hd
  have hentry : m (.queuelist r) = ⟨.sfqrQueue b, .sfqrQueue b⟩ := by rw [← hm]; exact hlist
  have harray := h.array.remove hr hown
  have hb' : b ∈ pointers f' h'.size := (Multiset.mem_cons.mp (hr.pointers ▸ hb)).resolve_left hb0
  obtain ⟨x, hx, -⟩ := h.linked_removed hr b hb'
  have hadded' : Function.update w.phase r .dispatched x = .added := harray.added_of_mem hb' hx
  have hxr : x ≠ r := by
    rintro rfl
    simp at hadded'
  refine ⟨x, _, _, (ElevatorOps.step_eq_some _).mpr ⟨_, hd, rfl⟩, hadded', ?_⟩
  change Unlinked (SfqData.links (SfqData.setLinks _ _)) _
  rw [links_setLinks]
  intro n hn
  cases n with
  | sfqrQueue p =>
    have hpb : p ≠ b := by
      rintro rfl
      rw [listDelInit_head hentry (by simp)] at hn
      cases hn
    rw [listDelInit_of_ne hentry (by simpa using hpb) (by simp), ← hm] at hn
    by_cases hp : p ∈ pointers f' h'.size
    · obtain ⟨y, hy, hown'⟩ := h.linked_removed hr p hp
      obtain rfl : y = x := Node.queuelist.inj ((congrArg ListHead.next hown').symm.trans hn)
      exact hpb (harray.rq_injective hp hb' (hy.trans hx.symm))
    · obtain rfl := h.eq_root_of_removed hr hp hn
      have hroot : h'.pool (f 0) = w.elv.pool (f 0) := hr.frame _ hp
      have hn : (h'.pool (f 0)).own.next = .queuelist x := hn
      rw [hroot, hlink] at hn
      exact hxr (Node.queuelist.inj hn).symm
  | queuelist r' =>
    rcases eq_or_ne r' r with rfl | hr'
    · rw [listDelInit_self] at hn
      exact hxr (Node.queuelist.inj hn).symm
    · rw [listDelInit_of_ne hentry (by simp) (by simpa using hr'), ← hm] at hn
      obtain rfl : r' = x := Node.queuelist.inj ((h.heads (.queuelist r') x hn).resolve_right (by simp))
      obtain ⟨a, -, -, hback⟩ := h.home r' ((Function.update_of_ne hxr _ _).symm.trans hadded')
      cases (congrArg ListHead.next hback).symm.trans hn

/-- The condition on the dispatches is exact: whatever happens after the first dispatch that violates
it, one request has been added and is never handed out. -/
theorem displaced_root_loses_request (h : (homing wrap).Reachable (elevator wrap).init w)
    (hgo : 0 < w.elv.size ∧ w.elv.depth ≤ requestDepth) (hroot : ¬ RootHome w.elv) (force : Bool) :
    ∃ rq o w', (elevator wrap).machine.step w (.dispatch force) = some (o, w') ∧
      ∀ tr u, (elevator wrap).machine.Run w' tr u → u.phase rq = .added := by
  obtain ⟨f, hf⟩ := inv_of_reachable h
  obtain ⟨rq, o, w', hs, hlost⟩ := displaced_loses hf hgo hroot force
  refine ⟨rq, o, w', hs, fun tr u hrun => ?_⟩
  have hstays : Lost u rq := hrun.invariant (P := fun w => Lost w rq) (fun _ _ _ _ hw hl hs => hw.step hl hs) hlost
  exact hstays.added

end SsdScheduler.SfqNoop
