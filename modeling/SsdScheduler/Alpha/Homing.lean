import SsdScheduler.Alpha.SfqNoop

/-!
# Roots at home

The records of the heap exchange their contents, list heads included, while the requests keep
pointing to the records they were added with. No request is lost as long as every root that is
removed still has its own contents.
-/

namespace SsdScheduler.SfqNoop

open Framework Framework.Heap Framework.ListHead Alpha

/-- `requests[0]->rq->elv.priv[0] == requests[0]`: `heap_swap` has not moved the contents of the root. -/
def RootHome (s : SfqData) : Prop :=
  ((load s.requests 0).bind fun sfqr => (s.pool sfqr).rq.bind s.priv0) = load s.requests 0

instance (s : SfqData) : Decidable (RootHome s) := inferInstanceAs (Decidable (_ = _))

/-- No dispatch removes a record with moved contents. -/
def AtHome (w : World SfqData) : Call (SetEnv (ListHead Node)) Bool Unit → Prop
  | .dispatch _ => 0 < w.elv.size ∧ w.elv.depth ≤ requestDepth → RootHome w.elv
  | _ => True

instance (w : World SfqData) : (c : Call (SetEnv (ListHead Node)) Bool Unit) → Decidable (AtHome w c)
  | .dispatch _ => inferInstanceAs (Decidable (_ → _))
  | .setRequest _ _ _ => inferInstanceAs (Decidable True)
  | .addRequest _ => inferInstanceAs (Decidable True)
  | .completed _ => inferInstanceAs (Decidable True)
  | .putRequest _ _ => inferInstanceAs (Decidable True)

def homing (wrap : Int → Int) : Machine (World SfqData) (Call (SetEnv (ListHead Node)) Bool Unit) Out :=
  (elevator wrap).machine.restrict AtHome

instance (wrap : Int → Int) (w : World SfqData) (c : Call (SetEnv (ListHead Node)) Bool Unit) :
    Decidable ((homing wrap).legal w c) :=
  inferInstanceAs (Decidable ((elevator wrap).machine.legal w c ∧ AtHome w c))

/-- The array of a world. -/
abbrev arrayWorld (w : World SfqData) : World (HeapArray (ListHead Node)) := w.map SfqData.toHeapArray

/-- Every record in the heap heads the list of its request, and every request points back to the
record it was set with, which is in the heap too. -/
structure Inv (w : World SfqData) (f : Nat → Addr) : Prop where
  array : HeapInv (arrayWorld w) f
  linked : ∀ p ∈ pointers f w.elv.size, ∃ rq, (w.elv.pool p).rq = some rq ∧
    (w.elv.pool p).own = ⟨.queuelist rq, .queuelist rq⟩
  home : ∀ rq, w.phase rq = .added → ∃ a ∈ pointers f w.elv.size, w.elv.priv0 rq = some a ∧
    w.elv.queuelist rq = ⟨.sfqrQueue a, .sfqrQueue a⟩
  homes : ∀ rq rq' a, w.phase rq = .added → w.phase rq' = .added → w.elv.priv0 rq = some a →
    w.elv.priv0 rq' = some a → rq = rq'
  empty : ∀ rq a, w.phase rq = .set → w.elv.priv0 rq = some a → (w.elv.pool a).own = ⟨.sfqrQueue a, .sfqrQueue a⟩
  known : ∀ rq, w.phase rq ≠ .idle → w.elv.priv0 rq ≠ none
  heads : ∀ n rq, (w.elv.links n).next = .queuelist rq → n = .queuelist rq ∨ ∃ p ∈ pointers f w.elv.size, n = .sfqrQueue p

variable {wrap : Int → Int} {w w' : World SfqData} {f f' : Nat → Addr} {rq : Rq} {a : Addr}
  {c : Call (SetEnv (ListHead Node)) Bool Unit}

namespace Inv

theorem init : Inv (elevator wrap).init fun _ => 0 where
  array := HeapInv.init _
  linked p hp := by simp [elevator, ElevatorOps.init, initQueue, HeapArray.initial, pointers] at hp
  home rq h := by cases h
  homes rq rq' a h := by cases h
  empty rq a h := by cases h
  known rq h := absurd rfl h
  heads n rq h := by
    cases n with
    | sfqrQueue a => cases h
    | queuelist r => exact .inl h

/-- A step that moves one request between phases other than `set` and `added`, and no record. -/
theorem frame (h : Inv w f) {ph : Phase} (hrq : w.phase rq ≠ .added) (hset : ph ≠ .set) (hadded : ph ≠ .added)
    (hbusy : w.phase rq ≠ .idle) (depth : Int) (unplugWork : Bool) :
    Inv { w with elv := { w.elv with depth := depth, unplugWork := unplugWork },
                 phase := Function.update w.phase rq ph } f := by
  exact ⟨h.array.frame hrq hset hadded, h.linked, fun r hr => h.home r (World.phase_of_update hadded hr).2,
    fun r r' p hr hr' => h.homes r r' p (World.phase_of_update hadded hr).2 (World.phase_of_update hadded hr').2,
    fun r p hr => h.empty r p (World.phase_of_update hset hr).2, fun r hr => h.known r (World.busy_of_update hbusy hr),
    h.heads⟩

theorem set (h : Inv w f) (wrap : Int → Int) {env : SetEnv (ListHead Node)} {pid : Pid} (hi : w.phase rq = .idle)
    (hfree : w.elv.live env.sfqr = false) {vt : Int} (hvt : w.elv.virtualTime ≤ vt) :
    Inv (w.onSet (w.elv.withArray
      (prepared wrap ⟨.sfqrQueue env.sfqr, .sfqrQueue env.sfqr⟩ w.elv.toHeapArray rq pid env vt)) rq pid) f := by
  generalize hown : (⟨.sfqrQueue env.sfqr, .sfqrQueue env.sfqr⟩ : ListHead Node) = own
  have hnew : ((prepared wrap own w.elv.toHeapArray rq pid env vt).pool env.sfqr).own = own := by simp [prepared]
  have hpool {p : Addr} (hp : w.elv.live p = true) :
      (prepared wrap own w.elv.toHeapArray rq pid env vt).pool p = w.elv.pool p :=
    prepared_pool_of_ne (ne_of_live hfree hp)
  have hback {r : Rq} (hr : Function.update w.phase rq .set r = .added) : r ≠ rq ∧ w.phase r = .added :=
    World.phase_of_update (by decide) hr
  have hphase {r : Rq} (hr : r ≠ rq) : Function.update w.phase rq .set r = w.phase r := Function.update_of_ne hr _ _
  constructor
  case array => exact h.array.set hi hfree hvt
  case linked =>
    intro p hp
    obtain ⟨r, hr⟩ := h.linked p hp
    exact ⟨r, (hpool (h.array.live p hp)).symm ▸ hr⟩
  case home =>
    intro r hr
    obtain ⟨hne, hadded⟩ := hback hr
    obtain ⟨p, hp, hpriv, hlist⟩ := h.home r hadded
    exact ⟨p, hp, (prepared_priv0_of_ne hne).trans hpriv, hlist⟩
  case homes =>
    intro r r' p hr hr' hp hp'
    exact h.homes r r' p (hback hr).2 (hback hr').2 ((prepared_priv0_of_ne (hback hr).1).symm.trans hp)
      ((prepared_priv0_of_ne (hback hr').1).symm.trans hp')
  case empty =>
    intro r p hr hp
    change ((prepared wrap own w.elv.toHeapArray rq pid env vt).pool p).own = _
    rcases eq_or_ne r rq with rfl | hne
    · obtain rfl : env.sfqr = p := Option.some.inj (prepared_priv0_self.symm.trans hp)
      exact hnew.trans hown.symm
    · have hset := (hphase hne).symm.trans hr
      have hp := (prepared_priv0_of_ne hne).symm.trans hp
      obtain ⟨q, hq⟩ := h.array.waits r hset
      obtain rfl : q = p := Option.some.inj (hq.priv0.symm.trans hp)
      rw [hpool hq.live]
      exact h.empty r q hset hp
  case known =>
    intro r hr
    rcases eq_or_ne r rq with rfl | hne
    · exact (prepared_priv0_self).trans_ne (Option.some_ne_none _)
    · exact (prepared_priv0_of_ne hne).trans_ne (h.known r ((hphase hne).symm.trans_ne hr))
  case heads =>
    intro n r hn
    apply h.heads n r
    cases n with
    | queuelist r' => exact hn
    | sfqrQueue p =>
      have hp : p ≠ env.sfqr := by
        rintro rfl
        cases (congrArg ListHead.next (hnew.trans hown.symm)).symm.trans hn
      exact (congrArg (fun sfqr => sfqr.own.next) (prepared_pool_of_ne hp)).symm.trans hn

theorem add (h : Inv w f) (hs : w.phase rq = .set) (ha : Waits w.elv.toHeapArray f rq a) {h' : HeapArray (ListHead Node)}
    (hi : Inserted w.elv.toHeapArray h' f f' rq a) :
    Inv (w.onAdd ((w.elv.withArray h').setLinks
      (listAddTail (w.elv.withArray h').links (.queuelist rq) (.sfqrQueue a))) rq) f' := by
  generalize hm : (w.elv.withArray h').links = m
  have hpool {p : Addr} (hp : p ≠ a) : h'.pool p = w.elv.pool p := by rw [hi.pool, Function.update_of_ne hp]
  have hself : h'.pool a = { w.elv.pool a with rq := some rq } := by rw [hi.pool, Function.update_self]
  have hempty : m (.sfqrQueue a) = ⟨.sfqrQueue a, .sfqrQueue a⟩ := by
    rw [← hm]
    exact (congrArg SfqRequest.own hself).trans (h.empty rq a hs ha.priv0)
  have hsole := listAddTail_empty hempty (x := Node.queuelist rq) (by simp)
  have hhead {p : Addr} (hp : p ≠ a) :
      listAddTail m (.queuelist rq) (.sfqrQueue a) (.sfqrQueue p) = (w.elv.pool p).own := by
    rw [listAddTail_of_ne hempty (by simpa using hp) (by simp), ← hm]
    exact congrArg SfqRequest.own (hpool hp)
  have hentry {r : Rq} (hr : r ≠ rq) :
      listAddTail m (.queuelist rq) (.sfqrQueue a) (.queuelist r) = w.elv.queuelist r := by
    rw [listAddTail_of_ne hempty (by simp) (by simpa using hr), ← hm]
    rfl
  have hback {r : Rq} (hr : Function.update w.phase rq .added r = .set) : r ≠ rq ∧ w.phase r = .set :=
    World.phase_of_update (by decide) hr
  have harray : HeapInv (arrayWorld (w.onAdd ((w.elv.withArray h').setLinks
      (listAddTail m (.queuelist rq) (.sfqrQueue a))) rq)) f' :=
    (h.array.add hs ha hi).relabel (fun _ => rfl) fun _ => rfl
  have hout {r : Rq} (hr : w.phase r = .added) : w.elv.priv0 r ≠ some a := by
    intro hp
    obtain ⟨q, hq, hpriv, -⟩ := h.home r hr
    obtain rfl : q = a := Option.some.inj (hpriv.symm.trans hp)
    exact ha.out hq
  have hadded {r : Rq} (hr : Function.update w.phase rq .added r = .added) : r = rq ∨ w.phase r = .added := by
    rcases eq_or_ne r rq with rfl | hne
    · exact .inl rfl
    · exact .inr ((Function.update_of_ne hne _ _).symm.trans hr)
  constructor
  case array => exact harray
  case linked =>
    intro p hp
    change ∃ r, (h'.pool p).rq = some r ∧ listAddTail m (.queuelist rq) (.sfqrQueue a) (.sfqrQueue p) = _
    change p ∈ pointers f' h'.size at hp
    rw [hi.pointers] at hp
    rcases Multiset.mem_cons.mp hp with rfl | hp
    · exact ⟨rq, congrArg SfqRequest.rq hself, hsole.head⟩
    · have hpa : p ≠ a := ne_of_mem_of_not_mem hp ha.out
      rw [hpool hpa, hhead hpa]
      exact h.linked p hp
  case home =>
    intro r hr
    change ∃ p ∈ pointers f' h'.size, h'.priv0 r = some p ∧
      listAddTail m (.queuelist rq) (.sfqrQueue a) (.queuelist r) = _
    rw [hi.pointers, hi.priv0]
    rcases eq_or_ne r rq with rfl | hne
    · exact ⟨a, Multiset.mem_cons_self .., ha.priv0, hsole.entry⟩
    · obtain ⟨p, hp, hpriv, hlist⟩ := h.home r ((Function.update_of_ne hne _ _).symm.trans hr)
      exact ⟨p, Multiset.mem_cons_of_mem hp, hpriv, (hentry hne).trans hlist⟩
  case homes =>
    intro r r' p hr hr' hp hp'
    change h'.priv0 r = some p at hp
    change h'.priv0 r' = some p at hp'
    rw [hi.priv0] at hp hp'
    rcases hadded hr with rfl | h₁ <;> rcases hadded hr' with rfl | h₂
    · rfl
    · exact absurd (hp'.trans (hp.symm.trans ha.priv0)) (hout h₂)
    · exact absurd (hp.trans (hp'.symm.trans ha.priv0)) (hout h₁)
    · exact h.homes r r' p h₁ h₂ hp hp'
  case empty =>
    intro r p hr hp
    change listAddTail m (.queuelist rq) (.sfqrQueue a) (.sfqrQueue p) = _
    change h'.priv0 r = some p at hp
    rw [hi.priv0] at hp
    obtain ⟨hne, hset⟩ := hback hr
    have hpa : p ≠ a := by
      rintro rfl
      exact hne (h.array.apart r rq p hset hs hp ha.priv0)
    rw [hhead hpa]
    exact h.empty r p hset hp
  case known =>
    intro r hr
    change h'.priv0 r ≠ none
    rw [hi.priv0]
    apply h.known r
    exact World.busy_of_update (by simp [hs]) hr
  case heads =>
    intro n r hn
    change _ ∨ ∃ p ∈ pointers f' h'.size, _
    rw [hi.pointers]
    rcases eq_or_ne n (.sfqrQueue a) with rfl | hna
    · exact .inr ⟨a, Multiset.mem_cons_self .., rfl⟩
    · rcases eq_or_ne n (.queuelist rq) with rfl | hnq
      · cases (congrArg ListHead.next hsole.entry).symm.trans hn
      · have hn : (w.elv.links n).next = .queuelist r := by
          cases n with
          | sfqrQueue p => exact (congrArg ListHead.next (hhead fun hp => hna (congrArg Node.sfqrQueue hp))).symm.trans hn
          | queuelist r' =>
            exact (congrArg ListHead.next (hentry fun hr => hnq (congrArg Node.queuelist hr))).symm.trans hn
        exact (h.heads n r hn).imp_right fun ⟨p, hp, hnp⟩ => ⟨p, Multiset.mem_cons_of_mem hp, hnp⟩

/-- Where the request of the root is at home, its list has this one entry. -/
theorem sole_root (h : Inv w f) (hpos : 0 < w.elv.size) (hroot : RootHome w.elv) :
    ∃ rq, load w.elv.requests 0 = some (f 0) ∧ (w.elv.pool (f 0)).rq = some rq ∧ w.elv.priv0 rq = some (f 0) ∧
      Sole w.elv.links (.sfqrQueue (f 0)) (.queuelist rq) := by
  have hload := h.array.state.load_lt hpos
  obtain ⟨rq, hown, hlink⟩ := h.linked _ (HeapInv.root_mem hpos)
  have hpriv : w.elv.priv0 rq = some (f 0) := by
    simpa [RootHome, show load w.elv.requests 0 = some (f 0) from hload, hown] using hroot
  obtain ⟨p, -, hprivp, hlist⟩ := h.home rq (h.array.added_of_mem (HeapInv.root_mem hpos) hown)
  obtain rfl : f 0 = p := Option.some.inj (hpriv.symm.trans hprivp)
  exact ⟨rq, hload, hown, hpriv, ⟨by simp, hlink, hlist⟩⟩

theorem linked_removed (h : Inv w f) {h' : HeapArray (ListHead Node)} (hr : Removed w.elv.toHeapArray h' f f') :
    ∀ p ∈ pointers f' h'.size, ∃ rq, (h'.pool p).rq = some rq ∧ (h'.pool p).own = ⟨.queuelist rq, .queuelist rq⟩ := by
  intro p hp
  have hmem : h'.pool p ∈ contents f w.elv.size w.elv.pool := by
    rw [hr.contents]
    exact Multiset.mem_cons_of_mem (mem_contents.mpr ⟨p, hp, rfl⟩)
  obtain ⟨q, hq, hqp⟩ := mem_contents.mp hmem
  exact hqp ▸ h.linked q hq

/-- Outside the heap only the removed root still leads to a request. -/
theorem eq_root_of_removed (h : Inv w f) {h' : HeapArray (ListHead Node)} (hr : Removed w.elv.toHeapArray h' f f') {p : Addr}
    (hp : p ∉ pointers f' h'.size) (hn : (h'.pool p).own.next = .queuelist rq) : p = f 0 := by
  rw [hr.frame p hp] at hn
  obtain ⟨q, hq, hqp⟩ := (h.heads (.sfqrQueue p) rq hn).resolve_left (by simp)
  obtain rfl : p = q := Node.sfqrQueue.inj hqp
  rw [hr.pointers] at hq
  exact (Multiset.mem_cons.mp hq).resolve_right hp

theorem remove (h : Inv w f) (hpos : 0 < w.elv.size) (hrq : (w.elv.pool (f 0)).rq = some rq) (hhome : w.elv.priv0 rq = some (f 0))
    {h' : HeapArray (ListHead Node)} (hr : Removed w.elv.toHeapArray h' f f')
    (hsole : Sole (w.elv.withArray h').links (.sfqrQueue (f 0)) (.queuelist rq)) (depth : Int) :
    Inv (w.onDispatch { (w.elv.withArray h').setLinks (listDelInit (w.elv.withArray h').links (.queuelist rq)) with
      currSfqr := some (f 0), depth := depth } (some rq)) f' := by
  generalize hm : (w.elv.withArray h').links = m at hsole ⊢
  have hout := hr.root_notMem h.array.state
  have hhead {p : Addr} (hp : p ≠ f 0) : listDelInit m (.queuelist rq) (.sfqrQueue p) = (h'.pool p).own := by
    rw [listDelInit_of_ne hsole.entry (by simpa using hp) (by simp), ← hm]
    rfl
  have hentry {r : Rq} (hr : r ≠ rq) : listDelInit m (.queuelist rq) (.queuelist r) = w.elv.queuelist r := by
    rw [listDelInit_of_ne hsole.entry (by simp) (by simpa using hr), ← hm]
    rfl
  have hback {r : Rq} {q : Phase} (hq : .dispatched ≠ q) (hr : Function.update w.phase rq .dispatched r = q) :
      r ≠ rq ∧ w.phase r = q := World.phase_of_update hq hr
  have hroot : w.phase rq = .added := h.array.added_of_mem (HeapInv.root_mem hpos) hrq
  constructor
  case array => exact (h.array.remove hr hrq).relabel (fun _ => rfl) fun _ => rfl
  case linked =>
    intro p hp
    change p ∈ pointers f' h'.size at hp
    change ∃ r, (h'.pool p).rq = some r ∧ listDelInit m (.queuelist rq) (.sfqrQueue p) = _
    rw [hhead (ne_of_mem_of_not_mem hp hout)]
    exact h.linked_removed hr p hp
  case home =>
    intro r hadded
    obtain ⟨hr', hadded⟩ := hback (by decide) hadded
    obtain ⟨p, hp, hpriv, hlist⟩ := h.home r hadded
    have hp0 : p ≠ f 0 := by
      rintro rfl
      exact hr' (h.homes r rq _ hadded hroot hpriv hhome)
    have hp' : p ∈ pointers f' h'.size := (Multiset.mem_cons.mp (hr.pointers ▸ hp)).resolve_left hp0
    exact ⟨p, hp', hr.priv0.symm ▸ hpriv, (hentry hr').trans hlist⟩
  case homes =>
    intro r r' p h1 h2 hp hp'
    exact h.homes r r' p (hback (by decide) h1).2 (hback (by decide) h2).2 (hr.priv0 ▸ hp) (hr.priv0 ▸ hp')
  case empty =>
    intro r p hset hp
    obtain ⟨-, hset⟩ := hback (by decide) hset
    have hp : w.elv.priv0 r = some p := hr.priv0 ▸ hp
    obtain ⟨q, hq⟩ := h.array.waits r hset
    obtain rfl : q = p := Option.some.inj (hq.priv0.symm.trans hp)
    have hout' : q ∉ pointers f' h'.size := by
      intro hq'
      exact hq.out (hr.pointers ▸ Multiset.mem_cons_of_mem hq')
    change listDelInit m (.queuelist rq) (.sfqrQueue q) = _
    rw [hhead (ne_of_mem_of_not_mem (HeapInv.root_mem hpos) hq.out).symm, hr.frame q hout']
    exact h.empty r q hset hp
  case known =>
    intro r hbusy
    change h'.priv0 r ≠ none
    rw [hr.priv0]
    exact h.known r (World.busy_of_update (by simp [hroot]) hbusy)
  case heads =>
    intro n r hn
    change _ ∨ ∃ p ∈ pointers f' h'.size, _
    cases n with
    | sfqrQueue p =>
      change (listDelInit m (.queuelist rq) (.sfqrQueue p)).next = _ at hn
      right
      have hp0 : p ≠ f 0 := by
        rintro rfl
        rw [listDelInit_head hsole.entry hsole.ne] at hn
        cases hn
      refine ⟨p, ?_, rfl⟩
      rw [hhead hp0] at hn
      by_contra hp'
      exact hp0 (h.eq_root_of_removed hr hp' hn)
    | queuelist r' =>
      change (listDelInit m (.queuelist rq) (.queuelist r')).next = _ at hn
      left
      rcases eq_or_ne r' rq with rfl | hr'
      · rwa [listDelInit_self] at hn
      · rw [hentry hr'] at hn
        exact (h.heads (.queuelist r') r hn).resolve_right (by simp)

end Inv

/-- A dispatch that finds the root at home hands out its request. -/
private theorem dispatch_step (h : Inv w f) (hgo : 0 < w.elv.size ∧ w.elv.depth ≤ requestDepth) (force : Bool)
    (hroot : RootHome w.elv) :
    ∃ rq s' f', sfqDispatch w.elv force = some (⟨1, some rq, false⟩, s') ∧ load w.elv.requests 0 = some (f 0) ∧
      (w.elv.pool (f 0)).rq = some rq ∧ w.elv.priv0 rq = some (f 0) ∧ s'.size + 1 = w.elv.size ∧
      Inv (w.onDispatch s' (some rq)) f' := by
  obtain ⟨rq, hload, hrq, hpriv, hsole⟩ := h.sole_root hgo.1 hroot
  obtain ⟨h', f', hd, hr⟩ := sfqDispatch_eq h.array.state hgo force hsole.head
  have hroot : h'.pool (f 0) = w.elv.pool (f 0) := hr.frame _ (hr.root_notMem h.array.state)
  have hsole' : Sole (w.elv.withArray h').links (.sfqrQueue (f 0)) (.queuelist rq) :=
    ⟨hsole.ne, (congrArg SfqRequest.own hroot).trans hsole.head, hsole.entry⟩
  exact ⟨rq, _, f', hd, hload, hrq, hpriv, hr.size.symm, h.remove hgo.1 hrq hpriv hr hsole' _⟩

/-- Every call succeeds and keeps the invariant. -/
theorem step_inv (h : Inv w f) (hl : (homing wrap).legal w c) :
    ∃ o w' f', (homing wrap).step w c = some (o, w') ∧ Inv w' f' := by
  cases c with
  | setRequest rq pid env =>
    have hfree : w.elv.live env.sfqr = false := by simpa [elevator] using hl.1.2
    obtain ⟨vt, hset, hle⟩ := setRequest_eq wrap ⟨.sfqrQueue env.sfqr, .sfqrQueue env.sfqr⟩ rq pid h.array.state
      (h.array.fresh hfree)
    refine ⟨.quiet false, _, f, (ElevatorOps.step_eq_some _).mpr ⟨w.elv.withArray _, ?_, rfl⟩,
      h.set wrap hl.1.1 hfree hle⟩
    exact Option.map_eq_some_iff.mpr ⟨_, hset, rfl⟩
  | addRequest rq =>
    obtain ⟨a, ha⟩ := h.array.waits rq hl.1
    obtain ⟨h', f', hadd, hi⟩ := sfqAddRequest_eq h.array.state ha
    exact ⟨_, _, f', (ElevatorOps.step_eq_some _).mpr ⟨_, hadd, rfl⟩, h.add hl.1 ha hi⟩
  | dispatch force =>
    by_cases hgo : 0 < w.elv.size ∧ w.elv.depth ≤ requestDepth
    · obtain ⟨rq, s', f', hd, -, -, -, -, hinv⟩ := dispatch_step h hgo force (hl.2 hgo)
      exact ⟨_, _, f', (ElevatorOps.step_eq_some _).mpr ⟨s', hd, rfl⟩, hinv⟩
    · exact ⟨_, _, f, (ElevatorOps.step_eq_some _).mpr ⟨_, sfqDispatch_idle hgo force, rfl⟩, h⟩
  | completed rq =>
    have hd : w.phase rq = .dispatched := hl.1
    exact ⟨_, _, f, rfl, h.frame (by simp [hd]) (by decide) (by decide) (by simp [hd]) _ _⟩
  | putRequest rq junk =>
    obtain ⟨hidle, hna, -⟩ := World.phase_of_put hl.1
    obtain ⟨a, ha⟩ := Option.ne_none_iff_exists'.mp (h.known rq hidle)
    have hput : sfqPutRequest w.elv rq = some (.quiet (decide (0 < w.elv.depth)),
        { w.elv with unplugWork := decide (0 < w.elv.depth) || w.elv.unplugWork }) := by
      simp [sfqPutRequest, ha]
    exact ⟨_, _, f, (ElevatorOps.step_eq_some _).mpr ⟨_, hput, rfl⟩,
      h.frame hna (by decide) (by decide) hidle _ _⟩

theorem inv_of_reachable (h : (homing wrap).Reachable (elevator wrap).init w) : ∃ f, Inv w f := by
  apply Machine.Reachable.invariant h
  · intro w c o w' hw hl hs
    obtain ⟨f, hf⟩ := hw
    obtain ⟨o₁, w₁, f', hs₁, hinv⟩ := step_inv hf hl
    obtain ⟨rfl, rfl⟩ : o₁ = o ∧ w₁ = w' := by simpa [hs] using hs₁.symm
    exact ⟨f', hinv⟩
  · exact ⟨_, Inv.init⟩

/-- Where every dispatch finds the root at home, no call fails, a dispatch that removes a record hands
out the request added with it, and the requests in the heap are those added and not dispatched. -/
theorem homing_loses_none (h : (homing wrap).Reachable (elevator wrap).init w) :
    (∀ c, (homing wrap).legal w c → ∃ o w', (homing wrap).step w c = some (o, w')) ∧
    (∀ force o w', (homing wrap).legal w (.dispatch force) →
      (homing wrap).step w (.dispatch force) = some (o, w') →
      if 0 < w.elv.size ∧ w.elv.depth ≤ requestDepth then
        ∃ sfqr rq, load w.elv.requests 0 = some sfqr ∧ (w.elv.pool sfqr).rq = some rq ∧
          w.elv.priv0 rq = some sfqr ∧ w.phase rq = .added ∧ o = ⟨1, some rq, false⟩ ∧ w'.elv.size + 1 = w.elv.size
      else o = .quiet false ∧ w' = w) ∧
    (w.addLog.map Prod.snd).Perm (w.dispatchLog.map Prod.snd ++ w.elv.pending) ∧
    w.elv.pending.length = w.elv.size ∧ w.elv.pending.Nodup ∧
    ∀ rq, rq ∈ w.elv.pending ↔ w.phase rq = .added := by
  obtain ⟨f, hf⟩ := inv_of_reachable h
  refine ⟨?_, ?_, hf.array.perm_pending, hf.array.length_pending, hf.array.nodup_pending, fun rq => hf.array.mem_pending⟩
  · intro c hl
    obtain ⟨o, w', -, hs, -⟩ := step_inv hf hl
    exact ⟨o, w', hs⟩
  · intro force o w' hl hs
    obtain ⟨s, hd, rfl⟩ := (ElevatorOps.step_eq_some _).mp hs
    split
    case isTrue hgo =>
      obtain ⟨rq, s', f', hd', hload, hrq, hpriv, hsize, -⟩ := dispatch_step hf hgo force (hl.2 hgo)
      obtain ⟨rfl, rfl⟩ := Prod.mk.inj (Option.some.inj (hd'.symm.trans hd))
      exact ⟨f 0, rq, hload, hrq, hpriv, hf.array.added_of_mem (HeapInv.root_mem hgo.1) hrq, rfl, hsize⟩
    case isFalse hgo =>
      obtain ⟨rfl, rfl⟩ := Prod.mk.inj (Option.some.inj ((sfqDispatch_idle hgo force).symm.trans hd))
      exact ⟨rfl, rfl⟩

/-- Two requests are added, and each is dispatched before its record is moved. -/
theorem homing_loses_none_two :
    ∃ w, (homing id).Reachable (elevator id).init w ∧ w.elv.size = 0 ∧
      w.dispatchLog.map Prod.snd = [0, 1] ∧ (w.addLog.map Prod.snd).Perm (w.dispatchLog.map Prod.snd ++ w.elv.pending) := by
  have hplay : (homing id).Plays (elevator id).init
      [.setRequest 0 7 ⟨0, ⟨-5, 3, 0, some 9, ⟨.queuelist 4, .sfqrQueue 2⟩⟩⟩, .addRequest 0,
        .setRequest 1 7 ⟨1, ⟨0, 0, 0, none, ⟨.queuelist 0, .queuelist 0⟩⟩⟩, .addRequest 1,
        .dispatch false, .dispatch true] fun _ w =>
        w.elv.size = 0 ∧ w.dispatchLog.map Prod.snd = [0, 1] := by decide
  obtain ⟨tr, w, hr, -, hsize, hlog⟩ := hplay.exists_run
  obtain ⟨-, -, hperm, -⟩ := homing_loses_none ⟨tr, hr⟩
  exact ⟨w, ⟨tr, hr⟩, hsize, hlog, hperm⟩

/-- Of three requests the first dispatch moves the records of the other two. The second dispatch
unlinks its request from the head it was added to, which by then heads the list of the third: the
third dispatch removes the last record and finds no request. -/
theorem moved_head_loses_request :
    ∃ tr w, (elevator id).machine.Run (elevator id).init tr w ∧ w.elv.size = 0 ∧ w.addLog.map Prod.snd = [0, 1, 2] ∧
      w.dispatchLog.map Prod.snd = [0, 1] ∧
      ∃ e ∈ tr, e.call.isDispatch ∧ e.pre.elv.size = 1 ∧ e.post.elv.size = 0 ∧ e.out = .quiet false := by
  have hplay : (elevator id).machine.Plays (elevator id).init
      [.setRequest 0 7 ⟨0, ⟨0, 0, 0, none, ⟨.sfqrQueue 0, .sfqrQueue 0⟩⟩⟩, .addRequest 0,
        .setRequest 1 7 ⟨1, ⟨0, 0, 0, none, ⟨.sfqrQueue 0, .sfqrQueue 0⟩⟩⟩, .addRequest 1,
        .setRequest 2 7 ⟨2, ⟨0, 0, 0, none, ⟨.sfqrQueue 0, .sfqrQueue 0⟩⟩⟩, .addRequest 2,
        .dispatch false, .dispatch false, .completed 0, .dispatch false] fun tr w =>
        w.elv.size = 0 ∧ w.addLog.map Prod.snd = [0, 1, 2] ∧ w.dispatchLog.map Prod.snd = [0, 1] ∧
          ∃ e ∈ tr, e.call.isDispatch ∧ e.pre.elv.size = 1 ∧ e.post.elv.size = 0 ∧ e.out = .quiet false := by decide
  obtain ⟨tr, w, hr, -, hlost⟩ := hplay.exists_run
  exact ⟨tr, w, hr, hlost⟩

end SsdScheduler.SfqNoop
