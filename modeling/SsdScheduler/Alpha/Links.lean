import SsdScheduler.Alpha.Sched15

/-!
# From a request to its record and back, in `sfq-sched_15.c`

`heap_swap` exchanges whole records behind the pointers of the heap, while `rq->elv.priv[0]` stays. The
link from a request to its record and back holds as long as `heapify` finds nothing to exchange.
-/

namespace SsdScheduler.Alpha

open Framework Framework.Heap

variable {X : Type} {s s' : HeapArray X} {f f' : Nat → Addr} {p : Addr}

/-- A pointer to the record is in the heap. -/
def Holds (s : HeapArray X) (p : Addr) : Prop := ∃ j < s.size, load s.requests j = some p

theorem HeapState.holds_iff (h : HeapState s f) : Holds s p ↔ p ∈ pointers f s.size := by
  rw [mem_pointers]
  constructor
  · rintro ⟨j, hj, hp⟩
    exact ⟨j, hj, Option.some.inj ((h.load_lt hj).symm.trans hp)⟩
  · rintro ⟨j, hj, rfl⟩
    exact ⟨j, hj, h.load_lt hj⟩

/-- The start tag found through a slot. -/
def tagAt (s : HeapArray X) (j : Nat) : Int := ((load s.requests j).map fun a => (s.pool a).startTag).getD 0

/-- The last record, which replaces the root when that is removed, has no greater tag than the
records in slots 1 and 2 that remain. -/
def Settled (s : HeapArray X) : Prop := ∀ j ∈ [1, 2], j < s.size - 1 → tagAt s (s.size - 1) ≤ tagAt s j

instance (s : HeapArray X) : Decidable (Settled s) :=
  inferInstanceAs (Decidable (∀ j ∈ [1, 2], j < s.size - 1 → tagAt s (s.size - 1) ≤ tagAt s j))

theorem settled_iff {least : Nat} {shrink : Block Addr → Nat → Block Addr} {a : Addr}
    (hremove : removeRoot least shrink s = some (a, s')) (hs : Shrinks shrink) (hr : Removed s s' f f') :
    Settled s ↔ ∀ j ∈ [1, 2], j < s'.size → (s.pool (f' 0)).startTag ≤ (s.pool (f' j)).startTag := by
  have htag {j : Nat} (hj : j < s'.size) :
      tagAt s (if j = 0 then s.size - 1 else j) = (s.pool (f' j)).startTag := by
    have hload := (removeRoot_slots hremove hs hj).symm.trans (hr.state.load_lt hj)
    rw [tagAt, hload]
    rfl
  have hsize : s.size - 1 = s'.size := by rw [hr.size, Nat.add_sub_cancel]
  unfold Settled
  refine forall_congr' fun j => forall_congr' fun hj => ?_
  have hne : j ≠ 0 := by
    rintro rfl
    simp at hj
  rw [hsize]
  refine forall_congr' fun hlt => ?_
  have hroot := htag (Nat.zero_lt_of_lt hlt)
  have hchild := htag hlt
  rw [if_pos rfl, hsize] at hroot
  rw [if_neg hne] at hchild
  rw [hroot, hchild]

/-- Every request that has been added and not put leads to a record that leads back to it. -/
def Links (w : World (HeapArray X)) : Prop :=
  ∀ rq, w.phase rq = .added ∨ w.phase rq = .dispatched ∨ w.phase rq = .completed →
    ∃ a, w.elv.priv0 rq = some a ∧ (w.elv.pool a).rq = some rq

/-- What keeps the links: no two requests under way share a record, and none of their records is
free. -/
structure Linked (w : World (HeapArray X)) : Prop where
  heap : ∀ p, Holds w.elv p → ∀ rq, (w.elv.pool p).rq = some rq → w.elv.priv0 rq = some p
  begun : ∀ rq, w.phase rq = .dispatched ∨ w.phase rq = .completed →
    ∃ a, w.elv.priv0 rq = some a ∧ (w.elv.pool a).rq = some rq
  live : ∀ rq a, w.phase rq ≠ .idle → w.elv.priv0 rq = some a → w.elv.live a = true
  apart : ∀ rq rq' a, w.phase rq ≠ .idle → w.phase rq' ≠ .idle → w.elv.priv0 rq = some a →
    w.elv.priv0 rq' = some a → rq = rq'

namespace Linked

variable {w w' : World (HeapArray X)} {rq : Rq} {a : Addr}

theorem init (own : X) : Linked (⟨.initial own, fun _ => .idle, fun _ => 0, [], []⟩ : World (HeapArray X)) where
  heap p hp := by
    obtain ⟨j, hj, -⟩ := hp
    exact absurd hj (Nat.not_lt_zero _)
  begun rq h := by rcases h with h | h <;> cases h
  live rq a h := absurd rfl h
  apart rq rq' a h := absurd rfl h

theorem links (hl : Linked w) (h : HeapInv w f) : Links w := by
  intro rq hrq
  rcases hrq with hadded | hbegun
  · obtain ⟨r, hr, hrq⟩ := Multiset.mem_map.mp ((h.phases rq).mp hadded)
    obtain ⟨p, hp, rfl⟩ := mem_contents.mp hr
    exact ⟨p, hl.heap p (h.state.holds_iff.mpr hp) rq hrq, hrq⟩
  · exact hl.begun rq hbegun

/-- A step after which the heap holds no more, and the records lead back where they did. -/
theorem frame (h : Linked w) (hholds : ∀ p, Holds w'.elv p → Holds w.elv p) (hpriv : w'.elv.priv0 = w.elv.priv0)
    (hlive : w'.elv.live = w.elv.live) (hrq : ∀ p, (w'.elv.pool p).rq = (w.elv.pool p).rq)
    (hidle : ∀ r, w'.phase r ≠ .idle → w.phase r ≠ .idle)
    (hbegun : ∀ r, w'.phase r = .dispatched ∨ w'.phase r = .completed →
      ∃ a, w.elv.priv0 r = some a ∧ (w.elv.pool a).rq = some r) : Linked w' where
  heap p hp r hr := by
    rw [hpriv]
    exact h.heap p (hholds p hp) r ((hrq p).symm.trans hr)
  begun r hr := by
    obtain ⟨a, ha, hback⟩ := hbegun r hr
    exact ⟨a, by rw [hpriv, ha], (hrq a).trans hback⟩
  live r a hr ha := by
    rw [hlive]
    exact h.live r a (hidle r hr) (hpriv ▸ ha)
  apart r r' a hr hr' ha ha' := h.apart r r' a (hidle r hr) (hidle r' hr') (hpriv ▸ ha) (hpriv ▸ ha')

/-- A new record, which no request under way leads to. -/
theorem set (hl : Linked w) (h : HeapInv w f) {wrap : Int → Int} {own : X} {pid : Pid} {env : SetEnv X} {vt : Int}
    (hi : w.phase rq = .idle) (hfree : w.elv.live env.sfqr = false) :
    Linked (w.onSet (prepared wrap own w.elv rq pid env vt) rq pid) := by
  have hpool {p : Addr} (hp : w.elv.live p = true) : (prepared wrap own w.elv rq pid env vt).pool p = w.elv.pool p :=
    prepared_pool_of_ne (ne_of_live hfree hp)
  have hother {r : Rq} (hne : r ≠ rq) : (prepared wrap own w.elv rq pid env vt).priv0 r = w.elv.priv0 r ∧
      (w.onSet (prepared wrap own w.elv rq pid env vt) rq pid).phase r = w.phase r :=
    ⟨prepared_priv0_of_ne hne, Function.update_of_ne hne _ _⟩
  have hapart {r : Rq} {p : Addr} (hne : r ≠ rq)
      (hr : (w.onSet (prepared wrap own w.elv rq pid env vt) rq pid).phase r ≠ .idle)
      (hp : w.elv.priv0 r = some p) : p ≠ env.sfqr := by
    rw [(hother hne).2] at hr
    exact ne_of_live hfree (hl.live r p hr hp)
  constructor
  case heap =>
    intro p hp r hr
    have hmem := h.state.holds_iff.mp hp
    have hrq : (w.elv.pool p).rq = some r := hpool (h.live p hmem) ▸ hr
    have hne : r ≠ rq := by
      rintro rfl
      simp [h.added_of_mem hmem hrq] at hi
    exact (hother hne).1.trans (hl.heap p hp r hrq)
  case begun =>
    intro r hr
    have hne : r ≠ rq := by
      rcases hr with hr | hr
      · exact (World.phase_of_update (by decide) hr).1
      · exact (World.phase_of_update (by decide) hr).1
    rw [(hother hne).2] at hr
    obtain ⟨a, ha, hback⟩ := hl.begun r hr
    have hbusy : w.phase r ≠ .idle := by rcases hr with hr | hr <;> rw [hr] <;> decide
    exact ⟨a, (hother hne).1.trans ha, (congrArg SfqRequest.rq (hpool (hl.live r a hbusy ha))).trans hback⟩
  case live =>
    intro r p hr hp
    rcases eq_or_ne r rq with rfl | hne
    · obtain rfl : env.sfqr = p := Option.some.inj (prepared_priv0_self.symm.trans hp)
      exact prepared_live_self
    · rw [(hother hne).2] at hr
      exact prepared_live_of_live (hl.live r p hr ((hother hne).1.symm.trans hp))
  case apart =>
    intro r r' p hr hr'
    apply prepared_apart (hapart · hr) (hapart · hr')
    intro hne hne'
    exact hl.apart r r' p ((hother hne).2.symm.trans_ne hr) ((hother hne').2.symm.trans_ne hr')

theorem add (hl : Linked w) (h : HeapInv w f) (hs : w.phase rq = .set) (ha : Waits w.elv f rq a)
    (hi : Inserted w.elv s' f f' rq a) : Linked (w.onAdd s' rq) := by
  have hbusy : w.phase rq ≠ .idle := by
    rw [hs]
    decide
  have hphase {r : Rq} (hne : r ≠ rq) : (w.onAdd s' rq).phase r = w.phase r := Function.update_of_ne hne _ _
  have hback {r : Rq} (hr : (w.onAdd s' rq).phase r ≠ .idle) : w.phase r ≠ .idle := World.busy_of_update hbusy hr
  have hpool {p : Addr} (hne : p ≠ a) : s'.pool p = w.elv.pool p := by rw [hi.pool, Function.update_of_ne hne]
  constructor
  case heap =>
    intro p hp r hr
    change s'.priv0 r = some p
    rw [hi.priv0]
    have hmem := hi.state.holds_iff.mp hp
    rw [hi.pointers, Multiset.mem_cons] at hmem
    rcases hmem with rfl | hmem
    · change (s'.pool p).rq = some r at hr
      rw [hi.pool, Function.update_self] at hr
      exact Option.some.inj hr ▸ ha.priv0
    · have hne : p ≠ a := ne_of_mem_of_not_mem hmem ha.out
      apply hl.heap p (h.state.holds_iff.mpr hmem)
      rw [← hpool hne]
      exact hr
  case begun =>
    intro r hr
    have hne : r ≠ rq := by
      rintro rfl
      simp [World.onAdd] at hr
    rw [hphase hne] at hr
    obtain ⟨b, hb, hrq⟩ := hl.begun r hr
    have hba : b ≠ a := by
      rintro rfl
      refine hne (hl.apart r rq b ?_ hbusy hb ha.priv0)
      rcases hr with hr | hr <;> rw [hr] <;> decide
    refine ⟨b, hi.priv0.symm ▸ hb, ?_⟩
    change (s'.pool b).rq = some r
    rw [hpool hba]
    exact hrq
  case live =>
    intro r b hr hb
    change s'.live b = true
    rw [hi.live]
    exact hl.live r b (hback hr) (hi.priv0 ▸ hb)
  case apart =>
    intro r r' b hr hr' hb hb'
    exact hl.apart r r' b (hback hr) (hback hr') (hi.priv0 ▸ hb) (hi.priv0 ▸ hb')

/-- The root is removed and no contents are exchanged. -/
theorem remove (hl : Linked w) (h : HeapInv w f) (hpos : 0 < w.elv.size) (hr : Removed w.elv s' f f')
    (hrq : (w.elv.pool (f 0)).rq = some rq) (hpool : s'.pool = w.elv.pool) :
    Linked (w.onDispatch s' (some rq)) := by
  have hroot : f 0 ∈ pointers f w.elv.size := HeapInv.root_mem hpos
  have hbusy : w.phase rq ≠ .idle := by
    rw [h.added_of_mem hroot hrq]
    decide
  apply hl.frame
  · intro p hp
    apply h.state.holds_iff.mpr
    rw [hr.pointers]
    exact Multiset.mem_cons_of_mem (hr.state.holds_iff.mp hp)
  · exact hr.priv0
  · exact hr.live
  · intro p
    exact congrArg SfqRequest.rq (congrFun hpool p)
  · exact fun r hr => World.busy_of_update hbusy hr
  · intro r hphase
    rcases eq_or_ne r rq with rfl | hne
    · exact ⟨f 0, hl.heap _ (h.state.holds_iff.mpr hroot) r hrq, hrq⟩
    · have hsame : (w.onDispatch s' (some rq)).phase r = w.phase r := Function.update_of_ne hne _ _
      rw [hsame] at hphase
      exact hl.begun r hphase

/-- If all links still lead back after a removal, no contents have been exchanged. -/
theorem pool_eq (hl : Linked w) (h : HeapInv w f) (hpos : 0 < w.elv.size) (hr : Removed w.elv s' f f')
    (hrq : (w.elv.pool (f 0)).rq = some rq) (hlinks : Links (w.onDispatch s' (some rq))) :
    ∀ p ∈ pointers f' s'.size, s'.pool p = w.elv.pool p := by
  intro p hp
  have hmem {q : Addr} (hq : q ∈ pointers f' s'.size) : q ∈ pointers f w.elv.size := by
    rw [hr.pointers]
    exact Multiset.mem_cons_of_mem hq
  obtain ⟨r, hpr⟩ := Option.ne_none_iff_exists'.mp (h.rq_ne_none (hmem hp))
  have hne : r ≠ rq := by
    rintro rfl
    have hroot := h.rq_injective (hmem hp) (HeapInv.root_mem hpos) (hpr.trans hrq.symm)
    exact hr.root_notMem h.state (hroot ▸ hp)
  have hadded : (w.onDispatch s' (some rq)).phase r = .added :=
    (Function.update_of_ne hne _ _).trans (h.added_of_mem (hmem hp) hpr)
  obtain ⟨b, hb, hback⟩ := hlinks r (.inl hadded)
  have hb : w.elv.priv0 r = some b := hr.priv0 ▸ hb
  obtain rfl : p = b := Option.some.inj ((hl.heap p (h.state.holds_iff.mpr (hmem hp)) r hpr).symm.trans hb)
  have hcontents : contents f' s'.size s'.pool = contents f' s'.size w.elv.pool := by
    apply (Multiset.cons_inj_right (w.elv.pool (f 0))).mp
    rw [← hr.contents, contents, hr.pointers, Multiset.map_cons]
    rfl
  have hfound : s'.pool p ∈ contents f' s'.size w.elv.pool := hcontents ▸ mem_contents.mpr ⟨p, hp, rfl⟩
  obtain ⟨q, hq, hqp⟩ := mem_contents.mp hfound
  have hqrq : (w.elv.pool q).rq = (w.elv.pool p).rq := by
    rw [hqp, hpr]
    exact hback
  rw [← hqp, h.rq_injective (hmem hq) (hmem hp) hqrq]

end Linked
end SsdScheduler.Alpha

namespace SsdScheduler.Sched15

open Framework Framework.Heap Alpha

variable {wrap : Int → Int} {w w' : World GatedData} {o : Out} {c : Call (SetEnv Int) Bool Unit} {f : Nat → Addr}

/-- A call that is no removal keeps the links, and so does a removal that exchanges nothing. -/
theorem linked_step (h : HeapInv (Gated.arrayWorld w) f) (hl : Linked (Gated.arrayWorld w))
    (ht : Gated.Step wrap resize w f c o w')
    (hsettled : c.isDispatch = true → 0 < w.elv.size ∧ w.elv.depth ≤ requestDepth → Settled w.elv.toHeapArray) :
    Linked (Gated.arrayWorld w') := by
  have hbusy {rq : Rq} {ph : Phase} (hp : w.phase rq ≠ .idle) (r : Rq)
      (hr : Function.update w.phase rq ph r ≠ .idle) : w.phase r ≠ .idle := World.busy_of_update hp hr
  have hbegun {rq : Rq} {ph : Phase} (hne : ph ≠ .dispatched) (hp : ph = .completed → w.phase rq = .dispatched) (r : Rq)
      (hr : Function.update w.phase rq ph r = .dispatched ∨ Function.update w.phase rq ph r = .completed) :
      ∃ a, w.elv.priv0 r = some a ∧ (w.elv.pool a).rq = some r := by
    apply hl.begun r
    rcases eq_or_ne r rq with rfl | hrq
    · rw [Function.update_self] at hr
      exact .inl (hp (hr.resolve_left hne))
    · rwa [Function.update_of_ne hrq] at hr
  cases ht with
  | set hi hfree hle => exact hl.set h hi hfree
  | add hs ha hi => exact hl.add h hs ha hi
  | closed hclosed => exact hl
  | @remove force rq h' f' hopen hrq hremove hr =>
    have hpool := removeRoot_settled hremove hr.state ((settled_iff hremove .resize hr).mp (hsettled rfl hopen))
    exact hl.remove h hopen.1 hr hrq hpool
  | last hp hd =>
    refine hl.frame (fun _ hp => hp) rfl rfl (fun _ => rfl) ?_ ?_
    · exact hbusy (by rw [hp]; decide)
    · exact hbegun (by decide) fun _ => hp
  | complete hp hd ha =>
    refine hl.frame (fun _ hp => hp) rfl rfl (Gated.update_own (g := SfqRequest.rq) fun _ => rfl) ?_ ?_
    · exact hbusy (by rw [hp]; decide)
    · exact hbegun (by decide) fun _ => hp
  | put hp =>
    refine hl.frame (fun _ hp => hp) rfl rfl (fun _ => rfl) ?_ ?_
    · exact hbusy (World.phase_of_put hp).1
    · exact hbegun (by decide) fun h => by cases h

/-- The links hold after a step, and the record that a dispatch has taken from the heap is the one its
request leads to. -/
def LinksKept (e : Event (World GatedData) (Call (SetEnv Int) Bool Unit) Out) : Prop :=
  Links (Gated.arrayWorld e.post) ∧ ∀ rq, e.out.dispatched = some rq → e.post.elv.currSfqr = e.post.elv.priv0 rq

theorem linksKept_iff_step (h : HeapInv (Gated.arrayWorld w) f) (hl : Linked (Gated.arrayWorld w))
    (ht : Gated.Step wrap resize w f c o w') : LinksKept ⟨w, c, o, w'⟩ ↔
      (c.isDispatch = true → 0 < w.elv.size ∧ w.elv.depth ≤ requestDepth → Settled w.elv.toHeapArray) := by
  constructor
  · rintro ⟨hlinks, -⟩ hd hopen
    cases ht with
    | closed hclosed => exact absurd hopen hclosed
    | @remove force rq h' f' hopen hrq hremove hr =>
      apply (settled_iff hremove .resize hr).mpr
      intro j _ hj
      have hsame : ∀ p ∈ pointers f' h'.size, h'.pool p = w.elv.pool p := hl.pool_eq h hopen.1 hr hrq hlinks
      rw [← hsame _ (mem_pointers.mpr ⟨0, Nat.zero_lt_of_lt hj, rfl⟩), ← hsame _ (mem_pointers.mpr ⟨j, hj, rfl⟩)]
      exact hr.state.heap.root_le hj
    | _ => cases hd
  · intro hsettled
    obtain ⟨f', hf'⟩ := ht.heap h
    refine ⟨(linked_step h hl ht hsettled).links hf', ?_⟩
    intro r hr
    cases ht with
    | @remove force rq h' f' hopen hrq hremove hrem =>
      obtain rfl : rq = r := Option.some.inj hr
      have hroot := h.state.holds_iff.mpr (HeapInv.root_mem hopen.1)
      exact ((hl.heap _ hroot rq hrq).symm.trans (congrFun hrem.priv0 rq).symm : some (f 0) = _)
    | _ => cases hr

/-- In a run every added request leads to a record that leads back to it, and the record that a
dispatch takes from the heap is the one its request leads to, exactly if in every removal the last
record of the heap, which moves to the root, is in its place there. -/
theorem links_kept_iff {tr : List (Event (World GatedData) (Call (SetEnv Int) Bool Unit) Out)}
    (hr : (elevator wrap).machine.Run (elevator wrap).init tr w) :
    (∀ e ∈ tr, LinksKept e) ↔
      ∀ e ∈ tr, e.call.isDispatch = true → 0 < e.pre.elv.size ∧ e.pre.elv.depth ≤ requestDepth →
        Settled e.pre.elv.toHeapArray := by
  apply hr.forall_iff (I := fun w => ∃ f, HeapInv (Gated.arrayWorld w) f ∧ Linked (Gated.arrayWorld w))
  · rintro ⟨w, c, o, w'⟩ ⟨f, hf, hl⟩ hlegal hs
    have ht : Gated.Step wrap resize w f c o w' := Gated.step_cases hf keeps .resize hlegal hs
    refine ⟨linksKept_iff_step hf hl ht, fun hsettled => ?_⟩
    obtain ⟨f', hf'⟩ := ht.heap hf
    exact ⟨f', hf', linked_step hf hl ht hsettled⟩
  · exact ⟨_, HeapInv.init 0, .init 0⟩

/-- Three requests are set before the first of them is added, so that they have one start tag and the dispatch of the
first exchanges nothing. -/
theorem links_kept_iff_three :
    ∃ tr w, (elevator id).machine.Run (elevator id).init tr w ∧ w.phase 1 = .dispatched ∧ w.elv.size = 2 ∧
      ∀ e ∈ tr, LinksKept e := by
  have hplay : (elevator id).machine.Plays (elevator id).init
      [.setRequest 1 7 ⟨0, ⟨-5, 3, 0, some 9, 0⟩⟩, .setRequest 2 8 ⟨1, ⟨0, 0, 0, none, 0⟩⟩,
        .setRequest 3 7 ⟨4, ⟨0, 0, 0, none, 0⟩⟩, .addRequest 1, .addRequest 2, .addRequest 3, .dispatch false] fun tr w =>
        (w.phase 1 = .dispatched ∧ w.elv.size = 2) ∧
          ∀ e ∈ tr, e.call.isDispatch = true → Settled e.pre.elv.toHeapArray := by decide
  obtain ⟨tr, w, hr, -, ⟨hphase, hsize⟩, hsettled⟩ := hplay.exists_run
  exact ⟨tr, w, hr, hphase, hsize, (links_kept_iff hr).mpr fun e he hd _ => hsettled e he hd⟩

/-- Three requests are added and the first is dispatched: request 3 then leads to the record of
request 2. -/
theorem links_broken :
    ∃ w, (elevator id).Reachable w ∧ w.phase 3 = .added ∧ w.elv.priv0 3 = some 4 ∧ (w.elv.pool 4).rq = some 2 := by
  have hplay : (elevator id).machine.Plays (elevator id).init
      [.setRequest 1 7 ⟨0, ⟨-5, 3, 0, some 9, 0⟩⟩, .addRequest 1, .setRequest 2 8 ⟨1, ⟨0, 0, 0, none, 0⟩⟩,
        .addRequest 2, .setRequest 3 7 ⟨4, ⟨0, 0, 0, none, 0⟩⟩, .addRequest 3, .dispatch false] fun _ w =>
        w.phase 3 = .added ∧ w.elv.priv0 3 = some 4 ∧ (w.elv.pool 4).rq = some 2 := by decide
  obtain ⟨tr, w, hr, -, h⟩ := hplay.exists_run
  exact ⟨w, ⟨tr, hr⟩, h⟩

end SsdScheduler.Sched15
