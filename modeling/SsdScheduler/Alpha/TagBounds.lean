import SsdScheduler.Alpha.ArrivalOrder

/-!
# The tags of `sfq-sched_9_complete.c`

Every record gets its tags in `sfq_set_request` and never again, and the virtual time only grows. A
property of tags that a growing virtual time keeps therefore holds of all records, waiting ones
included: start tags are not negative even after a finish tag has wrapped around, and without
wrap-around all tags are multiples of a request's length.
-/

namespace SsdScheduler.Alpha

open Framework Framework.Heap

variable {X : Type}

/-- `T` of the virtual time and `P` of the records are what `sfq_set_request` passes on. -/
structure TagRule (wrap : Int → Int) (T : Int → Prop) (P : Int → SfqRequest X → Prop) : Prop where
  mono : ∀ t t' r, t ≤ t' → P t r → P t' r
  congr : ∀ t r r', r'.startTag = r.startTag → r'.finishTag = r.finishTag → P t r → P t r'
  next : ∀ t r, T t → P t r → T (max t r.finishTag)
  fresh : ∀ t r, T t → r.startTag = t → r.finishTag = wrap (t + requestLength / requestWeight) → P t r

/-- `P` holds of the records in the heap and of those of the requests that wait to be added. -/
structure Tagged (T : Int → Prop) (P : Int → SfqRequest X → Prop) (w : World (HeapArray X)) (f : Nat → Addr) :
    Prop where
  time : T w.elv.virtualTime
  heap : ∀ r ∈ contents f w.elv.size w.elv.pool, P w.elv.virtualTime r
  waits : ∀ rq a, w.phase rq = .set → w.elv.priv0 rq = some a → P w.elv.virtualTime (w.elv.pool a)

/-- The new virtual time is the old one or the finish tag of a record in the heap. -/
theorem latestVirtualTime_cases {s : HeapArray X} {f : Nat → Addr} (h : HeapState s f) {vt : Int}
    (hlatest : latestVirtualTime s = some vt) :
    vt = s.virtualTime ∨ ∃ r ∈ contents f s.size s.pool, vt = max s.virtualTime r.finishTag := by
  rcases Nat.eq_zero_or_pos s.size with h0 | hpos
  · left
    simpa [latestVirtualTime, h0] using hlatest.symm
  · have hlast : s.size - 1 < s.size := Nat.sub_lt hpos Nat.one_pos
    by_cases hroot : 0 ≤ (s.pool (f 0)).startTag
    · right
      refine ⟨_, mem_contents.mpr ⟨f (s.size - 1), mem_pointers.mpr ⟨_, hlast, rfl⟩, rfl⟩, ?_⟩
      exact Option.some.inj (hlatest.symm.trans (latestVirtualTime_eq h hpos hroot))
    · left
      have hskip : latestVirtualTime s = some s.virtualTime := by
        simp only [latestVirtualTime, if_pos hpos, h.load_lt hpos, if_neg hroot, Option.bind_eq_bind, Option.bind_some]
      exact Option.some.inj (hlatest.symm.trans hskip)

namespace Tagged

variable {wrap : Int → Int} {T : Int → Prop} {P : Int → SfqRequest X → Prop} {w : World (HeapArray X)}
  {s' : HeapArray X} {f f' : Nat → Addr} {rq : Rq} {a : Addr} {pid : Pid}

theorem init (own : X) (h0 : T 0) : Tagged T P ⟨.initial own, fun _ => .idle, fun _ => 0, [], []⟩ fun _ => 0 where
  time := h0
  heap r hr := by simp [contents, pointers, HeapArray.initial] at hr
  waits rq a hset := by cases hset

theorem frame (h : Tagged T P w f) {ph : Phase} (hset : ph ≠ .set) :
    Tagged T P { w with phase := Function.update w.phase rq ph } f where
  time := h.time
  heap := h.heap
  waits r p hr := h.waits r p (World.phase_of_update hset hr).2

theorem set (h : Tagged T P w f) (hinv : HeapInv w f) (hrule : TagRule wrap T P) {own : X} {env : SetEnv X}
    (hfree : w.elv.live env.sfqr = false) {vt : Int} (hlatest : latestVirtualTime w.elv = some vt)
    (hle : w.elv.virtualTime ≤ vt) : Tagged T P (w.onSet (prepared wrap own w.elv rq pid env vt) rq pid) f := by
  have htime : T vt := by
    rcases latestVirtualTime_cases hinv.state hlatest with rfl | ⟨r, hr, rfl⟩
    · exact h.time
    · exact hrule.next _ r h.time (h.heap r hr)
  refine ⟨htime, ?_, ?_⟩
  · change ∀ r ∈ contents f w.elv.size (prepared wrap own w.elv rq pid env vt).pool, P vt r
    rw [contents_prepared (hinv.fresh hfree)]
    exact fun r hr => hrule.mono _ _ r hle (h.heap r hr)
  · intro r p hset hp
    change P vt ((prepared wrap own w.elv rq pid env vt).pool p)
    rcases eq_or_ne r rq with rfl | hr
    · obtain rfl : env.sfqr = p := Option.some.inj (prepared_priv0_self.symm.trans hp)
      exact hrule.fresh vt _ htime (by simp [prepared]) (by simp [prepared])
    · have hold : w.phase r = .set := (Function.update_of_ne hr _ _).symm.trans hset
      have hpriv : w.elv.priv0 r = some p := (prepared_priv0_of_ne hr).symm.trans hp
      obtain ⟨q, hq⟩ := hinv.waits r hold
      obtain rfl : q = p := Option.some.inj (hq.priv0.symm.trans hpriv)
      rw [prepared_pool_of_ne (ne_of_live hfree hq.live)]
      exact hrule.mono _ _ _ hle (h.waits r q hold hpriv)

theorem add (h : Tagged T P w f) (hinv : HeapInv w f) (hrule : TagRule wrap T P) (hs : w.phase rq = .set)
    (ha : Waits w.elv f rq a) (hi : Inserted w.elv s' f f' rq a) : Tagged T P (w.onAdd s' rq) f' := by
  have hself : P w.elv.virtualTime (w.elv.pool a) := h.waits rq a hs ha.priv0
  refine ⟨hi.virtualTime.symm ▸ h.time, ?_, ?_⟩
  · change ∀ r ∈ contents f' s'.size s'.pool, P s'.virtualTime r
    rw [contents_inserted hi ha.out, hi.virtualTime]
    intro r hr
    rcases Multiset.mem_cons.mp hr with rfl | hr
    · exact hrule.congr _ (w.elv.pool a) _ rfl rfl hself
    · exact h.heap r hr
  · intro r p hset hp
    obtain ⟨hne, hold⟩ := World.phase_of_update (by decide) hset
    have hpriv : w.elv.priv0 r = some p := hi.priv0 ▸ hp
    have hpa : p ≠ a := by
      rintro rfl
      exact hne (hinv.apart r rq p hold hs hpriv ha.priv0)
    change P s'.virtualTime (s'.pool p)
    rw [hi.virtualTime, hi.pool, Function.update_of_ne hpa]
    exact h.waits r p hold hpriv

theorem remove (h : Tagged T P w f) (hinv : HeapInv w f) (hr : Removed w.elv s' f f') :
    Tagged T P (w.onDispatch s' (some rq)) f' := by
  refine ⟨hr.virtualTime.symm ▸ h.time, ?_, ?_⟩
  · change ∀ r ∈ contents f' s'.size s'.pool, P s'.virtualTime r
    rw [hr.virtualTime]
    intro r hmem
    apply h.heap r
    rw [hr.contents]
    exact Multiset.mem_cons_of_mem hmem
  · intro r p hset hp
    have hold : w.phase r = .set := (World.phase_of_update (by decide) hset).2
    have hpriv : w.elv.priv0 r = some p := hr.priv0 ▸ hp
    obtain ⟨q, hq⟩ := hinv.waits r hold
    obtain rfl : q = p := Option.some.inj (hq.priv0.symm.trans hpriv)
    have hout : q ∉ pointers f' s'.size := by
      intro hmem
      apply hq.out
      rw [hr.pointers]
      exact Multiset.mem_cons_of_mem hmem
    change P s'.virtualTime (s'.pool q)
    rw [hr.virtualTime, hr.frame q hout]
    exact h.waits r q hold hpriv

end Tagged
end SsdScheduler.Alpha

namespace SsdScheduler.Sched9

open Framework Framework.Heap Alpha

variable {wrap : Int → Int} {T : Int → Prop} {P : Int → SfqRequest Int → Prop} {w w' : World SfqData} {o : Out}
  {c : Call (SetEnv Int) Bool Unit} {f : Nat → Addr} {rq : Rq} {pid : Pid}

/-- Every call keeps the property of the tags, and the virtual time does not go back. -/
theorem tagged_step (hrule : TagRule wrap T P) (h : HeapInv (arrayWorld w) f) (ht : Tagged T P (arrayWorld w) f)
    (hs : Step wrap w f c o w') :
    (∃ f', HeapInv (arrayWorld w') f' ∧ Tagged T P (arrayWorld w') f') ∧ w.elv.virtualTime ≤ w'.elv.virtualTime := by
  cases hs with
  | set hi hfree hlatest hle => exact ⟨⟨f, h.set hi hfree hle, ht.set h hrule hfree hlatest hle⟩, hle⟩
  | add hset ha hi => exact ⟨⟨_, h.add hset ha hi, ht.add h hrule hset ha hi⟩, hi.virtualTime.ge⟩
  | empty => exact ⟨⟨f, h, ht⟩, le_rfl⟩
  | remove _ hrq hr => exact ⟨⟨_, h.remove hr hrq, ht.remove h hr⟩, hr.virtualTime.ge⟩
  | complete hp => exact ⟨⟨f, inv_completed h hp, ht.frame (by decide)⟩, le_rfl⟩
  | put hp => exact ⟨⟨f, inv_put h hp, ht.frame (by decide)⟩, le_rfl⟩

theorem tagged_of_reachable (hrule : TagRule wrap T P) (h0 : T 0) (h : (elevator wrap).Reachable w) :
    ∃ f, HeapInv (arrayWorld w) f ∧ Tagged T P (arrayWorld w) f := by
  apply Machine.Reachable.invariant h
  · rintro w c o w' ⟨f, hinv, ht⟩ hl hs
    exact (tagged_step hrule hinv ht (step_cases hinv hl hs)).1
  · exact ⟨_, HeapInv.init 0, .init 0 h0⟩

section Sign

/-- No start tag is negative, whatever the addition makes of a finish tag. -/
theorem nonneg_rule (wrap : Int → Int) : TagRule wrap (0 ≤ ·) fun _ (r : SfqRequest Int) => 0 ≤ r.startTag where
  mono _ _ _ _ h := h
  congr _ _ _ hstart _ h := h.trans_eq hstart.symm
  next t _ h _ := h.trans (le_max_left t _)
  fresh _ _ h hstart _ := h.trans_eq hstart.symm

/-- The virtual time and the start tags are never negative and the virtual time never goes back, so no
added request is dropped. -/
theorem start_tag_nonneg (h : (elevator wrap).Reachable w) :
    0 ≤ w.elv.virtualTime ∧
      (∀ j < w.elv.size, ∃ a, load w.elv.requests j = some a ∧ 0 ≤ (w.elv.pool a).startTag) ∧
      (∀ rq, w.phase rq = .set → ∃ a, w.elv.priv0 rq = some a ∧ 0 ≤ (w.elv.pool a).startTag) ∧
      ∀ c, (elevator wrap).machine.legal w c → ∃ o w', (elevator wrap).machine.step w c = some (o, w') ∧
        w.elv.virtualTime ≤ w'.elv.virtualTime ∧ ∀ rq, c = .addRequest rq → rq ∈ w'.elv.pending := by
  obtain ⟨f, hinv, ht⟩ := tagged_of_reachable (nonneg_rule wrap) le_rfl h
  refine ⟨ht.time, ?_, ?_, ?_⟩
  · intro j hj
    exact ⟨f j, hinv.state.load_lt hj, ht.heap _ (mem_contents.mpr ⟨f j, mem_pointers.mpr ⟨j, hj, rfl⟩, rfl⟩)⟩
  · intro rq hset
    obtain ⟨a, ha⟩ := hinv.waits rq hset
    exact ⟨a, ha.priv0, ha.tag⟩
  · intro c hl
    obtain ⟨o, w', hs, hstep⟩ := exists_step hinv hl
    obtain ⟨⟨f', hinv', -⟩, hle⟩ := tagged_step (nonneg_rule wrap) hinv ht hstep
    refine ⟨o, w', hs, hle, ?_⟩
    rintro rq rfl
    apply hinv'.mem_pending.mpr
    cases hstep with
    | add => exact Function.update_self ..

/-- Two requests are added and one is dispatched, and a third waits. -/
theorem start_tag_nonneg_three : ∃ w, (elevator wrapInt).Reachable w ∧ w.elv.size = 1 ∧ w.phase 3 = .set ∧
    0 ≤ w.elv.virtualTime := by
  have hplay : (elevator wrapInt).machine.Plays (elevator wrapInt).init
      [.setRequest 1 7 ⟨0, ⟨-5, 3, 0, some 9, 0⟩⟩, .addRequest 1, .setRequest 2 8 ⟨1, ⟨0, 0, 0, none, 0⟩⟩,
        .addRequest 2, .setRequest 3 7 ⟨4, ⟨0, 0, 0, none, 0⟩⟩, .dispatch false] fun _ w =>
        w.elv.size = 1 ∧ w.phase 3 = .set := by decide
  obtain ⟨tr, w, hr, -, hsize, hset⟩ := hplay.exists_run
  exact ⟨w, ⟨tr, hr⟩, hsize, hset, (start_tag_nonneg ⟨tr, hr⟩).1⟩

end Sign

section Steps

/-- Without wrap-around the tags advance in steps of a request's length. -/
def InSteps (t : Int) (r : SfqRequest Int) : Prop :=
  0 ≤ r.startTag ∧ r.startTag ≤ t ∧ r.finishTag = r.startTag + 100 ∧ (100 : Int) ∣ r.startTag

theorem steps_rule : TagRule id (fun t => 0 ≤ t ∧ (100 : Int) ∣ t) InSteps where
  mono _ _ _ hle h := ⟨h.1, h.2.1.trans hle, h.2.2⟩
  congr _ _ _ hstart hfinish h := by
    unfold InSteps
    rw [hstart, hfinish]
    exact h
  next t r ht hr := by
    refine ⟨ht.1.trans (le_max_left _ _), ?_⟩
    rcases max_choice t r.finishTag with h | h <;> rw [h]
    · exact ht.2
    · rw [hr.2.2.1]
      exact Int.dvd_add hr.2.2.2 (Int.dvd_refl 100)
  fresh t r ht hstart hfinish := by
    unfold InSteps
    rw [hfinish, hstart]
    exact ⟨ht.1, le_rfl, rfl, ht.2⟩

/-- The record in the last slot was tagged at the present virtual time, or no record in the heap was. -/
def LastIsLatest (s : HeapArray Int) : Prop :=
  (∃ a ∈ load s.requests (s.size - 1), (s.pool a).startTag = s.virtualTime) ∨
    ∀ j < s.size, ∀ a ∈ load s.requests j, (s.pool a).startTag ≠ s.virtualTime

instance (s : HeapArray Int) : Decidable (LastIsLatest s) :=
  inferInstanceAs (Decidable ((∃ a ∈ load s.requests (s.size - 1), (s.pool a).startTag = s.virtualTime) ∨
    ∀ j < s.size, ∀ a ∈ load s.requests j, (s.pool a).startTag ≠ s.virtualTime))

/-- The start tag of the record of `rq` is at least the finish tag of every record in the heap. -/
def StartsAfterAll (s : HeapArray Int) (rq : Rq) : Prop :=
  ∃ a ∈ s.priv0 rq, ∀ j < s.size, ∃ b ∈ load s.requests j, (s.pool b).finishTag ≤ (s.pool a).startTag

instance (s : HeapArray Int) (rq : Rq) : Decidable (StartsAfterAll s rq) :=
  inferInstanceAs (Decidable (∃ a ∈ s.priv0 rq, ∀ j < s.size,
    ∃ b ∈ load s.requests j, (s.pool b).finishTag ≤ (s.pool a).startTag))

/-- A finish tag is past the virtual time exactly if the start tag is the virtual time. -/
theorem InSteps.finishTag_le {t : Int} {r : SfqRequest Int} (h : InSteps t r) (ht : (100 : Int) ∣ t) :
    r.finishTag ≤ t ↔ r.startTag ≠ t := by
  obtain ⟨-, hle, hfinish, hdvd⟩ := h
  omega

/-- The greater of the virtual time and one record's finish tag is at least all finish tags exactly if
that record has the virtual time as its start tag, or none has. -/
theorem InSteps.max_covers {t : Int} {c : Multiset (SfqRequest Int)} {last : SfqRequest Int} (hlast : last ∈ c)
    (hc : ∀ r ∈ c, InSteps t r) (ht : (100 : Int) ∣ t) :
    (∀ r ∈ c, r.finishTag ≤ max t last.finishTag) ↔ last.startTag = t ∨ ∀ r ∈ c, r.startTag ≠ t := by
  constructor
  · intro h
    rw [or_iff_not_imp_left]
    intro hne r hr
    have hbehind : last.finishTag ≤ t := ((hc last hlast).finishTag_le ht).mpr hne
    have hle := h r hr
    rw [max_eq_left hbehind] at hle
    exact ((hc r hr).finishTag_le ht).mp hle
  · rintro (heq | hne) r hr
    · have hstart := (hc r hr).2.1
      have hfinish := (hc r hr).2.2.1
      have hfinish' := (hc last hlast).2.2.1
      exact le_max_of_le_right (by omega)
    · exact le_max_of_le_left (((hc r hr).finishTag_le ht).mpr (hne r hr))

theorem startsAfterAll_prepared (wrap : Int → Int) {s : HeapArray Int} {env : SetEnv Int} {vt : Int} (h : HeapState s f)
    (hfresh : env.sfqr ∉ pointers f s.size) : StartsAfterAll (prepared wrap 1 s rq pid env vt) rq ↔
      ∀ r ∈ contents f s.size s.pool, r.finishTag ≤ vt := by
  have hnew : ((prepared wrap 1 s rq pid env vt).pool env.sfqr).startTag = vt := by simp [prepared]
  have hkept {p : Addr} (hp : p ∈ pointers f s.size) : (prepared wrap 1 s rq pid env vt).pool p = s.pool p :=
    prepared_pool_of_ne (ne_of_mem_of_not_mem hp hfresh)
  constructor
  · rintro ⟨a, ha, hall⟩ r hr
    obtain ⟨p, hp, rfl⟩ := mem_contents.mp hr
    obtain ⟨j, hj, rfl⟩ := mem_pointers.mp hp
    obtain rfl : env.sfqr = a := Option.some.inj (prepared_priv0_self.symm.trans ha)
    obtain ⟨b, hb, hle⟩ := hall j hj
    obtain rfl : f j = b := Option.some.inj ((h.load_lt hj).symm.trans hb)
    rwa [hnew, hkept hp] at hle
  · intro hall
    refine ⟨env.sfqr, prepared_priv0_self, fun j hj => ⟨f j, h.load_lt hj, ?_⟩⟩
    have hp : f j ∈ pointers f s.size := mem_pointers.mpr ⟨j, hj, rfl⟩
    rw [hnew, hkept hp]
    exact hall _ (mem_contents.mpr ⟨f j, hp, rfl⟩)

theorem lastIsLatest_iff {s : HeapArray Int} (h : HeapState s f) (hpos : 0 < s.size) :
    LastIsLatest s ↔ (s.pool (f (s.size - 1))).startTag = s.virtualTime ∨
      ∀ r ∈ contents f s.size s.pool, r.startTag ≠ s.virtualTime := by
  have hlast := h.load_lt (Nat.sub_lt hpos Nat.one_pos)
  refine or_congr ?_ ⟨?_, ?_⟩
  · simp [hlast]
  · intro hall r hr
    obtain ⟨p, hp, rfl⟩ := mem_contents.mp hr
    obtain ⟨j, hj, rfl⟩ := mem_pointers.mp hp
    exact hall j hj (f j) (h.load_lt hj)
  · intro hall j hj a ha
    obtain rfl : f j = a := Option.some.inj ((h.load_lt hj).symm.trans ha)
    exact hall _ (mem_contents.mpr ⟨f j, mem_pointers.mpr ⟨j, hj, rfl⟩, rfl⟩)

/-- The last slot stands for the whole heap exactly if its record was tagged at the present virtual time
or none was. -/
theorem starts_after_all_iff (h : (elevator id).Reachable w) (hpos : 0 < w.elv.size) {env : SetEnv Int}
    (hl : (elevator id).machine.legal w (.setRequest rq pid env)) :
    (∃ o w', (elevator id).machine.step w (.setRequest rq pid env) = some (o, w') ∧
      StartsAfterAll w'.elv.toHeapArray rq) ↔ LastIsLatest w.elv.toHeapArray := by
  obtain ⟨f, hinv, ht⟩ := tagged_of_reachable steps_rule ⟨le_rfl, Int.dvd_zero 100⟩ h
  have hmem {j : Nat} (hj : j < w.elv.size) : w.elv.pool (f j) ∈ contents f w.elv.size w.elv.pool :=
    mem_contents.mpr ⟨f j, mem_pointers.mpr ⟨j, hj, rfl⟩, rfl⟩
  have hroot : 0 ≤ (w.elv.pool (f 0)).startTag := (ht.heap _ (hmem hpos)).1
  obtain ⟨o, w₁, hset, hstep⟩ := exists_step hinv hl
  cases hstep with
  | set _ hfree hlatest _ =>
    obtain rfl := Option.some.inj ((latestVirtualTime_eq hinv.state hpos hroot).symm.trans hlatest)
    refine Iff.trans ?_ (lastIsLatest_iff hinv.state hpos).symm
    refine Iff.trans ?_ (InSteps.max_covers (hmem (Nat.sub_lt hpos Nat.one_pos)) ht.heap ht.time.2)
    rw [← startsAfterAll_prepared id hinv.state (hinv.fresh hfree)]
    constructor
    · rintro ⟨o, w', hs, hafter⟩
      obtain ⟨rfl, rfl⟩ := Prod.mk.inj (Option.some.inj (hset.symm.trans hs))
      exact hafter
    · exact fun hafter => ⟨_, _, hset, hafter⟩

/-- A request of process 7 is set and added. -/
private def arrives (rq : Rq) : List (Call (SetEnv Int) Bool Unit) :=
  [.setRequest rq 7 ⟨rq, ⟨0, 0, 0, none, 0⟩⟩, .addRequest rq]

theorem starts_after_all_iff_two :
    ∃ o w', (∃ w, (elevator id).machine.step w (.setRequest 3 7 ⟨3, ⟨0, 0, 0, none, 0⟩⟩) = some (o, w')) ∧
      StartsAfterAll w'.elv.toHeapArray 3 := by
  have hplay : (elevator id).machine.Plays (elevator id).init (arrives 1 ++ arrives 2) fun _ w =>
      0 < w.elv.size ∧ (elevator id).machine.legal w (.setRequest 3 7 ⟨3, ⟨0, 0, 0, none, 0⟩⟩) ∧
        LastIsLatest w.elv.toHeapArray := by decide
  obtain ⟨tr, w, hr, -, hpos, hl, hlast⟩ := hplay.exists_run
  obtain ⟨o, w', hs, hafter⟩ := (starts_after_all_iff ⟨tr, hr⟩ hpos hl).mpr hlast
  exact ⟨o, w', ⟨w, hs⟩, hafter⟩

/-- After four requests and a dispatch the last slot holds the third, whose finish tag is the virtual
time, and the fourth has a greater one. -/
theorem starts_before_one :
    ∃ w, (elevator id).Reachable w ∧ 0 < w.elv.size ∧
      (elevator id).machine.legal w (.setRequest 5 7 ⟨5, ⟨0, 0, 0, none, 0⟩⟩) ∧
      ∃ p ∈ (elevator id).machine.step w (.setRequest 5 7 ⟨5, ⟨0, 0, 0, none, 0⟩⟩),
        ¬ StartsAfterAll p.2.elv.toHeapArray 5 := by
  have hplay : (elevator id).machine.Plays (elevator id).init
      (arrives 1 ++ arrives 2 ++ arrives 3 ++ arrives 4 ++ [.dispatch false]) fun _ w => 0 < w.elv.size ∧
        (elevator id).machine.legal w (.setRequest 5 7 ⟨5, ⟨0, 0, 0, none, 0⟩⟩) ∧
        ∃ p ∈ (elevator id).machine.step w (.setRequest 5 7 ⟨5, ⟨0, 0, 0, none, 0⟩⟩),
          ¬ StartsAfterAll p.2.elv.toHeapArray 5 := by decide
  obtain ⟨tr, w, hr, -, hw⟩ := hplay.exists_run
  exact ⟨w, ⟨tr, hr⟩, hw⟩

end Steps

end SsdScheduler.Sched9
