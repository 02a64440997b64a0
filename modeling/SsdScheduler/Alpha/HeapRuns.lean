import SsdScheduler.Alpha.HeapArray

/-!
# Runs over the heap array

`HeapInv` holds in every run in which a dispatch hands out the request of the root it removes. A
record that has been set and not yet added lies outside the heap, so the exchanges of `heapify` never
reach it.
-/

namespace SsdScheduler.Alpha

open Framework Framework.Heap

variable {X : Type}

/-- `a` is the record of a request that waits to be added. -/
structure Waits (s : HeapArray X) (f : Nat → Addr) (rq : Rq) (a : Addr) : Prop where
  priv0 : s.priv0 rq = some a
  live : s.live a = true
  tag : 0 ≤ (s.pool a).startTag
  out : a ∉ pointers f s.size

/-- The requests of a log. -/
def logged (log : List (Pid × Rq)) : Multiset (Option Rq) := log.map fun p => some p.2

theorem logged_append (log : List (Pid × Rq)) (pid : Pid) (rq : Rq) :
    logged (log ++ [(pid, rq)]) = some rq ::ₘ logged log := by
  unfold logged
  rw [List.map_append, ← Multiset.coe_add, Multiset.add_comm]
  rfl

/-- The requests in the heap. -/
def queued (s : HeapArray X) (f : Nat → Addr) : Multiset (Option Rq) :=
  (contents f s.size s.pool).map SfqRequest.rq

structure HeapInv (w : World (HeapArray X)) (f : Nat → Addr) : Prop where
  state : HeapState w.elv f
  live : ∀ p ∈ pointers f w.elv.size, w.elv.live p = true
  time : 0 ≤ w.elv.virtualTime
  waits : ∀ rq, w.phase rq = .set → ∃ a, Waits w.elv f rq a
  apart : ∀ rq rq' a, w.phase rq = .set → w.phase rq' = .set → w.elv.priv0 rq = some a →
    w.elv.priv0 rq' = some a → rq = rq'
  phases : ∀ rq, w.phase rq = .added ↔ some rq ∈ queued w.elv f
  nodup : (queued w.elv f).Nodup
  tally : logged w.addLog = logged w.dispatchLog + queued w.elv f

theorem contents_prepared {s : HeapArray X} {f : Nat → Addr} {wrap : Int → Int} {own : X} {rq : Rq} {pid : Pid}
    {env : SetEnv X} {virtualTime : Int} (hout : env.sfqr ∉ pointers f s.size) :
    contents f s.size (prepared wrap own s rq pid env virtualTime).pool = contents f s.size s.pool :=
  contents_congr fun _ hp => prepared_pool_of_ne (ne_of_mem_of_not_mem hp hout)

theorem contents_inserted {s s' : HeapArray X} {f f' : Nat → Addr} {rq : Rq} {a : Addr}
    (h : Inserted s s' f f' rq a) (hout : a ∉ pointers f s.size) :
    contents f' s'.size s'.pool = { s.pool a with rq := some rq } ::ₘ contents f s.size s.pool := by
  have hrest : contents f s.size s'.pool = contents f s.size s.pool := by
    apply contents_congr
    intro p hp
    rw [h.pool, Function.update_of_ne (ne_of_mem_of_not_mem hp hout)]
  have hself : s'.pool a = { s.pool a with rq := some rq } := by rw [h.pool, Function.update_self]
  rw [← hself, ← hrest, contents, h.pointers, Multiset.map_cons]
  rfl

theorem queued_inserted {s s' : HeapArray X} {f f' : Nat → Addr} {rq : Rq} {a : Addr}
    (h : Inserted s s' f f' rq a) (hout : a ∉ pointers f s.size) : queued s' f' = some rq ::ₘ queued s f := by
  unfold queued
  rw [contents_inserted h hout, Multiset.map_cons]

theorem queued_removed {s s' : HeapArray X} {f f' : Nat → Addr} (h : Removed s s' f f') :
    queued s f = (s.pool (f 0)).rq ::ₘ queued s' f' := by
  unfold queued
  rw [h.contents, Multiset.map_cons]

namespace HeapInv

variable {w w' : World (HeapArray X)} {s' : HeapArray X} {f f' : Nat → Addr} {rq : Rq} {a : Addr} {pid : Pid}

theorem init (own : X) : HeapInv ⟨.initial own, fun _ => .idle, fun _ => 0, [], []⟩ fun _ => 0 where
  state := ⟨.empty, le_rfl⟩
  live p hp := by simp [HeapArray.initial, pointers] at hp
  time := le_rfl
  waits rq h := by cases h
  apart rq rq' a h := by cases h
  phases rq := by
    constructor
    · intro h
      cases h
    · intro h
      simp [queued, contents, pointers, HeapArray.initial] at h
  nodup := by simp [queued, contents, pointers, HeapArray.initial]
  tally := by simp [queued, contents, pointers, HeapArray.initial]

/-- A step that moves one request between phases other than `set` and `added`, and no record. -/
theorem frame (h : HeapInv w f) {ph : Phase} (hrq : w.phase rq ≠ .added) (hset : ph ≠ .set) (hadded : ph ≠ .added) :
    HeapInv { w with phase := Function.update w.phase rq ph } f := by
  refine ⟨h.state, h.live, h.time, fun r hr => h.waits r (World.phase_of_update hset hr).2,
    fun r r' a hr hr' => h.apart r r' a (World.phase_of_update hset hr).2 (World.phase_of_update hset hr').2, ?_,
    h.nodup, h.tally⟩
  intro r
  rw [← h.phases r]
  exact World.phase_update_iff hrq hadded

/-- The versions' own fields do not matter. -/
theorem relabel (h : HeapInv w f) {pool : Addr → SfqRequest X}
    (htag : ∀ p, (pool p).startTag = (w.elv.pool p).startTag) (hrq : ∀ p, (pool p).rq = (w.elv.pool p).rq) :
    HeapInv { w with elv := { w.elv with pool := pool } } f := by
  have hqueued : queued { w.elv with pool := pool } f = queued w.elv f := by
    unfold queued contents
    rw [Multiset.map_map, Multiset.map_map]
    exact Multiset.map_congr rfl fun p _ => hrq p
  constructor
  case state => exact ⟨h.state.heap.congr fun p _ => htag p, h.state.block⟩
  case live => exact h.live
  case time => exact h.time
  case waits =>
    intro r hr
    obtain ⟨a, ha⟩ := h.waits r hr
    exact ⟨a, ha.priv0, ha.live, (htag a).symm ▸ ha.tag, ha.out⟩
  case apart => exact h.apart
  case phases =>
    intro r
    change _ ↔ some r ∈ queued { w.elv with pool := pool } f
    rw [hqueued]
    exact h.phases r
  case nodup =>
    change (queued { w.elv with pool := pool } f).Nodup
    rw [hqueued]
    exact h.nodup
  case tally =>
    change _ = _ + queued { w.elv with pool := pool } f
    rw [hqueued]
    exact h.tally

theorem fresh (h : HeapInv w f) (hfree : w.elv.live a = false) : a ∉ pointers f w.elv.size := by
  intro ha
  simp [h.live a ha] at hfree

theorem set (h : HeapInv w f) {wrap : Int → Int} {own : X} {env : SetEnv X} (hi : w.phase rq = .idle)
    (hfree : w.elv.live env.sfqr = false) {vt : Int} (hvt : w.elv.virtualTime ≤ vt) :
    HeapInv (w.onSet (prepared wrap own w.elv rq pid env vt) rq pid) f := by
  have hpool {p : Addr} (hp : w.elv.live p = true) : (prepared wrap own w.elv rq pid env vt).pool p = w.elv.pool p :=
    prepared_pool_of_ne (ne_of_live hfree hp)
  have hqueued : queued (prepared wrap own w.elv rq pid env vt) f = queued w.elv f :=
    congrArg (Multiset.map SfqRequest.rq) (contents_prepared (h.fresh hfree))
  have hphase {r : Rq} (hr : r ≠ rq) :
      (w.onSet (prepared wrap own w.elv rq pid env vt) rq pid).phase r = w.phase r := Function.update_of_ne hr _ _
  have hold {r : Rq} {p : Addr} (hr : r ≠ rq)
      (hset : (w.onSet (prepared wrap own w.elv rq pid env vt) rq pid).phase r = .set)
      (hp : w.elv.priv0 r = some p) : p ≠ env.sfqr := by
    obtain ⟨q, hq⟩ := h.waits r ((hphase hr).symm.trans hset)
    obtain rfl : q = p := Option.some.inj (hq.priv0.symm.trans hp)
    exact ne_of_live hfree hq.live
  constructor
  case state =>
    exact ⟨h.state.heap.congr fun p hp => congrArg SfqRequest.startTag (hpool (h.live p hp)), h.state.block⟩
  case live => exact fun p hp => prepared_live_of_live (h.live p hp)
  case time => exact h.time.trans hvt
  case waits =>
    intro r hset
    rcases eq_or_ne r rq with rfl | hr
    · refine ⟨env.sfqr, prepared_priv0_self, prepared_live_self, ?_, h.fresh hfree⟩
      have htag : ((prepared wrap own w.elv r pid env vt).pool env.sfqr).startTag = vt := by simp [prepared]
      exact (h.time.trans hvt).trans_eq htag.symm
    · obtain ⟨p, hp⟩ := h.waits r ((hphase hr).symm.trans hset)
      refine ⟨p, (prepared_priv0_of_ne hr).trans hp.priv0, prepared_live_of_live hp.live, ?_, hp.out⟩
      exact hp.tag.trans_eq (congrArg SfqRequest.startTag (hpool hp.live)).symm
  case apart =>
    intro r r' p hset hset'
    apply prepared_apart (hold · hset) (hold · hset')
    intro hr hr'
    exact h.apart r r' p ((hphase hr).symm.trans hset) ((hphase hr').symm.trans hset')
  case phases =>
    intro r
    change _ ↔ some r ∈ queued (prepared wrap own w.elv rq pid env vt) f
    rw [hqueued, ← h.phases r]
    exact World.phase_update_iff (by rw [hi]; decide) (by decide)
  case nodup =>
    change (queued (prepared wrap own w.elv rq pid env vt) f).Nodup
    rw [hqueued]
    exact h.nodup
  case tally =>
    change _ = _ + queued (prepared wrap own w.elv rq pid env vt) f
    rw [hqueued]
    exact h.tally

theorem add (h : HeapInv w f) (hs : w.phase rq = .set) (ha : Waits w.elv f rq a)
    (hi : Inserted w.elv s' f f' rq a) : HeapInv (w.onAdd s' rq) f' := by
  have hqueued := queued_inserted hi ha.out
  have hback {r : Rq} (hr : (w.onAdd s' rq).phase r = .set) : r ≠ rq ∧ w.phase r = .set :=
    World.phase_of_update (by decide) hr
  have hnew : some rq ∉ queued w.elv f := by
    rw [← h.phases rq, hs]
    decide
  constructor
  case state => exact hi.state
  case live =>
    change ∀ p ∈ pointers f' s'.size, s'.live p = true
    rw [hi.pointers, hi.live]
    intro p hp
    rcases Multiset.mem_cons.mp hp with rfl | hp
    · exact ha.live
    · exact h.live p hp
  case time => exact hi.virtualTime.symm ▸ h.time
  case waits =>
    intro r hr
    obtain ⟨hne, hset⟩ := hback hr
    obtain ⟨p, hp⟩ := h.waits r hset
    have hpa : p ≠ a := by
      rintro rfl
      exact hne (h.apart r rq p hset hs hp.priv0 ha.priv0)
    refine ⟨p, hi.priv0.symm ▸ hp.priv0, hi.live.symm ▸ hp.live, ?_, ?_⟩
    · change 0 ≤ (s'.pool p).startTag
      rw [hi.pool, Function.update_of_ne hpa]
      exact hp.tag
    · change p ∉ pointers f' s'.size
      rw [hi.pointers, Multiset.mem_cons]
      exact not_or.mpr ⟨hpa, hp.out⟩
  case apart =>
    intro r r' p hr hr' hp hp'
    exact h.apart r r' p (hback hr).2 (hback hr').2 (hi.priv0 ▸ hp) (hi.priv0 ▸ hp')
  case phases =>
    intro r
    change Function.update w.phase rq .added r = .added ↔ some r ∈ queued s' f'
    rw [hqueued, Multiset.mem_cons, ← h.phases r]
    rcases eq_or_ne r rq with rfl | hr
    · simp
    · simp [hr]
  case nodup =>
    change (queued s' f').Nodup
    rw [hqueued, Multiset.nodup_cons]
    exact ⟨hnew, h.nodup⟩
  case tally =>
    change logged (w.addLog ++ [(w.owner rq, rq)]) = logged w.dispatchLog + queued s' f'
    rw [logged_append, hqueued, h.tally, Multiset.add_cons]

theorem rq_ne_none (h : HeapInv w f) {p : Addr} (hp : p ∈ pointers f w.elv.size) : (w.elv.pool p).rq ≠ none := by
  have hmem : (w.elv.pool p).rq ∈ queued w.elv f := Multiset.mem_map_of_mem _ (mem_contents.mpr ⟨p, hp, rfl⟩)
  have hlog : (w.elv.pool p).rq ∈ logged w.addLog := by
    rw [h.tally]
    exact Multiset.mem_add.mpr (.inr hmem)
  obtain ⟨q, -, hq⟩ := List.mem_map.mp (Multiset.mem_coe.mp hlog)
  exact hq ▸ Option.some_ne_none _

theorem root_mem {s : HeapArray X} (hpos : 0 < s.size) : f 0 ∈ pointers f s.size :=
  mem_pointers.mpr ⟨0, hpos, rfl⟩

theorem added_of_mem (h : HeapInv w f) {p : Addr} (hp : p ∈ pointers f w.elv.size) (hrq : (w.elv.pool p).rq = some rq) :
    w.phase rq = .added := by
  apply (h.phases rq).mpr
  rw [← hrq]
  exact Multiset.mem_map_of_mem _ (mem_contents.mpr ⟨p, hp, rfl⟩)

theorem rq_injective (h : HeapInv w f) {p q : Addr} (hp : p ∈ pointers f w.elv.size) (hq : q ∈ pointers f w.elv.size)
    (heq : (w.elv.pool p).rq = (w.elv.pool q).rq) : p = q := by
  have hnodup := h.nodup
  rw [queued, contents, Multiset.map_map] at hnodup
  exact Multiset.inj_on_of_nodup_map hnodup p hp q hq heq

/-- The root is removed and its request handed out. -/
theorem remove (h : HeapInv w f) (hr : Removed w.elv s' f f') (hrq : (w.elv.pool (f 0)).rq = some rq) :
    HeapInv (w.onDispatch s' (some rq)) f' := by
  have hqueued := queued_removed hr
  rw [hrq] at hqueued
  have hnodup := h.nodup
  rw [hqueued, Multiset.nodup_cons] at hnodup
  have hmem {p : Addr} (hp : p ∈ pointers f' s'.size) : p ∈ pointers f w.elv.size := by
    rw [hr.pointers]
    exact Multiset.mem_cons_of_mem hp
  have hback {r : Rq} (hr : (w.onDispatch s' (some rq)).phase r = .set) : w.phase r = .set :=
    (World.phase_of_update (by decide) hr).2
  constructor
  case state => exact hr.state
  case live =>
    intro p hp
    exact hr.live.symm ▸ h.live p (hmem hp)
  case time => exact hr.virtualTime.symm ▸ h.time
  case waits =>
    intro r hset
    obtain ⟨p, hp⟩ := h.waits r (hback hset)
    have hout : p ∉ pointers f' s'.size := fun hp' => hp.out (hmem hp')
    refine ⟨p, hr.priv0.symm ▸ hp.priv0, hr.live.symm ▸ hp.live, ?_, hout⟩
    change 0 ≤ (s'.pool p).startTag
    rw [hr.frame p hout]
    exact hp.tag
  case apart =>
    intro r r' p hset hset' hp hp'
    exact h.apart r r' p (hback hset) (hback hset') (hr.priv0 ▸ hp) (hr.priv0 ▸ hp')
  case phases =>
    intro r
    have hold := h.phases r
    rw [hqueued, Multiset.mem_cons] at hold
    change Function.update w.phase rq .dispatched r = .added ↔ some r ∈ queued s' f'
    rcases eq_or_ne r rq with rfl | hr'
    · rw [Function.update_self]
      exact ⟨fun hp => (by cases hp), fun hp => absurd hp hnodup.1⟩
    · rw [Function.update_of_ne hr', hold]
      simp [hr']
  case nodup => exact hnodup.2
  case tally =>
    change logged w.addLog = logged (w.dispatchLog ++ [(w.owner rq, rq)]) + queued s' f'
    rw [logged_append, h.tally, hqueued, Multiset.add_cons, Multiset.cons_add]

theorem pending_eq (h : HeapInv w f) : (w.elv.pending.map some : Multiset (Option Rq)) = queued w.elv f := by
  have hall : ∀ l : List Nat, (∀ j ∈ l, j < w.elv.size) →
      (l.filterMap fun j => (load w.elv.requests j).bind fun a => (w.elv.pool a).rq).map some =
        l.map fun j => (w.elv.pool (f j)).rq := by
    intro l hl
    induction l with
    | nil => rfl
    | cons j l ih =>
      have hj : j < w.elv.size := hl j (List.mem_cons_self ..)
      obtain ⟨rq, hrq⟩ := Option.ne_none_iff_exists'.mp (h.rq_ne_none (mem_pointers.mpr ⟨j, hj, rfl⟩))
      simp [h.state.load_lt hj, hrq, ih fun k hk => hl k (List.mem_cons_of_mem _ hk)]
  unfold HeapArray.pending queued contents pointers
  rw [hall _ fun j hj => List.mem_range.mp hj, Multiset.map_map, Multiset.map_map]
  rfl

theorem length_pending (h : HeapInv w f) : w.elv.pending.length = w.elv.size := by
  have hcard := congrArg Multiset.card h.pending_eq
  simpa [queued, contents] using hcard

theorem mem_pending (h : HeapInv w f) : rq ∈ w.elv.pending ↔ w.phase rq = .added := by
  rw [h.phases rq, ← h.pending_eq, Multiset.mem_coe]
  simp

theorem nodup_pending (h : HeapInv w f) : w.elv.pending.Nodup := by
  have hn := h.nodup
  rw [← h.pending_eq, Multiset.coe_nodup] at hn
  exact hn.of_map _

theorem perm_pending (h : HeapInv w f) :
    (w.addLog.map Prod.snd).Perm (w.dispatchLog.map Prod.snd ++ w.elv.pending) := by
  apply Multiset.coe_eq_coe.mp
  apply Multiset.map_injective (Option.some_injective Rq)
  have hlog (log : List (Pid × Rq)) : (log.map Prod.snd : Multiset Rq).map some = logged log := by
    rw [Multiset.map_coe, List.map_map]
    rfl
  rw [← Multiset.coe_add, Multiset.map_add, hlog, hlog, h.tally, ← h.pending_eq, Multiset.map_coe]

end HeapInv
end SsdScheduler.Alpha
