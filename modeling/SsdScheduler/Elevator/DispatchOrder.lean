import Mathlib.Data.Prod.Lex
import SsdScheduler.Elevator.Noop
import SsdScheduler.Elevator.Steps

/-!
# The order of the dispatch list

`elv_dispatch_sort` puts a request where a head that sweeps from `end_sector` to the last sector and goes on at
the first one comes past it, but never before a request that is started, that is a soft barrier or that is of
another kind. `Listed` says what one move does to the list.
-/

namespace SsdScheduler.Elevator

open Framework RequestQueue Relation SortedList

/-- Where the head comes past a request on its way from `boundary` on. -/
def scanKey (boundary : Nat) (r : Request) : Bool ×ₗ Nat := toLex (decide (r.pos < boundary), r.pos)

namespace Request

def kind (r : Request) : Nat × Bool := (r.op, r.write)

/-- No request is sorted in before this one. -/
def fixed (r : Request) : Bool := r.softbarrier || r.started

/-- Nothing differs that the order of the dispatch list depends on. -/
structure Alike (r r' : Request) : Prop where
  kind : r'.kind = r.kind
  pos : r'.pos = r.pos
  softbarrier : r'.softbarrier = r.softbarrier
  started : r'.started = r.started

theorem Alike.refl (r : Request) : r.Alike r := ⟨rfl, rfl, rfl, rfl⟩

theorem Alike.fixed {r r' : Request} (h : r.Alike r') : r'.fixed = r.fixed := by
  rw [Request.fixed, Request.fixed, h.softbarrier, h.started]

end Request

variable {σ α π Bio : Type} {e : ElevatorType σ α π} {k : BlkOps Bio} {s s₁ s' : Stack σ} {q : RequestQueue}
  {a : Option Rq} {rq x : Rq} {merging : Bool} {bio : Bio} {b b' : Nat}

/-- `scanKey` compares as the scan of `elv_dispatch_sort` does. -/
theorem scanKey_le {r r' : Request} : scanKey b r ≤ scanKey b r' ↔
    if r'.pos < b then r.pos < b → r.pos ≤ r'.pos else ¬ r.pos < b ∧ r.pos ≤ r'.pos := by
  unfold scanKey
  rw [Prod.Lex.toLex_le_toLex]
  by_cases h : r.pos < b <;> by_cases h' : r'.pos < b <;> simp [h, h']

theorem stopsAt_iff (r p : Request) :
    stopsAt b r p = true ↔ r.kind ≠ p.kind ∨ p.fixed = true ∨ scanKey b p ≤ scanKey b r := by
  rw [scanKey_le]
  unfold stopsAt Request.kind Request.fixed
  by_cases hop : r.op = p.op
  · by_cases hwrite : r.write = p.write
    · cases hf : p.softbarrier || p.started with
      | true => simp [hop, hwrite]
      | false =>
        by_cases hr : r.pos < b <;> by_cases hp : p.pos < b <;> simp [hop, hwrite, hr, hp, not_le.mpr, not_lt.mp]
    · simp [hop, hwrite]
  · simp [hop]

/-- What one move inside a call does to the dispatch list: nothing, or it puts one request into it. -/
inductive Listed (s s' : Stack σ) : Prop
  | same (hl : s'.queue.queueHead = s.queue.queueHead)
  | sorted {rq : Rq} (hnew : rq ∉ s.queue.queueHead)
      (hl : s'.queue.queueHead = tailInsert
        (fun a x => stopsAt s.queue.endSector (s'.queue.rqs a) (s'.queue.rqs x) = true) rq s.queue.queueHead)
  | first {rq : Rq} (hnew : rq ∉ s.queue.queueHead) (hl : s'.queue.queueHead = rq :: s.queue.queueHead)
      (hf : (s'.queue.rqs rq).softbarrier = true)
  | last {rq : Rq} (hnew : rq ∉ s.queue.queueHead) (hl : s'.queue.queueHead = s.queue.queueHead ++ [rq])
      (hf : (s'.queue.rqs rq).softbarrier = true)

/-- A move leaves the boundary and the requests in the list alone. -/
structure Lists (s s' : Stack σ) : Prop where
  listed : Listed s s'
  endSector : s'.queue.endSector = s.queue.endSector
  alike : ∀ x ∈ s.queue.queueHead, (s.queue.rqs x).Alike (s'.queue.rqs x)

theorem alike_update {f : Rq → Request} {r : Request} (h : (f rq).Alike r) (x : Rq) : (f x).Alike (Function.update f rq r x) := by
  rcases eq_or_ne x rq with rfl | hx
  · rw [Function.update_self]
    exact h
  · rw [Function.update_of_ne hx]
    exact .refl _

theorem RequestQueue.Swept.alike {q' : RequestQueue} (h : Swept k q q') (x : Rq) : (q.rqs x).Alike (q'.rqs x) := by
  rcases h.rqs x with hr | ⟨-, hr⟩
  · rw [hr]
    exact .refl _
  · rw [hr]
    exact ⟨rfl, rfl, rfl, rfl⟩

/-- A request that is not in the list may change. -/
theorem alike_of_notMem {r : Request} (hnew : rq ∉ s.queue.queueHead) (hx : x ∈ s.queue.queueHead) :
    (s.queue.rqs x).Alike (Function.update s.queue.rqs rq r x) := by
  have hne : x ≠ rq := by
    rintro rfl
    exact hnew hx
  rw [Function.update_of_ne hne]
  exact .refl _

theorem Shift.lists (h : Placed k s) (hs : Shift k a s s') : Lists s s' := by
  cases hs with
  | world hw => exact ⟨.same rfl, rfl, fun _ _ => .refl _⟩
  | swept hsw => exact ⟨.same hsw.lists.queueHead, hsw.lists.endSector, fun x _ => hsw.alike x⟩
  | @dispatched _ _ rq w hp hw =>
    have hnew : rq ∉ s.queue.queueHead := h.notMem_queued (by simp [hp])
    refine ⟨.sorted hnew ?_, forget_endSector, fun x hx => ?_⟩
    · show tailInsert _ rq (s.queue.forget rq).queueHead = _
      rw [forget_queueHead]
      apply tailInsert_congr
      intro x _
      show stopsAt (s.queue.forget rq).endSector _ _ = true ↔ _
      rw [forget_endSector]
      rfl
    · show (s.queue.rqs x).Alike ((s.queue.forget rq).rqs x)
      rw [forget_rqs]
      exact alike_of_notMem hnew hx
  | @front rq _ hp =>
    have hnew : rq ∉ s.queue.queueHead := h.notMem_queued (by simp [hp])
    exact ⟨.first hnew rfl (by simp [atFront]), rfl, fun x hx => alike_of_notMem hnew hx⟩
  | @arrive rq _ hp =>
    have hnew : rq ∉ s.queue.queueHead := h.notMem_queued (by simp [hp])
    exact ⟨.same rfl, rfl, fun x hx => alike_of_notMem hnew hx⟩
  | @back rq _ hp =>
    have hnew : rq ∉ s.queue.queueHead := h.notMem_queued (by simp [hp])
    exact ⟨.last hnew rfl ((h.located rq).flags.arriving hp).2, rfl, fun _ _ => .refl _⟩
  | @sortedIn rq _ q' w hp hpriv hq hw =>
    have hin := (sortIn_spec h.hash ((h.located rq).flags.held hp).hashed hq).1
    refine ⟨.same hin.queueHead, hin.endSector, fun x hx => ?_⟩
    show (s.queue.rqs x).Alike (q'.rqs x)
    rw [hin.rqs]
    exact alike_of_notMem (h.notMem_queued (by simp [hp])) hx
  | @absorbed _ _ _ rq next m hrq hnext hm habs _ =>
    refine ⟨.same habs.queueHead, habs.endSector, fun x hx => ?_⟩
    have hp := (h.located x).queued.mp hx
    have hxr : x ≠ rq := by
      rintro rfl
      simp [hp] at hrq
    have hxn : x ≠ next := by
      rintro rfl
      simp [hp] at hnext
    rw [habs.others x hxr hxn]
    exact .refl _

/-- The requests between two that are started or soft barriers, or of different kinds, lie in the order in which a
head that sweeps from the boundary on comes past them. -/
def InScanOrder (q : RequestQueue) : Prop :=
  InOrder (fun x => (q.rqs x).kind) (fun x => (q.rqs x).fixed = true) (fun x => scanKey q.endSector (q.rqs x)) q.queueHead

theorem Lists.fixed (h : Lists s s') (hx : x ∈ s.queue.queueHead) : (s'.queue.rqs x).fixed = (s.queue.rqs x).fixed :=
  (h.alike x hx).fixed

theorem scanKey_congr {r r' : Request} (h : r.Alike r') : scanKey b r' = scanKey b r := by
  rw [scanKey, scanKey, h.pos]

/-- Seen with what the requests are after the move, the list was in order before it. -/
theorem Lists.inOrder (h : Lists s s') (ho : InScanOrder s.queue) :
    InOrder (fun x => (s'.queue.rqs x).kind) (fun x => (s'.queue.rqs x).fixed = true)
      (fun x => scanKey s'.queue.endSector (s'.queue.rqs x)) s.queue.queueHead := by
  apply ho.imp
  · intro x hx
    exact (h.alike x hx).kind
  · intro x hx hf
    rwa [h.fixed hx]
  · intro x hx y hy _ _ hle
    rwa [h.endSector, scanKey_congr (h.alike x hx), scanKey_congr (h.alike y hy)]

/-- A move keeps the list in order. -/
theorem Lists.inScanOrder (h : Lists s s') (ho : InScanOrder s.queue) : InScanOrder s'.queue := by
  have hin := h.inOrder ho
  unfold InScanOrder
  cases h.listed with
  | same hl =>
    rw [hl]
    exact hin
  | @sorted rq hnew hl =>
    rw [hl]
    have hscan : tailInsert (fun a x => stopsAt s.queue.endSector (s'.queue.rqs a) (s'.queue.rqs x) = true) rq s.queue.queueHead =
        tailInsert (Stops (fun x => (s'.queue.rqs x).kind) (fun x => (s'.queue.rqs x).fixed = true)
          fun x => scanKey s'.queue.endSector (s'.queue.rqs x)) rq s.queue.queueHead := by
      apply tailInsert_congr
      intro x _
      rw [← h.endSector]
      exact stopsAt_iff ..
    rw [hscan]
    exact hin.tailInsert rq
  | first hnew hl hf =>
    rw [hl]
    exact hin.cons (by simp [Request.fixed, hf])
  | last hnew hl hf =>
    rw [hl]
    exact hin.concat (by simp [Request.fixed, hf])

theorem inScanOrder_lists (ho : InScanOrder s.queue) (hl : ReflTransGen Lists s s') : InScanOrder s'.queue := by
  induction hl with
  | refl => exact ho
  | tail _ hlast ih => exact hlast.inScanOrder ih

theorem lists_shifts (h : Placed k s) (hs : ReflTransGen (Shift k a) s s') : ReflTransGen Lists s s' := by
  have hboth : Placed k s' ∧ ReflTransGen Lists s s' := by
    induction hs with
    | refl => exact ⟨h, .refl⟩
    | tail _ hs ih => exact ⟨hs.placed ih.1, ih.2.tail (hs.lists ih.1)⟩
  exact hboth.2

/-- The driver takes or returns a request, or looks at one. -/
def Act.drives : Act Bio α π → Bool
  | .peek _ | .dequeue | .requeue _ _ => true
  | .getRequest _ _ _ _ | .addRequest _ _ _ _ | .mergeBio _ _ _ | .forbidMerge _ | .dispatch _ | .completed _ |
    .putRequest _ _ => false

theorem Rehashed.lists (h : Rehashed s s') : Lists s s' where
  listed := .same h.queueHead
  endSector := h.endSector
  alike x _ := by
    obtain ⟨b, hr⟩ := h.rqs x
    rw [hr]
    exact ⟨rfl, rfl, rfl, rfl⟩

theorem mergeBio_lists (hc : e.Contract merging) (h : Inv e k merging s) {accepted : Bool} {env : π}
    (hs : s.mergeBio e k bio accepted env = some s') : Lists s s' := by
  -- a request that waits is not in the list
  have hne {x y : Rq} (hx : x ∈ s.queue.queueHead) (hp : s.place y = .waiting) : x ≠ y := by
    rintro rfl
    rw [(h.located x).queued.mp hx] at hp
    cases hp
  have hgrown {q : RequestQueue} {rq x : Rq} (type : MergeType) (hq : Swept k s.queue q) (hp : s.place rq = .waiting)
      (hx : x ∈ s.queue.queueHead) : (s.queue.rqs x).Alike ((grown k bio s q rq type).queue.rqs x) := by
    have hmodify : (grown k bio s q rq type).queue.rqs x = q.rqs x := modify_of_ne (hne hx hp)
    rw [hmodify]
    exact hq.alike x
  obtain ⟨-, hjoined⟩ := mergeBio_spec hc h hs
  split at hjoined
  case isFalse => exact hjoined.lists
  case isTrue =>
    cases hjoined with
    | @added _ _ type hq hp hfits hr =>
      refine ⟨.same (hr.queueHead.trans hq.lists.queueHead), hr.endSector.trans hq.lists.endSector, fun x hx => ?_⟩
      obtain ⟨b, hb⟩ := hr.rqs x
      have halike := hgrown type hq hp hx
      rw [hb]
      exact ⟨halike.kind, halike.pos, halike.softbarrier, halike.started⟩
    | merged hq hp hfits hwc hwd hm habs =>
      refine ⟨.same (habs.queueHead.trans hq.lists.queueHead), habs.endSector.trans hq.lists.endSector, fun x hx => ?_⟩
      rw [habs.others x (hne hx hwc) (hne hx hwd)]
      exact hgrown _ hq hp hx

/-- What a call that is not the driver's does to the dispatch list. -/
theorem step_lists (hc : e.Contract merging) (h : Inv e k merging s) {act : Act Bio α π} (hd : act.drives = false)
    (hl : Stack.legal e s act) (hs : Stack.step e k s act = some s') : ReflTransGen Lists s s' := by
  cases act with
  | getRequest rq r pid alloc =>
    obtain ⟨-, w, rfl⟩ := getRequest_spec h hl.1 hl.2.1 hl.2.2 hs
    have hnew : rq ∉ s.queue.queueHead := h.notMem_queued (by simp [hl.1])
    exact .single ⟨.same rfl, rfl, fun x hx => alike_of_notMem hnew hx⟩
  | addRequest rq whr fuel env => exact lists_shifts h.toPlaced (elvAddRequest_spec hc h hl.1 hl.2 hs).1.shifts
  | mergeBio bio accepted env => exact .single (mergeBio_lists hc h hs)
  | forbidMerge rq =>
    obtain rfl := Option.some.inj hs
    have hp : s.place rq = .waiting := hl
    have hnew : rq ∉ s.queue.queueHead := h.notMem_queued (by simp [hp])
    exact .single ⟨.same rfl, rfl, fun x hx => alike_of_notMem hnew hx⟩
  | dispatch force =>
    obtain ⟨⟨o, s₁⟩, hd, rfl⟩ := Option.map_eq_some_iff.mp hs
    exact lists_shifts h.toPlaced (dispatchFn_spec (a := none) hc h hd).shifts
  | completed rq =>
    obtain ⟨-, w, rfl⟩ := completed_spec h hl hs
    have hend : (s.queue.countInFlight k rq (-1)).endSector = s.queue.endSector := by rw [countInFlight_eq]
    refine .single ⟨.same (countInFlight_queueHead (-1)), hend, fun x _ => ?_⟩
    show (s.queue.rqs x).Alike ((s.queue.countInFlight k rq (-1)).rqs x)
    rw [countInFlight_rqs]
    exact .refl _
  | putRequest rq env =>
    obtain ⟨-, -, w, rfl⟩ := h.toPlaced.freeRequest h.meets hl hs
    exact .single ⟨.same rfl, rfl, fun _ _ => .refl _⟩
  | peek | dequeue | requeue => cases hd

/-- A boundary that moves from `b` to `b'` goes past `p`. -/
def passes (b b' p : Nat) : Prop := if b ≤ b' then b ≤ p ∧ p < b' else b ≤ p ∨ p < b'

/-- Requests that the boundary does not go past keep their order. -/
theorem scanKey_le_of_not_passes {r r' : Request} (hr : ¬ passes b b' r.pos) (hr' : ¬ passes b b' r'.pos)
    (hle : scanKey b r ≤ scanKey b r') : scanKey b' r ≤ scanKey b' r' := by
  rw [scanKey_le] at hle ⊢
  unfold passes at hr hr'
  split_ifs at hr hr' hle ⊢ <;> omega

/-- A boundary at `b` would have gone past none of these requests, as far as others may be sorted around them. -/
def RequestQueue.clears (q : RequestQueue) (b : Nat) (l : List Rq) : Prop :=
  ∀ x ∈ l, (q.rqs x).fixed = false → ¬ passes q.endSector b (q.rqs x).pos

/-- The driver does not move the boundary past a request that may still be sorted around. -/
def Stack.clear (s : Stack σ) : Act Bio α π → Prop
  | .peek boundary => s.queue.clears (boundary.getD s.queue.endSector) s.queue.queueHead.tail
  | .requeue rq _ => s.queue.clears (barrierSector s.queue (s.queue.rqs rq)) s.queue.queueHead
  | .getRequest _ _ _ _ | .addRequest _ _ _ _ | .mergeBio _ _ _ | .forbidMerge _ | .dispatch _ | .dequeue |
    .completed _ | .putRequest _ _ => True

instance (b b' p : Nat) : Decidable (passes b b' p) := by
  unfold passes
  infer_instance

instance (q : RequestQueue) (b : Nat) (l : List Rq) : Decidable (q.clears b l) :=
  inferInstanceAs (Decidable (∀ x ∈ l, (q.rqs x).fixed = false → ¬ passes q.endSector b (q.rqs x).pos))

instance (s : Stack σ) : (act : Act Bio α π) → Decidable (s.clear act)
  | .peek boundary =>
    inferInstanceAs (Decidable (s.queue.clears (boundary.getD s.queue.endSector) s.queue.queueHead.tail))
  | .requeue rq _ => inferInstanceAs (Decidable (s.queue.clears (barrierSector s.queue (s.queue.rqs rq)) s.queue.queueHead))
  | .getRequest _ _ _ _ | .addRequest _ _ _ _ | .mergeBio _ _ _ | .forbidMerge _ | .dispatch _ | .dequeue |
    .completed _ | .putRequest _ _ => inferInstanceAs (Decidable True)

theorem inScanOrder_peeked {rest : List Rq} {r : Option Rq} (ho : InScanOrder s.queue) (hq : s.queue.queueHead = rq :: rest)
    (hclear : s.queue.clears b rest) :
    InScanOrder (peeked s rq b r).queue := by
  have hrq : ((peeked s rq b r).queue.rqs rq).fixed = true := by simp [peeked, Request.fixed, RequestQueue.modify]
  have hrqs (x : Rq) (hx : x ≠ rq) : (peeked s rq b r).queue.rqs x = s.queue.rqs x := Function.update_of_ne hx ..
  apply InOrder.imp ho
  · intro x _
    rcases eq_or_ne x rq with rfl | hx
    · simp [peeked, Request.kind, RequestQueue.modify]
    · rw [hrqs x hx]
  · intro x _ hf
    rcases eq_or_ne x rq with rfl | hx
    · exact hrq
    · rwa [hrqs x hx]
  · intro x hx y hy hfx hfy hle
    have hne {z : Rq} (hf : ¬ ((peeked s rq b r).queue.rqs z).fixed = true) : z ≠ rq := by
      rintro rfl
      exact hf hrq
    have hxrq := hne hfx
    have hyrq := hne hfy
    rw [hrqs x hxrq] at hfx ⊢
    rw [hrqs y hyrq] at hfy ⊢
    rw [hq] at hx hy
    apply scanKey_le_of_not_passes _ _ hle
    · exact hclear x ((List.mem_cons.mp hx).resolve_left hxrq) (by simpa using hfx)
    · exact hclear y ((List.mem_cons.mp hy).resolve_left hyrq) (by simpa using hfy)

theorem inScanOrder_returned {r : Option Rq} (ho : InScanOrder s.queue) (hnew : rq ∉ s.queue.queueHead)
    (hclear : s.queue.clears b s.queue.queueHead) :
    InScanOrder (returned k s rq b r).queue := by
  have hrqs (x : Rq) (hx : x ∈ s.queue.queueHead) : (returned k s rq b r).queue.rqs x = s.queue.rqs x := by
    apply Function.update_of_ne
    rintro rfl
    exact hnew hx
  apply InOrder.cons
  · apply InOrder.imp ho
    · intro x hx
      rw [hrqs x hx]
    · intro x hx hf
      rwa [hrqs x hx]
    · intro x hx y hy hfx hfy hle
      rw [hrqs x hx] at hfx ⊢
      rw [hrqs y hy] at hfy ⊢
      exact scanKey_le_of_not_passes (hclear x hx (by simpa using hfx)) (hclear y hy (by simpa using hfy)) hle
  · simp [returned, Request.fixed]

/-- Every call keeps the list in order. -/
theorem step_inScanOrder (hc : e.Contract merging) (h : Inv e k merging s) (ho : InScanOrder s.queue) {act : Act Bio α π}
    (hl : Stack.legal e s act) (hclear : s.clear act) (hs : Stack.step e k s act = some s') : InScanOrder s'.queue := by
  cases hd : act.drives with
  | false => exact inScanOrder_lists ho (step_lists hc h hd hl hs)
  | true =>
    cases act with
    | peek boundary =>
      obtain ⟨rq, rest, r, hq, rfl⟩ := peek_spec hs
      apply inScanOrder_peeked ho hq
      have hclear : s.queue.clears (boundary.getD s.queue.endSector) s.queue.queueHead.tail := hclear
      rwa [hq] at hclear
    | dequeue =>
      obtain ⟨rq, rest, hq, rfl⟩ := dequeue_spec hs
      have hend : (s.queue.countInFlight k rq 1).endSector = s.queue.endSector := by rw [countInFlight_eq]
      unfold InScanOrder at ho ⊢
      simp only [countInFlight_rqs, hend]
      rw [hq] at ho
      exact (List.isChain_cons.mp ho).2
    | requeue rq env =>
      obtain ⟨r, rfl⟩ := requeue_spec hs
      have hp : s.place rq = .driving := hl
      exact inScanOrder_returned ho (h.notMem_queued (by simp [hp])) hclear
    | getRequest | addRequest | mergeBio | forbidMerge | dispatch | completed | putRequest => cases hd

theorem inv_of_clear (hc : e.Contract merging) {nomerges noxmerges : Bool} (hq : merging = false → noxmerges = true)
    (h : ((Stack.machine e k).restrict Stack.clear).Reachable (Stack.init e nomerges noxmerges) s) :
    Inv e k merging s ∧ InScanOrder s.queue := by
  apply h.invariant _ ⟨.init e k hq, List.isChain_nil⟩
  intro u act o v hu hl hs
  obtain ⟨v', hv, he⟩ := Option.map_eq_some_iff.mp hs
  obtain rfl : v' = v := congrArg Prod.snd he
  exact ⟨hu.1.step hc hl.1 hv, step_inScanOrder hc hu.1 hu.2 hl.1 hl.2 hv⟩

/-- The requests that no barrier separates are in the order of one sweep, as long as the driver moves the boundary
past none of them. -/
theorem dispatch_list_swept (hc : e.Contract merging) {nomerges noxmerges : Bool} (hq : merging = false → noxmerges = true)
    (h : ((Stack.machine e k).restrict Stack.clear).Reachable (Stack.init e nomerges noxmerges) s) {l : List Rq}
    (hl : l <:+: s.queue.queueHead) (hf : ∀ x ∈ l, (s.queue.rqs x).fixed = false)
    (hkind : ∀ x ∈ l, ∀ y ∈ l, (s.queue.rqs x).kind = (s.queue.rqs y).kind) :
    Sorted (fun x => scanKey s.queue.endSector (s.queue.rqs x)) l :=
  (inv_of_clear hc hq h).2.sorted hl (fun x hx => by simp [hf x hx]) hkind

instance (s : Stack σ) (act : Act Bio α π) : Decidable (((Stack.machine e k).restrict Stack.clear).legal s act) :=
  inferInstanceAs (Decidable (Stack.legal e s act ∧ s.clear act))

/-- The boundary follows the first of three requests, and a fourth one lies before it. -/
theorem dispatch_list_swept_noop :
    ∃ u, ((Stack.machine Noop.elevator BlkOps.plain).restrict Stack.clear).Reachable (Stack.init Noop.elevator false false) u ∧
      u.queue.queueHead = [2, 1, 4] ∧ Sorted (fun x => scanKey u.queue.endSector (u.queue.rqs x)) [2, 1, 4] := by
  have hplays : ((Stack.machine Noop.elevator BlkOps.plain).restrict Stack.clear).Plays (Stack.init Noop.elevator false false)
      [.getRequest 1 (read 40) 7 (), .addRequest 1 .sort 9 fun _ => (), .getRequest 2 (read 16) 7 (),
        .addRequest 2 .sort 9 fun _ => (), .getRequest 3 (read 0) 7 (), .addRequest 3 .sort 9 fun _ => (), .dispatch false,
        .dispatch false, .dispatch false, .peek (some 8), .dequeue, .getRequest 4 (read 4) 7 (),
        .addRequest 4 .sort 9 fun _ => (), .dispatch false]
      (fun _ u => u.queue.queueHead = [2, 1, 4] ∧ (∀ x ∈ [2, 1, 4], (u.queue.rqs x).fixed = false) ∧
        ∀ x ∈ [2, 1, 4], ∀ y ∈ [2, 1, 4], (u.queue.rqs x).kind = (u.queue.rqs y).kind) := by decide
  obtain ⟨tr, u, hr, -, hl, hf, hkind⟩ := hplays.exists_run
  exact ⟨u, ⟨tr, hr⟩, hl, dispatch_list_swept Noop.contract (fun h => nomatch h) ⟨tr, hr⟩ (by simp [hl]) hf hkind⟩

end SsdScheduler.Elevator
