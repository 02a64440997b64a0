import SsdScheduler.Elevator.Noop
import SsdScheduler.Elevator.Steps
import SsdScheduler.Framework.Ledger

/-!
# Where the sectors are

A sector that is submitted, in a request or in a `bio` that is added to one, is in exactly one request that the
scheduler, the dispatch list or the driver has, until that request is completed: merging, dispatching, requeueing
and draining neither lose a sector nor make one twice.
-/

namespace SsdScheduler.Elevator

open Framework RequestQueue Relation

/-- The sectors from `pos` on, with the operation and the direction. -/
def span (op : Nat) (write : Bool) (pos sectors : Nat) : Multiset (Nat × Bool × Nat) :=
  (List.range' pos sectors).map fun i => (op, write, i)

def Request.span (r : Request) : Multiset (Nat × Bool × Nat) := Elevator.span r.op r.write r.pos r.sectors

/-- The places at which the elevator core answers for a request. -/
def Place.inside : Place → Bool
  | .waiting | .queued | .driving => true
  | .free | .held | .arriving | .ended => false

variable {σ α π Bio : Type} {e : ElevatorType σ α π} {k : BlkOps Bio} {s s₁ s' : Stack σ} {q : RequestQueue}
  {a : Option Rq} {rq next x : Rq} {m : Request} {merging : Bool} {bio : Bio}

/-- The sectors of all requests in the scheduler, in the dispatch list and with the driver. -/
def Stack.present (s : Stack σ) : Multiset (Nat × Bool × Nat) :=
  ((s.waiting ++ (s.queue.queueHead ++ s.driving)).map fun x => (s.queue.rqs x).span).sum

/-- What a call hands in. A `bio` that is not added to a request is not taken. -/
def handedIn (k : BlkOps Bio) (ev : Event (Stack σ) (Act Bio α π) Unit) : Multiset (Nat × Bool × Nat) :=
  match ev.call with
  | .addRequest rq _ _ _ => (ev.pre.queue.rqs rq).span
  | .mergeBio bio accepted _ =>
    if accepted && ev.pre.queue.takes k bio then span (k.op bio) (k.write bio) (k.sector bio) (k.sectors bio) else 0
  | _ => 0

/-- What a call completes. -/
def handedOut (ev : Event (Stack σ) (Act Bio α π) Unit) : Multiset (Nat × Bool × Nat) :=
  match ev.call with
  | .completed rq => (ev.pre.queue.rqs rq).span
  | _ => 0

theorem span_append (op : Nat) (write : Bool) (pos m n : Nat) :
    span op write pos m + span op write (pos + m) n = span op write pos (m + n) := by
  simp only [span, Multiset.coe_add, ← List.map_append, List.range'_append_1]

/-- A request that has taken in the one behind it. -/
theorem span_merged (hm : k.attemptReqMerge (s.queue.rqs rq) (s.queue.rqs next) = some m) :
    m.span = (s.queue.rqs rq).span + (s.queue.rqs next).span := by
  obtain ⟨hop, hwrite⟩ := k.merged_class hm
  have hadj : (s.queue.rqs rq).pos + (s.queue.rqs rq).sectors = (s.queue.rqs next).pos := k.merged_adjacent hm
  rw [k.merged_eq hm]
  simp only [Request.span, ← hop, ← hwrite, ← hadj, span_append]

/-- A request to which a `bio` has been added. -/
theorem span_grow {r : Request} {type : MergeType} (hf : Fits k bio r type) :
    (Stack.grow k bio type r).span = r.span + span (k.op bio) (k.write bio) (k.sector bio) (k.sectors bio) := by
  have hadj := hf.adjoins
  rw [← hf.op, ← hf.write]
  cases type with
  | no => exact hadj.elim
  | front =>
    have hadj : k.sector bio + k.sectors bio = r.pos := hadj
    rw [add_comm]
    simp only [Stack.grow, Request.span, ← hadj, span_append, Nat.add_comm r.sectors]
  | back =>
    have hadj : r.pos + r.sectors = k.sector bio := hadj
    simp only [Stack.grow, Request.span, ← hadj, span_append]

/-- The sectors of `x` if the elevator core answers for it, or is inserting it. -/
def share (a : Option Rq) (s : Stack σ) (x : Rq) : Multiset (Nat × Bool × Nat) :=
  if (s.place x).inside = true ∨ a = some x ∧ (s.place x = .held ∨ s.place x = .arriving) then (s.queue.rqs x).span else 0

theorem mem_of_inside (h : Arranged k s) (hp : (s.place x).inside = true) :
    x ∈ s.waiting ++ (s.queue.queueHead ++ s.driving) := by
  rw [List.mem_append, List.mem_append, (h.located x).waiting, (h.located x).queued, (h.located x).driving]
  cases hplace : s.place x <;> simp_all [Place.inside]

theorem share_support (h : Arranged k s) (a : Option Rq) : (share a s).support.Finite := by
  apply Set.Finite.subset (List.finite_toSet (a.toList ++ (s.waiting ++ (s.queue.queueHead ++ s.driving))))
  intro x hx
  simp only [Function.mem_support, share, ne_eq, ite_eq_right_iff, not_forall] at hx
  obtain ⟨hp | ⟨rfl, -⟩, -⟩ := hx
  · exact List.mem_append_right _ (mem_of_inside h hp)
  · exact List.mem_append_left _ (by simp)

/-- The requests in the lists are those the elevator core answers for. -/
theorem finsum_share (h : Arranged k s) : ∑ᶠ x, share none s x = s.present := by
  rw [finsum_eq_sum_map h.nodup]
  · unfold Stack.present
    congr 1
    apply List.map_congr_left
    intro x hx
    apply if_pos
    rw [List.mem_append, List.mem_append, (h.located x).waiting, (h.located x).queued, (h.located x).driving] at hx
    rcases hx with hp | hp | hp <;> simp [hp, Place.inside]
  · intro x hx
    simp only [share, reduceCtorEq, false_and, or_false, ne_eq, ite_eq_right_iff, not_forall] at hx
    exact mem_of_inside h hx.1

theorem share_congr (hp : s'.place x = s.place x) (hr : (s'.queue.rqs x).span = (s.queue.rqs x).span) :
    share a s' x = share a s x := by
  unfold share
  rw [hp, hr]

/-- A request that goes from one place to another, both of which count, or neither. -/
theorem finsum_share_moved {p : Place} (hp : s'.place = Function.update s.place rq p)
    (hr : ∀ x, (s'.queue.rqs x).span = (s.queue.rqs x).span)
    (hb : (s.place rq).inside = true ∨ a = some rq ∧ (s.place rq = .held ∨ s.place rq = .arriving) ↔
      p.inside = true ∨ a = some rq ∧ (p = .held ∨ p = .arriving)) :
    ∑ᶠ x, share a s' x = ∑ᶠ x, share a s x := by
  apply finsum_congr
  intro x
  rcases eq_or_ne x rq with rfl | hx
  · have hpx : s'.place x = p := by rw [hp, Function.update_self]
    unfold share
    rw [hpx, hr]
    exact if_congr hb.symm rfl rfl
  · exact share_congr (by rw [hp, Function.update_of_ne hx]) (hr x)

theorem span_update {f : Rq → Request} {r : Request} (hr : r.span = (f rq).span) (x : Rq) :
    (Function.update f rq r x).span = (f x).span := by
  rcases eq_or_ne x rq with rfl | hx
  · rw [Function.update_self, hr]
  · rw [Function.update_of_ne hx]

theorem span_swept {q' : RequestQueue} (h : Swept k q q') (x : Rq) : (q'.rqs x).span = (q.rqs x).span := by
  rcases h.rqs x with hr | ⟨-, hr⟩
  · rw [hr]
  · rw [hr]
    rfl

theorem Absorbed.span (h : Absorbed s s' rq next m) (hm : k.attemptReqMerge (s.queue.rqs rq) (s.queue.rqs next) = some m) :
    (s'.queue.rqs rq).span = (s.queue.rqs rq).span + (s.queue.rqs next).span := by
  rw [← span_merged hm, h.self]
  rfl

/-- One request takes over what another one has. -/
theorem finsum_share_absorbed (h : Arranged k s) (hrq : s.place rq = .waiting)
    (hnext : s.place next = .waiting ∨ a = some next ∧ s.place next = .held)
    (hm : k.attemptReqMerge (s.queue.rqs rq) (s.queue.rqs next) = some m) (habs : Absorbed s s' rq next m) :
    ∑ᶠ x, share a s' x = ∑ᶠ x, share a s x := by
  have hne : rq ≠ next := ne_of_merged hm
  have hsum : share a s' rq = share a s rq + share a s next := by
    have hp : s'.place rq = .waiting := by
      rw [habs.place, Function.update_of_ne hne]
      exact hrq
    have hn : (s.place next).inside = true ∨ a = some next ∧ (s.place next = .held ∨ s.place next = .arriving) := by
      rcases hnext with hn | ⟨ha, hn⟩
      · exact .inl (by rw [hn]; rfl)
      · exact .inr ⟨ha, .inl hn⟩
    have hin : Place.waiting.inside = true := rfl
    simp only [share, hp, hrq, hin, true_or, if_true]
    rw [if_pos hn, habs.span hm]
  have hgone : share a s' next = 0 := by
    apply if_neg
    simp [habs.place, Place.inside]
  have hf : (fun x => share a s' x) =
      Function.update (Function.update (share a s) rq (share a s rq + share a s next)) next 0 := by
    funext x
    by_cases hxn : x = next
    · rw [hxn, hgone, Function.update_self]
    · rw [Function.update_of_ne hxn]
      by_cases hxr : x = rq
      · rw [hxr, hsum, Function.update_self]
      · rw [Function.update_of_ne hxr]
        apply share_congr
        · rw [habs.place, Function.update_of_ne hxn]
        · rw [habs.others x hxr hxn]
  have hfin : (Function.update (share a s) rq (share a s rq + share a s next)).support.Finite := by
    apply ((share_support h a).union (Set.finite_singleton rq)).subset
    intro x hx
    by_cases hxr : x = rq
    · exact .inr hxr
    · rw [Function.mem_support, Function.update_of_ne hxr] at hx
      exact .inl hx
  have hfirst := finsum_update (share_support h a) rq (share a s rq + share a s next)
  have hsecond := finsum_update hfin next 0
  rw [Function.update_of_ne hne.symm, add_zero] at hsecond
  rw [hf]
  apply add_right_cancel (b := share a s rq + share a s next)
  rw [← hfirst, ← hsecond]
  abel

/-- No move inside a call loses a sector or makes one twice. -/
theorem Shift.finsum_share (h : Placed k s) (hs : Shift k a s s') : ∑ᶠ x, share a s' x = ∑ᶠ x, share a s x := by
  cases hs with
  | world hw => rfl
  | swept hsw => exact finsum_congr fun x => share_congr rfl (span_swept hsw x)
  | @dispatched _ _ rq w hp hw =>
    apply finsum_share_moved rfl
    · intro x
      show ((s.queue.forget rq).rqs x).span = _
      rw [forget_rqs]
      apply span_update
      rfl
    · simp [hp, Place.inside]
  | front hp =>
    apply finsum_share_moved rfl
    · exact span_update rfl
    · simp [hp, Place.inside]
  | arrive hp =>
    apply finsum_share_moved rfl
    · exact span_update rfl
    · simp [hp, Place.inside]
  | back hp =>
    apply finsum_share_moved rfl
    · exact fun _ => rfl
    · simp [hp, Place.inside]
  | @sortedIn rq _ q' w hp hpriv hq hw =>
    have hin := (sortIn_spec h.hash ((h.located rq).flags.held hp).hashed hq).1
    apply finsum_share_moved rfl
    · intro x
      show (q'.rqs x).span = _
      rw [hin.rqs]
      apply span_update
      rfl
    · simp [hp, Place.inside]
  | absorbed hrq hnext hm habs _ => exact finsum_share_absorbed h.toArranged hrq hnext hm habs

theorem finsum_share_shifts (h : Placed k s) (hs : ReflTransGen (Shift k a) s s') :
    Placed k s' ∧ ∑ᶠ x, share a s' x = ∑ᶠ x, share a s x := by
  induction hs with
  | refl => exact ⟨h, rfl⟩
  | tail _ hs ih => exact ⟨hs.placed ih.1, (hs.finsum_share ih.1).trans ih.2⟩

/-- Outside a call nothing is on its way, and the sectors are in the lists. -/
theorem present_eq (h : Arranged k s) (hx : s.place x ≠ .held) (hx' : s.place x ≠ .arriving) :
    s.present = ∑ᶠ y, share (some x) s y := by
  rw [← finsum_share h]
  apply finsum_congr
  intro y
  apply if_congr _ rfl rfl
  rcases eq_or_ne y x with rfl | hy
  · simp [hx, hx']
  · simp [hy.symm]

/-- A request that only changes places at which it counts, or only such at which it does not. -/
theorem present_congr (h : Arranged k s) (h' : Arranged k s') (hin : ∀ x, (s'.place x).inside = (s.place x).inside)
    (hr : ∀ x, (s.place x).inside = true → (s'.queue.rqs x).span = (s.queue.rqs x).span) : s'.present = s.present := by
  rw [← finsum_share h, ← finsum_share h']
  apply finsum_congr
  intro x
  unfold share
  simp only [reduceCtorEq, false_and, or_false, hin x]
  split
  case isTrue hx => exact hr x hx
  case isFalse => rfl

theorem addRequest_present (hc : e.Contract merging) (h : Inv e k merging s) {whr : Insertion} {fuel : Nat} {env : Rq → π}
    (hrq : s.place rq = .held) (hwhr : whr ≠ .requeue) (hs : s.elvAddRequest e k rq whr fuel env = some s') :
    s'.present = s.present + (s.queue.rqs rq).span := by
  obtain ⟨hdoes, hheld, harriving⟩ := elvAddRequest_spec hc h hrq hwhr hs
  have hshare : share none s rq = 0 := by
    apply if_neg
    simp [hrq, Place.inside]
  have hf : (fun x => share (some rq) s x) = Function.update (share none s) rq (s.queue.rqs rq).span := by
    funext x
    by_cases hx : x = rq
    · rw [hx, Function.update_self]
      apply if_pos
      simp [hrq]
    · rw [Function.update_of_ne hx]
      apply if_congr _ rfl rfl
      simp [Ne.symm hx]
  have hupdate := finsum_update (share_support h.toArranged none) rq (s.queue.rqs rq).span
  rw [present_eq hdoes.inv.toArranged hheld harriving, (finsum_share_shifts h.toPlaced hdoes.shifts).2, hf,
    ← finsum_share h.toArranged, ← hupdate, hshare, add_zero]

/-- A request that grows by a `bio`. -/
theorem grown_present (h : Inv e k merging s) (hq : Swept k s.queue q) {type : MergeType} (hp : s.place rq = .waiting)
    (hf : Fits k bio (q.rqs rq) type) : (grown k bio s q rq type).present =
      s.present + span (k.op bio) (k.write bio) (k.sector bio) (k.sectors bio) := by
  have hshare : share none s rq = (s.queue.rqs rq).span := by
    apply if_pos
    simp [hp, Place.inside]
  have hg : (fun x => share none (grown k bio s q rq type) x) = Function.update (share none s) rq
      ((s.queue.rqs rq).span + span (k.op bio) (k.write bio) (k.sector bio) (k.sectors bio)) := by
    funext x
    by_cases hx : x = rq
    · rw [hx, Function.update_self]
      have hin : share none (grown k bio s q rq type) rq = (Stack.grow k bio type (q.rqs rq)).span := by
        have hplace : ((grown k bio s q rq type).place rq).inside = true := by simp [grown, hp, Place.inside]
        simp only [share, hplace, true_or, if_true]
        rw [grown, modify_self]
      rw [hin, span_grow hf, span_swept hq]
    · rw [Function.update_of_ne hx]
      have hplace : (grown k bio s q rq type).place x = s.place x := rfl
      apply share_congr hplace
      show ((q.modify rq _).rqs x).span = _
      rw [modify_of_ne hx, span_swept hq]
  have hupdate := finsum_update (share_support h.toArranged none) rq
    ((s.queue.rqs rq).span + span (k.op bio) (k.write bio) (k.sector bio) (k.sectors bio))
  rw [hshare] at hupdate
  rw [← finsum_share (h.toPlaced.grown bio hq hp type).1, ← finsum_share h.toArranged, hg]
  apply add_right_cancel (b := (s.queue.rqs rq).span)
  rw [hupdate]
  abel

theorem Rehashed.present (h : Rehashed s s') : s'.present = s.present := by
  unfold Stack.present
  rw [h.waiting, h.queueHead, h.driving]
  congr 1
  apply List.map_congr_left
  intro x _
  obtain ⟨b, hr⟩ := h.rqs x
  rw [hr]
  rfl

theorem mergeBio_present (hc : e.Contract merging) (h : Inv e k merging s) {accepted : Bool} {env : π}
    (hs : s.mergeBio e k bio accepted env = some s') : s'.present = s.present +
      if (accepted && s.queue.takes k bio) = true then span (k.op bio) (k.write bio) (k.sector bio) (k.sectors bio) else 0 := by
  obtain ⟨hinv, hjoined⟩ := mergeBio_spec hc h hs
  split
  case isFalse ht =>
    rw [if_neg ht] at hjoined
    rw [hjoined.present, add_zero]
  case isTrue ht =>
    rw [if_pos ht] at hjoined
    cases hjoined with
    | added hq hp hfits hr => rw [hr.present, grown_present h hq hp hfits]
    | @merged q rq c d type m hq hp hfits hwc hwd hm habs =>
      have hgrown := (h.toPlaced.grown bio hq hp type).1
      rw [← finsum_share hinv.toArranged, finsum_share_absorbed hgrown hwc (.inl hwd) hm habs, finsum_share hgrown,
        grown_present h hq hp hfits]

/-- A request that leaves the elevator core. -/
theorem completed_present (h : Inv e k merging s) (hp : s.place rq = .driving)
    (hs : s.elvCompletedRequest e k rq = some s') : s'.present + (s.queue.rqs rq).span = s.present := by
  obtain ⟨hinv, w, rfl⟩ := completed_spec h hp hs
  have hshare : share none s rq = (s.queue.rqs rq).span := by
    apply if_pos
    simp [hp, Place.inside]
  rw [← finsum_share hinv.toArranged, ← finsum_share h.toArranged]
  have hf : (fun x => share none { s.put rq .ended with
      world := w, queue := s.queue.countInFlight k rq (-1), driving := s.driving.erase rq } x) =
      Function.update (share none s) rq 0 := by
    funext x
    by_cases hx : x = rq
    · rw [hx, Function.update_self]
      apply if_neg
      simp [Stack.put, Place.inside]
    · rw [Function.update_of_ne hx]
      apply share_congr
      · exact Function.update_of_ne hx ..
      · show ((s.queue.countInFlight k rq (-1)).rqs x).span = _
        rw [countInFlight_rqs]
  have hupdate := finsum_update (share_support h.toArranged none) rq 0
  rw [hf, ← hshare, hupdate, add_zero]

/-- The sectors of every call. -/
theorem step_present (hc : e.Contract merging) (h : Inv e k merging s) {act : Act Bio α π} (hl : Stack.legal e s act)
    (hs : Stack.step e k s act = some s') :
    s'.present + handedOut (⟨s, act, (), s'⟩ : Event (Stack σ) (Act Bio α π) Unit) = s.present + handedIn k ⟨s, act, (), s'⟩ := by
  have hinv := h.step hc hl hs
  cases act with
  | getRequest rq r pid alloc =>
    obtain ⟨-, w, rfl⟩ := getRequest_spec h hl.1 hl.2.1 hl.2.2 hs
    simp only [handedOut, handedIn, add_zero]
    apply present_congr h.toArranged hinv.toArranged
    · intro x
      rcases eq_or_ne x rq with rfl | hx
      · simp [Stack.put, hl.1, Place.inside]
      · simp [Stack.put, hx]
    · intro x hin
      have hx : x ≠ rq := by
        rintro rfl
        simp [hl.1, Place.inside] at hin
      rw [modify_of_ne hx]
  | addRequest rq whr fuel env =>
    simp only [handedOut, handedIn, add_zero]
    exact addRequest_present hc h hl.1 hl.2 hs
  | mergeBio bio accepted env =>
    simp only [handedOut, handedIn, add_zero]
    exact mergeBio_present hc h hs
  | forbidMerge rq =>
    obtain rfl := Option.some.inj hs
    simp only [handedOut, handedIn, add_zero]
    apply present_congr h.toArranged hinv.toArranged (fun _ => rfl)
    intro x _
    apply span_update
    rfl
  | dispatch force =>
    obtain ⟨⟨o, s₁⟩, hd, rfl⟩ := Option.map_eq_some_iff.mp hs
    simp only [handedOut, handedIn, add_zero]
    have hdoes := dispatchFn_spec (a := none) hc h hd
    rw [← finsum_share hdoes.inv.toArranged, (finsum_share_shifts h.toPlaced hdoes.shifts).2, finsum_share h.toArranged]
  | peek boundary =>
    obtain ⟨rq, rest, r, hq, rfl⟩ := peek_spec hs
    simp only [handedOut, handedIn, add_zero]
    apply present_congr h.toArranged hinv.toArranged (fun _ => rfl)
    intro x _
    apply span_update
    rfl
  | dequeue =>
    obtain ⟨rq, rest, hq, rfl⟩ := dequeue_spec hs
    simp only [handedOut, handedIn, add_zero]
    apply present_congr h.toArranged hinv.toArranged
    · intro x
      rcases eq_or_ne x rq with rfl | hx
      · have hp := (h.located x).queued.mp (by simp [hq])
        simp [Stack.put, hp, Place.inside]
      · simp [Stack.put, hx]
    · intro x _
      show ((s.queue.countInFlight k rq 1).rqs x).span = _
      rw [countInFlight_rqs]
  | requeue rq env =>
    obtain ⟨r, rfl⟩ := requeue_spec hs
    simp only [handedOut, handedIn, add_zero]
    have hp : s.place rq = .driving := hl
    apply present_congr h.toArranged hinv.toArranged
    · intro x
      rcases eq_or_ne x rq with rfl | hx
      · simp [returned, Stack.put, hp, Place.inside]
      · simp [returned, Stack.put, hx]
    · intro x _
      apply span_update
      rfl
  | completed rq =>
    simp only [handedOut, handedIn, add_zero]
    exact completed_present h hl hs
  | putRequest rq env =>
    obtain ⟨-, -, w, rfl⟩ := h.toPlaced.freeRequest h.meets hl hs
    simp only [handedOut, handedIn, add_zero]
    apply present_congr h.toArranged hinv.toArranged
    · intro x
      rcases eq_or_ne x rq with rfl | hx
      · rcases hl with hp | hp <;> simp [Stack.put, hp, Place.inside]
      · simp [Stack.put, hx]
    · exact fun x _ => rfl

/-- What was handed in along a run is in the queues, with the driver, or completed. -/
theorem sectors_conserved (hc : e.Contract merging) {nomerges noxmerges : Bool} (hq : merging = false → noxmerges = true)
    {tr : List (Event (Stack σ) (Act Bio α π) Unit)} (h : (Stack.machine e k).Run (Stack.init e nomerges noxmerges) tr s) :
    s.present + (tr.map handedOut).sum = (tr.map (handedIn k)).sum := by
  have hbalance : s.present + (tr.map handedOut).sum =
      (Stack.init e nomerges noxmerges).present + (tr.map (handedIn k)).sum := by
    apply h.balance (I := Inv e k merging) _ (.init e k hq)
    intro ev hinv hl hs
    obtain ⟨s', hs', he⟩ := Option.map_eq_some_iff.mp hs
    obtain rfl : s' = ev.post := congrArg Prod.snd he
    exact ⟨hinv.step hc hl hs', step_present hc hinv hl hs'⟩
  rwa [show (Stack.init e nomerges noxmerges).present = 0 from rfl, zero_add] at hbalance

/-- Two requests and a `bio` become one request, which is completed. -/
theorem sectors_conserved_noop :
    ∃ tr u, (Stack.machine Noop.elevator BlkOps.plain).Run (Stack.init Noop.elevator false false) tr u ∧
      u.place 1 = .ended ∧ u.place 2 = .free ∧ u.present + (tr.map handedOut).sum = (tr.map (handedIn BlkOps.plain)).sum := by
  have hplays : (Stack.machine Noop.elevator BlkOps.plain).Plays (Stack.init Noop.elevator false false)
      [.getRequest 1 (read 0) 7 (), .addRequest 1 .sort 9 fun _ => (), .getRequest 2 (read 8) 7 (),
        .addRequest 2 .sortMerge 9 fun _ => (), .mergeBio ⟨16, 4, 0, false⟩ true (), .dispatch false, .peek none, .dequeue,
        .completed 1] (fun _ u => u.place 1 = .ended ∧ u.place 2 = .free) := by decide
  obtain ⟨tr, u, hr, -, hend, hfree⟩ := hplays.exists_run
  exact ⟨tr, u, hr, hend, hfree, sectors_conserved Noop.contract (fun h => nomatch h) hr⟩

end SsdScheduler.Elevator
