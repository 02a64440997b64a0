import SsdScheduler.Elevator.RequestQueue

/-!
# The hash table of the elevator core

A request is in the hash table exactly while it carries `REQ_HASHED`, under the sector behind its last one.
Between a change of the request and `elv_rqhash_reposition` it may be in another bucket than its own.
-/

namespace SsdScheduler.Elevator.RequestQueue

open Framework

variable {Bio : Type} {k : BlkOps Bio} {q q' q'' : RequestQueue} {rq x : Rq} {f : Request → Request}

section Modify

@[simp] theorem modify_self : (q.modify rq f).rqs rq = f (q.rqs rq) := Function.update_self ..

theorem modify_of_ne (h : x ≠ rq) : (q.modify rq f).rqs x = q.rqs x := Function.update_of_ne h ..

@[simp] theorem modify_queueHead : (q.modify rq f).queueHead = q.queueHead := rfl
@[simp] theorem modify_lastMerge : (q.modify rq f).lastMerge = q.lastMerge := rfl
@[simp] theorem modify_endSector : (q.modify rq f).endSector = q.endSector := rfl
@[simp] theorem modify_nrSorted : (q.modify rq f).nrSorted = q.nrSorted := rfl
@[simp] theorem modify_inFlight : (q.modify rq f).inFlight = q.inFlight := rfl
@[simp] theorem modify_hash : (q.modify rq f).hash = q.hash := rfl
@[simp] theorem modify_nomerges : (q.modify rq f).nomerges = q.nomerges := rfl
@[simp] theorem modify_noxmerges : (q.modify rq f).noxmerges = q.noxmerges := rfl

end Modify

/-- Everything but the requests and the hash table is the same. -/
structure SameLists (q q' : RequestQueue) : Prop where
  queueHead : q'.queueHead = q.queueHead
  lastMerge : q'.lastMerge = q.lastMerge
  endSector : q'.endSector = q.endSector
  boundaryRq : q'.boundaryRq = q.boundaryRq
  nrSorted : q'.nrSorted = q.nrSorted
  inFlight : q'.inFlight = q.inFlight
  nomerges : q'.nomerges = q.nomerges
  noxmerges : q'.noxmerges = q.noxmerges

theorem SameLists.refl (q : RequestQueue) : SameLists q q := ⟨rfl, rfl, rfl, rfl, rfl, rfl, rfl, rfl⟩

theorem SameLists.trans (h : SameLists q q') (h' : SameLists q' q'') : SameLists q q'' where
  queueHead := h'.queueHead.trans h.queueHead
  lastMerge := h'.lastMerge.trans h.lastMerge
  endSector := h'.endSector.trans h.endSector
  boundaryRq := h'.boundaryRq.trans h.boundaryRq
  nrSorted := h'.nrSorted.trans h.nrSorted
  inFlight := h'.inFlight.trans h.inFlight
  nomerges := h'.nomerges.trans h.nomerges
  noxmerges := h'.noxmerges.trans h.noxmerges

theorem sameLists_modify : SameLists q (q.modify rq f) := ⟨rfl, rfl, rfl, rfl, rfl, rfl, rfl, rfl⟩

theorem sameLists_rqhashUnlink : SameLists q (q.rqhashUnlink rq) := ⟨rfl, rfl, rfl, rfl, rfl, rfl, rfl, rfl⟩

theorem sameLists_elvRqhashDel (q : RequestQueue) (rq : Rq) : SameLists q (q.elvRqhashDel rq) := by
  unfold elvRqhashDel
  split
  · exact sameLists_rqhashUnlink
  · exact .refl q

/-- The hash table holds the hashed requests, each under its own key; of `rq` nothing is said. -/
structure HashExcept (k : BlkOps Bio) (q : RequestQueue) (rq : Rq) : Prop where
  nodup : ∀ b, (q.hash b).Nodup
  mem : ∀ b x, x ≠ rq → (x ∈ q.hash b ↔ (q.rqs x).hashed = true ∧ b = k.bucket (q.rqs x).endSector)

structure HashOk (k : BlkOps Bio) (q : RequestQueue) : Prop where
  nodup : ∀ b, (q.hash b).Nodup
  mem : ∀ b x, x ∈ q.hash b ↔ (q.rqs x).hashed = true ∧ b = k.bucket (q.rqs x).endSector

theorem HashOk.except (h : HashOk k q) (rq : Rq) : HashExcept k q rq := ⟨h.nodup, fun b x _ => h.mem b x⟩

theorem HashExcept.modify (h : HashExcept k q rq) (f : Request → Request) : HashExcept k (q.modify rq f) rq where
  nodup := h.nodup
  mem b x hx := by
    rw [modify_of_ne hx]
    exact h.mem b x hx

theorem HashOk.modify (h : HashOk k q) (rq : Rq) (f : Request → Request) (hf : (f (q.rqs rq)).hashed = (q.rqs rq).hashed)
    (he : (f (q.rqs rq)).endSector = (q.rqs rq).endSector) : HashOk k (q.modify rq f) where
  nodup := h.nodup
  mem b x := by
    rcases eq_or_ne x rq with rfl | hx
    · rw [modify_self, hf, he]
      exact h.mem b x
    · rw [modify_of_ne hx]
      exact h.mem b x

/-- A request that is not hashed may change in any way that does not hash it. -/
theorem HashOk.modify_of_not_hashed (h : HashOk k q) (hrq : (q.rqs rq).hashed = false)
    (hf : (f (q.rqs rq)).hashed = false) : HashOk k (q.modify rq f) where
  nodup := h.nodup
  mem b x := by
    rcases eq_or_ne x rq with rfl | hx
    · rw [modify_self, hf, modify_hash, h.mem b x, hrq]
      simp
    · rw [modify_of_ne hx]
      exact h.mem b x

theorem rqhashUnlink_self : (q.rqhashUnlink rq).rqs rq = { q.rqs rq with hashed := false } :=
  Function.update_self ..

theorem rqhashUnlink_of_ne (h : x ≠ rq) : (q.rqhashUnlink rq).rqs x = q.rqs x := Function.update_of_ne h ..

/-- Wherever the node was linked, it is gone. -/
theorem HashExcept.unlink (h : HashExcept k q rq) : HashOk k (q.rqhashUnlink rq) where
  nodup b := (h.nodup b).erase rq
  mem b x := by
    show x ∈ (q.hash b).erase rq ↔ _
    rcases eq_or_ne x rq with rfl | hx
    · simp [rqhashUnlink_self, (h.nodup b).mem_erase_iff]
    · rw [rqhashUnlink_of_ne hx, List.mem_erase_of_ne hx]
      exact h.mem b x hx

theorem elvRqhashDel_self : (q.elvRqhashDel rq).rqs rq = { q.rqs rq with hashed := false } := by
  unfold elvRqhashDel
  split
  case isTrue => exact rqhashUnlink_self
  case isFalse h =>
    have hh : false = (q.rqs rq).hashed := (Bool.eq_false_of_not_eq_true h).symm
    rw [hh]

theorem elvRqhashDel_of_ne (h : x ≠ rq) : (q.elvRqhashDel rq).rqs x = q.rqs x := by
  unfold elvRqhashDel
  split
  · exact rqhashUnlink_of_ne h
  · rfl

theorem elvRqhashDel_rqs : (q.elvRqhashDel rq).rqs = Function.update q.rqs rq { q.rqs rq with hashed := false } := by
  funext x
  rcases eq_or_ne x rq with rfl | hx
  · rw [Function.update_self, elvRqhashDel_self]
  · rw [Function.update_of_ne hx, elvRqhashDel_of_ne hx]

theorem HashOk.del (h : HashOk k q) (rq : Rq) : HashOk k (q.elvRqhashDel rq) := by
  unfold elvRqhashDel
  split
  · exact (h.except rq).unlink
  · exact h

theorem rqhashLink_self : (q.rqhashLink k rq).rqs rq = { q.rqs rq with hashed := true } := Function.update_self ..

theorem rqhashLink_of_ne (h : x ≠ rq) : (q.rqhashLink k rq).rqs x = q.rqs x := Function.update_of_ne h ..

theorem sameLists_rqhashLink : SameLists q (q.rqhashLink k rq) := ⟨rfl, rfl, rfl, rfl, rfl, rfl, rfl, rfl⟩

/-- A request that is not hashed goes under its key. -/
theorem HashOk.link (h : HashOk k q) (hrq : (q.rqs rq).hashed = false) : HashOk k (q.rqhashLink k rq) where
  nodup b := by
    show (Function.update q.hash _ _ b).Nodup
    rcases eq_or_ne b (k.bucket (q.rqs rq).endSector) with rfl | hb
    · rw [Function.update_self]
      refine List.nodup_cons.mpr ⟨fun hm => ?_, h.nodup _⟩
      simp [((h.mem _ rq).mp hm).1] at hrq
    · rw [Function.update_of_ne hb]
      exact h.nodup b
  mem b x := by
    show x ∈ Function.update q.hash _ _ b ↔ _
    rcases eq_or_ne x rq with rfl | hx
    · rw [rqhashLink_self]
      rcases eq_or_ne b (k.bucket (q.rqs x).endSector) with rfl | hb
      · simp [Request.endSector]
      · rw [Function.update_of_ne hb, h.mem b x]
        simpa [hrq, Request.endSector] using hb
    · rw [rqhashLink_of_ne hx, ← h.mem b x]
      rcases eq_or_ne b (k.bucket (q.rqs rq).endSector) with rfl | hb
      · simp [hx]
      · rw [Function.update_of_ne hb]

theorem elvRqhashAdd_eq (hrq : (q.rqs rq).hashed = false) : q.elvRqhashAdd k rq = some (q.rqhashLink k rq) := by
  simp [elvRqhashAdd, hrq]

/-- The queue after `elv_rqhash_reposition`. -/
def relinked (k : BlkOps Bio) (q : RequestQueue) (rq : Rq) : RequestQueue := (q.rqhashUnlink rq).rqhashLink k rq

theorem elvRqhashReposition_eq : q.elvRqhashReposition k rq = some (relinked k q rq) := by
  simp [elvRqhashReposition, elvRqhashAdd, rqhashUnlink_self, relinked]

theorem relinked_self : (relinked k q rq).rqs rq = { q.rqs rq with hashed := true } := by
  rw [relinked, rqhashLink_self, rqhashUnlink_self]

theorem relinked_of_ne (h : x ≠ rq) : (relinked k q rq).rqs x = q.rqs x := by
  rw [relinked, rqhashLink_of_ne h, rqhashUnlink_of_ne h]

theorem relinked_rqs : (relinked k q rq).rqs = Function.update q.rqs rq { q.rqs rq with hashed := true } := by
  funext x
  rcases eq_or_ne x rq with rfl | hx
  · rw [Function.update_self, relinked_self]
  · rw [Function.update_of_ne hx, relinked_of_ne hx]

theorem sameLists_relinked : SameLists q (relinked k q rq) := sameLists_rqhashUnlink.trans sameLists_rqhashLink

theorem HashExcept.relinked (h : HashExcept k q rq) : HashOk k (relinked k q rq) :=
  h.unlink.link (by rw [rqhashUnlink_self])

/-- `q'` is `q` after requests that are not mergeable left the hash table. -/
structure Swept (k : BlkOps Bio) (q q' : RequestQueue) : Prop where
  ok : HashOk k q'
  lists : SameLists q q'
  rqs : ∀ x, q'.rqs x = q.rqs x ∨ k.mergeable (q.rqs x) = false ∧ q'.rqs x = { q.rqs x with hashed := false }

theorem Swept.refl (h : HashOk k q) : Swept k q q := ⟨h, .refl q, fun _ => .inl rfl⟩

theorem mergeable_hashed (r : Request) (b : Bool) : k.mergeable { r with hashed := b } = k.mergeable r :=
  k.mergeable_congr ⟨rfl, rfl, rfl, rfl, rfl⟩

theorem Swept.trans (h : Swept k q q') (h' : Swept k q' q'') : Swept k q q'' where
  ok := h'.ok
  lists := h.lists.trans h'.lists
  rqs x := by
    rcases h.rqs x with hx | ⟨hm, hx⟩
    · rw [← hx]
      exact h'.rqs x
    · right
      refine ⟨hm, ?_⟩
      rcases h'.rqs x with hx' | ⟨-, hx'⟩
      · rw [hx', hx]
      · rw [hx', hx]

theorem Swept.unlink (h : HashOk k q) (hm : k.mergeable (q.rqs rq) = false) : Swept k q (q.rqhashUnlink rq) where
  ok := (h.except rq).unlink
  lists := sameLists_rqhashUnlink
  rqs x := by
    rcases eq_or_ne x rq with rfl | hx
    · exact .inr ⟨hm, rqhashUnlink_self⟩
    · exact .inl (rqhashUnlink_of_ne hx)

/-- What is left of the requests the sweep has touched: they are where they were. -/
theorem Swept.eq_of_hashed (h : Swept k q q') (hx : (q'.rqs x).hashed = true) : q'.rqs x = q.rqs x := by
  rcases h.rqs x with he | ⟨-, he⟩
  · exact he
  · rw [he] at hx
    cases hx

/-- The result of `elv_rqhash_find`: a mergeable request that ends at the sector, if a hashed one does. -/
structure Found (k : BlkOps Bio) (q : RequestQueue) (offset : Nat) (found : Option Rq) (q' : RequestQueue) : Prop where
  swept : Swept k q q'
  sound : ∀ rq ∈ found, (q'.rqs rq).hashed = true ∧ k.mergeable (q'.rqs rq) = true ∧ (q'.rqs rq).endSector = offset
  complete : found = none →
    ∀ x, (q.rqs x).hashed = true → k.mergeable (q.rqs x) = true → (q.rqs x).endSector ≠ offset

/-- The walk over what is left of a bucket, all of it still linked. -/
theorem rqhashScan_spec {b : Nat} {l : List Rq} (offset : Nat) (h : HashOk k q) (hl : l.Nodup) (hb : ∀ x ∈ l, x ∈ q.hash b) :
    ∃ found q', rqhashScan k offset l q = some (found, q') ∧ Swept k q q' ∧
      (∀ rq ∈ found, (q'.rqs rq).hashed = true ∧ k.mergeable (q'.rqs rq) = true ∧ (q'.rqs rq).endSector = offset) ∧
      (found = none → ∀ x ∈ l, k.mergeable (q.rqs x) = true → (q.rqs x).endSector ≠ offset) := by
  induction l generalizing q with
  | nil => exact ⟨none, q, rfl, .refl h, by simp, by simp⟩
  | cons rq l ih =>
    obtain ⟨hrq, hl⟩ := List.nodup_cons.mp hl
    obtain ⟨hh, -⟩ := (h.mem b rq).mp (hb rq (by simp))
    by_cases hm : k.mergeable (q.rqs rq)
    · by_cases he : (q.rqs rq).endSector = offset
      · refine ⟨some rq, q, by simp [rqhashScan, hh, hm, he], .refl h, ?_, by simp⟩
        intro x hx
        obtain rfl : rq = x := by simpa using hx
        exact ⟨hh, hm, he⟩
      · obtain ⟨found, q', hs, hsw, hsound, hcomp⟩ := ih h hl fun x hx => hb x (by simp [hx])
        refine ⟨found, q', by simpa [rqhashScan, hh, hm, he] using hs, hsw, hsound, fun hn x hx => ?_⟩
        rcases List.mem_cons.mp hx with rfl | hx
        · exact fun _ => he
        · exact hcomp hn x hx
    · -- the request is unlinked, and those behind it stay linked
      rw [Bool.not_eq_true] at hm
      have hunl := Swept.unlink h hm
      have hin : ∀ x ∈ l, x ∈ (q.rqhashUnlink rq).hash b := by
        intro x hx
        have hne : x ≠ rq := fun he => hrq (he ▸ hx)
        exact (List.mem_erase_of_ne hne).mpr (hb x (by simp [hx]))
      obtain ⟨found, q', hs, hsw, hsound, hcomp⟩ := ih hunl.ok hl hin
      refine ⟨found, q', by simpa [rqhashScan, hh, hm] using hs, hunl.trans hsw, hsound, fun hn x hx hmx => ?_⟩
      rcases List.mem_cons.mp hx with rfl | hx
      · simp [hm] at hmx
      · have hne : x ≠ rq := fun he => hrq (he ▸ hx)
        have := hcomp hn x hx
        rw [rqhashUnlink_of_ne hne] at this
        exact this hmx

theorem HashOk.find (h : HashOk k q) (offset : Nat) :
    ∃ found q', q.elvRqhashFind k offset = some (found, q') ∧ Found k q offset found q' := by
  obtain ⟨found, q', hs, hsw, hsound, hcomp⟩ := rqhashScan_spec offset h (h.nodup (k.bucket offset)) fun _ hx => hx
  refine ⟨found, q', hs, hsw, hsound, fun hn x hx hm he => ?_⟩
  exact hcomp hn x ((h.mem _ x).mpr ⟨hx, by rw [he]⟩) hm he

end SsdScheduler.Elevator.RequestQueue
