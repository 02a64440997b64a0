import SsdScheduler.BlockLayer
import SsdScheduler.Framework.TailInsert

/-!
# The request queue of `elevator_experiment/elevator.c`

The elevator core keeps the requests a scheduler has handed out in the dispatch list `q->queue_head`, and the
requests a scheduler still holds in a hash table under the sector behind their last one, where it looks for a
request to which another can be appended. `BUG_ON` is `none`.
-/

namespace SsdScheduler.Elevator

open Framework

/-- What the elevator core reads and writes of a `struct request`: `blk_rq_pos`, `blk_rq_sectors`, `req_op`,
`rq_data_dir`, `rq_is_sync`, whether `cmd_type` is `REQ_TYPE_FS`, and the `REQ_` flags. -/
structure Request where
  pos : Nat
  sectors : Nat
  op : Nat
  write : Bool
  isSync : Bool
  fs : Bool
  elvpriv : Bool
  nomerge : Bool
  softbarrier : Bool
  started : Bool
  sorted : Bool
  hashed : Bool
deriving DecidableEq, Repr

namespace Request

/-- `rq_end_sector`, which is also `rq_hash_key`. -/
def endSector (r : Request) : Nat := r.pos + r.sectors

/-- A request as `get_request` initialises it: the elevator core has set no flag yet. -/
structure Fresh (r : Request) : Prop where
  softbarrier : r.softbarrier = false
  started : r.started = false
  sorted : r.sorted = false
  hashed : r.hashed = false

instance (r : Request) : Decidable r.Fresh :=
  decidable_of_iff (r.softbarrier = false ∧ r.started = false ∧ r.sorted = false ∧ r.hashed = false)
    ⟨fun ⟨h, h', h'', h'''⟩ => ⟨h, h', h'', h'''⟩, fun h => ⟨h.softbarrier, h.started, h.sorted, h.hashed⟩⟩

/-- What `rq_mergeable` looks at: the type, the operation and the flags that forbid merging. -/
structure SameKind (r r' : Request) : Prop where
  fs : r.fs = r'.fs
  op : r.op = r'.op
  nomerge : r.nomerge = r'.nomerge
  softbarrier : r.softbarrier = r'.softbarrier
  started : r.started = r'.started

end Request

/-- `ELEVATOR_NO_MERGE`, `ELEVATOR_FRONT_MERGE`, `ELEVATOR_BACK_MERGE`. -/
inductive MergeType
  | no | front | back
deriving DecidableEq, Repr

/-- The decisions of the block layer that the elevator core asks for: `rq_mergeable`, `blk_account_rq`, the
request that `blk_attempt_req_merge` makes of two, `bio_mergeable`, `blk_rq_merge_ok`, `blk_try_merge`, the
place and the kind of a `bio` and the hash function of `linux/hashtable.h`, with what is documented of them: a
merge appends the second request to the first where both are mergeable, adjacent and of one kind. -/
structure BlkOps (Bio : Type) where
  mergeable : Request → Bool
  account : Request → Bool
  attemptReqMerge : Request → Request → Option Request
  bioMergeable : Bio → Bool
  rqMergeOk : Request → Bio → Bool
  tryMerge : Request → Bio → MergeType
  sector : Bio → Nat
  sectors : Bio → Nat
  op : Bio → Nat
  write : Bio → Bool
  bucket : Nat → Nat
  mergeable_congr : ∀ {r r' : Request}, r.SameKind r' → mergeable r = mergeable r'
  mergeable_nomerge : ∀ {r}, r.nomerge = true → mergeable r = false
  account_iff : ∀ r, account r = true ↔ r.started = true ∧ r.fs = true
  merged_eq : ∀ {r next m}, attemptReqMerge r next = some m → m = { r with sectors := r.sectors + next.sectors }
  merged_adjacent : ∀ {r next m}, attemptReqMerge r next = some m → r.endSector = next.pos
  merged_sectors : ∀ {r next m}, attemptReqMerge r next = some m → 0 < r.sectors ∧ 0 < next.sectors
  merged_class : ∀ {r next m}, attemptReqMerge r next = some m → r.op = next.op ∧ r.write = next.write
  merged_mergeable : ∀ {r next m}, attemptReqMerge r next = some m → mergeable r = true ∧ mergeable next = true
  rqMergeOk_class : ∀ {r bio}, rqMergeOk r bio = true → r.op = op bio ∧ r.write = write bio
  tryMerge_front : ∀ {r bio}, tryMerge r bio = .front → sector bio + sectors bio = r.pos
  tryMerge_back : ∀ {r bio}, tryMerge r bio = .back → r.endSector = sector bio

/-- A `bio` of which only the sectors, the operation and the direction are known. -/
structure PlainBio where
  sector : Nat
  sectors : Nat
  op : Nat
  write : Bool
deriving DecidableEq, Repr

/-- `rq_mergeable` as `linux/blkdev.h` documents it, every operation being one that may be merged. -/
def plainMergeable (r : Request) : Bool := r.fs && !r.nomerge && !r.softbarrier && !r.started

/-- A read of eight sectors with elevator data. -/
def read (pos : Nat) : Request := ⟨pos, 8, 0, false, true, true, true, false, false, false, false, false⟩

/-- The decisions on a device without limits. -/
def BlkOps.plain : BlkOps PlainBio where
  mergeable := plainMergeable
  account r := r.started && r.fs
  attemptReqMerge r next :=
    if plainMergeable r && plainMergeable next && r.op = next.op && r.write = next.write && r.endSector = next.pos &&
      0 < r.sectors && 0 < next.sectors then
      some { r with sectors := r.sectors + next.sectors }
    else none
  bioMergeable _ := true
  rqMergeOk r bio := plainMergeable r && r.op = bio.op && r.write = bio.write
  tryMerge r bio :=
    if r.endSector = bio.sector then .back else if bio.sector + bio.sectors = r.pos then .front else .no
  sector := PlainBio.sector
  sectors := PlainBio.sectors
  op := PlainBio.op
  write := PlainBio.write
  bucket n := n % 64
  mergeable_congr h := by simp [plainMergeable, h.fs, h.nomerge, h.softbarrier, h.started]
  mergeable_nomerge h := by simp [plainMergeable, h]
  account_iff r := by simp
  merged_eq h := by simp_all
  merged_adjacent h := by simp_all
  merged_sectors h := by simp_all
  merged_class h := by simp_all
  merged_mergeable h := by simp_all
  rqMergeOk_class h := by simp_all
  tryMerge_front h := by
    split at h
    · cases h
    · simp_all
  tryMerge_back h := by
    split at h
    · assumption
    · split at h <;> cases h

/-- `struct request_queue` with the hash table of its `elevator_queue` and the requests themselves. -/
structure RequestQueue where
  rqs : Rq → Request
  queueHead : List Rq
  lastMerge : Option Rq
  endSector : Nat
  boundaryRq : Option Rq
  nrSorted : Int
  inFlight : Bool → Int
  hash : Nat → List Rq
  nomerges : Bool
  noxmerges : Bool

namespace RequestQueue

variable {Bio : Type} (k : BlkOps Bio) (q : RequestQueue) (rq : Rq)

/-- Change the request `rq`. -/
def modify (f : Request → Request) : RequestQueue := { q with rqs := Function.update q.rqs rq (f (q.rqs rq)) }

/-- `__elv_rqhash_del`. -/
def rqhashUnlink : RequestQueue :=
  { q.modify rq fun r => { r with hashed := false } with hash := fun b => (q.hash b).erase rq }

def elvRqhashDel : RequestQueue := if (q.rqs rq).hashed then q.rqhashUnlink rq else q

/-- `hash_add` and the flag. -/
def rqhashLink : RequestQueue :=
  let b := k.bucket (q.rqs rq).endSector
  { q.modify rq fun r => { r with hashed := true } with hash := Function.update q.hash b (rq :: q.hash b) }

def elvRqhashAdd : Option RequestQueue := if (q.rqs rq).hashed then none else some (q.rqhashLink k rq)

def elvRqhashReposition : Option RequestQueue := (q.rqhashUnlink rq).elvRqhashAdd k rq

/-- The loop of `elv_rqhash_find` over a bucket. -/
def rqhashScan (offset : Nat) : List Rq → RequestQueue → Option (Option Rq × RequestQueue)
  | [], q => some (none, q)
  | rq :: bucket, q =>
    if !(q.rqs rq).hashed then none
    else if !k.mergeable (q.rqs rq) then rqhashScan offset bucket (q.rqhashUnlink rq)
    else if (q.rqs rq).endSector = offset then some (some rq, q)
    else rqhashScan offset bucket q

def elvRqhashFind (offset : Nat) : Option (Option Rq × RequestQueue) :=
  rqhashScan k offset (q.hash (k.bucket offset)) q

/-- The scan of `elv_dispatch_sort` stops at `pos`. -/
def stopsAt (boundary : Nat) (rq pos : Request) : Bool :=
  if rq.op ≠ pos.op then true
  else if rq.write ≠ pos.write then true
  else if pos.softbarrier || pos.started then true
  else if rq.pos ≥ boundary then
    if pos.pos < boundary then false else rq.pos ≥ pos.pos
  else if pos.pos ≥ boundary then true
  else rq.pos ≥ pos.pos

/-- What `elv_dispatch_sort` begins with. -/
def forget : RequestQueue :=
  let q := { q with lastMerge := if q.lastMerge = some rq then none else q.lastMerge }
  let q := q.elvRqhashDel rq
  { q with nrSorted := q.nrSorted - 1 }

def elvDispatchSort : RequestQueue :=
  let q := q.forget rq
  { q with queueHead :=
      tailInsert (fun a x => stopsAt q.endSector (q.rqs a) (q.rqs x) = true) rq q.queueHead }

/-- `elv_merge` where the scheduler has no `elevator_merge_fn`: the request to which the `bio` can be added, and
at which end. -/
def elvMerge (bio : Bio) : Option (Option (Rq × MergeType) × RequestQueue) :=
  if q.nomerges || !k.bioMergeable bio then some (none, q)
  else
    match q.lastMerge.filter fun rq => k.rqMergeOk (q.rqs rq) bio && k.tryMerge (q.rqs rq) bio ≠ .no with
    | some rq => some (some (rq, k.tryMerge (q.rqs rq) bio), q)
    | none =>
      if q.noxmerges then some (none, q)
      else do
        let (found, q) ← q.elvRqhashFind k (k.sector bio)
        match found.filter fun rq => k.rqMergeOk (q.rqs rq) bio with
        | some rq => some (some (rq, .back), q)
        | none => some (none, q)

/-- There is a request to which the `bio` can be added. -/
def takes (bio : Bio) : Bool :=
  match q.elvMerge k bio with
  | some (some _, _) => true
  | _ => false

def elvMergedRequest (type : MergeType) : Option RequestQueue := do
  let q ← if type = .back then q.elvRqhashReposition k rq else some q
  some { q with lastMerge := some rq }

/-- The branches of `__elv_add_request` that leave the scheduler alone. -/
def atFront : RequestQueue :=
  let q := q.modify rq fun r => { r with softbarrier := true }
  { q with queueHead := rq :: q.queueHead }

def atBack : RequestQueue := { q with queueHead := q.queueHead ++ [rq] }

/-- What `__elv_add_request` does to the boundary before it looks at the insertion point. -/
def noteBarrier : RequestQueue :=
  if (q.rqs rq).softbarrier && (q.rqs rq).fs then
    { q with endSector := (q.rqs rq).endSector, boundaryRq := some rq }
  else q

def markSorted : RequestQueue :=
  let q := q.modify rq fun r => { r with sorted := true }
  { q with nrSorted := q.nrSorted + 1 }

/-- `ELEVATOR_INSERT_SORT` before the scheduler is called. -/
def sortIn : Option RequestQueue :=
  if !(q.rqs rq).fs then none
  else
    let q := q.markSorted rq
    if k.mergeable (q.rqs rq) then do
      let q ← q.elvRqhashAdd k rq
      some { q with lastMerge := q.lastMerge.orElse fun _ => some rq }
    else some q

/-- Count `rq` in or out of `q->in_flight[]`, if `blk_account_rq` says so. -/
def countInFlight (n : Int) : RequestQueue :=
  let i := (q.rqs rq).isSync
  if k.account (q.rqs rq) then { q with inFlight := Function.update q.inFlight i (q.inFlight i + n) } else q

end RequestQueue
end SsdScheduler.Elevator
