import SsdScheduler.BlockLayer
import SsdScheduler.Framework.PointerQueue

/-!
# One heap for all processes

The schedulers of `ssd_scheduler_alpha` keep the records of all pending requests in one array of
pointers, `requests[]`, ordered as a heap by `start_tag`. Their `sfq_set_request` is the same text
up to one field of the record; `sfq_add_request` and `sfq_dispatch` insert a record and remove the
root in the same words and differ in when they call `krealloc`.
-/

namespace SsdScheduler.Alpha

open Framework Framework.Heap

def requestLength : Int := 100
def requestWeight : Int := 1

/-- A record obtained from `kmalloc`. -/
abbrev Addr := Nat

/-- `struct sfq_request`; `own` stands for the fields that one version has and the others have
not. -/
structure SfqRequest (X : Type) where
  startTag : Int
  finishTag : Int
  pid : Pid
  rq : Option Rq
  own : X
deriving DecidableEq, Repr

/-- The part of `struct sfq_data` that all versions have, with the memory behind its pointers: the
contents of the records, which of them are allocated, and the `elv.priv[0]` pointers of the
requests. -/
structure HeapArray (X : Type) where
  virtualTime : Int
  size : Nat
  requests : Block Addr
  pool : Addr → SfqRequest X
  live : Addr → Bool
  priv0 : Rq → Option Addr

/-- The memory that `kmalloc` returns, and what it happens to contain. -/
structure SetEnv (X : Type) where
  sfqr : Addr
  junk : SfqRequest X

variable {X : Type}

/-- The array as `sfq_init_queue` leaves it. -/
def HeapArray.initial (own : X) : HeapArray X where
  virtualTime := 0
  size := 0
  requests := alloc 1
  pool := fun _ => ⟨0, 0, 0, none, own⟩
  live := fun _ => false
  priv0 := fun _ => none

/-- The virtual time once `sfq_set_request` has looked at the last record of the heap. -/
def latestVirtualTime (s : HeapArray X) : Option Int :=
  if 0 < s.size then do
    let root ← load s.requests 0
    if 0 ≤ (s.pool root).startTag then
      let last ← load s.requests (s.size - 1)
      let latestFinishTag := (s.pool last).finishTag
      some (if s.virtualTime < latestFinishTag then latestFinishTag else s.virtualTime)
    else some s.virtualTime
  else some s.virtualTime

/-- `sfq_set_request`, where `own` is what it writes to the other fields. `wrap` is what the `int`
addition makes of a sum. -/
def setRequest (wrap : Int → Int) (own : X) (s : HeapArray X) (rq : Rq) (pid : Pid) (env : SetEnv X) :
    Option (HeapArray X) := do
  let sfqr := { env.junk with pid := pid, startTag := s.virtualTime, own := own }
  let s := { s with pool := Function.update s.pool env.sfqr sfqr, live := Function.update s.live env.sfqr true }
  let virtualTime ← latestVirtualTime s
  let sfqr := { sfqr with
    startTag := virtualTime, finishTag := wrap (virtualTime + requestLength / requestWeight) }
  some { s with
    virtualTime := virtualTime, pool := Function.update s.pool env.sfqr sfqr,
    priv0 := Function.update s.priv0 rq (some env.sfqr) }

/-- The record `sfqr` of `rq` joins the heap; `requests` is the array after `krealloc`. -/
def insert (s : HeapArray X) (requests : Block Addr) (rq : Rq) (sfqr : Addr) : Option (HeapArray X) := do
  let (requests, i) ←
    siftUp SfqRequest.startTag s.pool (s.pool sfqr).startTag s.size requests s.size
  let pool := Function.update s.pool sfqr { s.pool sfqr with rq := some rq }
  let requests ← store requests i sfqr
  some { s with size := s.size + 1, requests := requests, pool := pool }

/-- The pointer at the root leaves the heap. If at least `least` records remain, `shrink` is what
becomes of the array, and `heapify` runs. -/
def removeRoot (least : Nat) (shrink : Block Addr → Nat → Block Addr) (s : HeapArray X) :
    Option (Addr × HeapArray X) := do
  let sfqr ← load s.requests 0
  let size := s.size - 1
  let last ← load s.requests size
  let requests ← store s.requests 0 last
  if least ≤ size then
    let requests := shrink requests size
    let pool ← heapify SfqRequest.startTag requests size size s.pool 0
    some (sfqr, { s with size := size, requests := requests, pool := pool })
  else some (sfqr, { s with size := size, requests := requests })

/-- The requests whose records are in the heap. -/
def HeapArray.pending (s : HeapArray X) : List Rq :=
  (List.range s.size).filterMap fun j => (load s.requests j).bind fun a => (s.pool a).rq

/-- `requests[]` is a heap of the records `f 0, ..., f (size - 1)` in a block large enough for
them. -/
structure HeapState (s : HeapArray X) (f : Nat → Addr) : Prop where
  heap : HeapAt SfqRequest.startTag s.requests s.pool s.size f
  block : max s.size 1 ≤ s.requests.length

variable {s s' : HeapArray X} {f : Nat → Addr} {rq : Rq} {a : Addr}

theorem HeapState.load_lt (h : HeapState s f) {j : Nat} (hj : j < s.size) : load s.requests j = some (f j) :=
  h.heap.slots j hj

/-- The virtual time never goes back. -/
theorem latestVirtualTime_le (h : HeapState s f) :
    ∃ virtualTime, latestVirtualTime s = some virtualTime ∧ s.virtualTime ≤ virtualTime := by
  unfold latestVirtualTime
  rcases Nat.eq_zero_or_pos s.size with h0 | hpos
  · exact ⟨s.virtualTime, by simp [h0], le_rfl⟩
  · simp only [if_pos hpos, h.load_lt hpos, h.load_lt (Nat.sub_lt hpos Nat.one_pos), Option.bind_eq_bind,
      Option.bind_some]
    by_cases hroot : 0 ≤ (s.pool (f 0)).startTag
    · rw [if_pos hroot]
      refine ⟨_, rfl, ?_⟩
      split
      case isTrue hlt => exact hlt.le
      case isFalse => exact le_rfl
    · exact ⟨s.virtualTime, if_neg hroot, le_rfl⟩

/-- The array after a request was set: `virtualTime` is the start tag of the new record. -/
def prepared (wrap : Int → Int) (own : X) (s : HeapArray X) (rq : Rq) (pid : Pid) (env : SetEnv X)
    (virtualTime : Int) : HeapArray X :=
  { s with
    virtualTime := virtualTime
    pool := Function.update s.pool env.sfqr { env.junk with
      pid := pid, startTag := virtualTime, finishTag := wrap (virtualTime + requestLength / requestWeight), own := own }
    live := Function.update s.live env.sfqr true
    priv0 := Function.update s.priv0 rq (some env.sfqr) }

theorem ne_of_live {p : Addr} (hfree : s.live a = false) (hp : s.live p = true) : p ≠ a := by
  rintro rfl
  simp [hp] at hfree

section Prepared

variable {wrap : Int → Int} {own : X} {pid : Pid} {env : SetEnv X} {virtualTime : Int}

theorem prepared_pool_of_ne {p : Addr} (hp : p ≠ env.sfqr) :
    (prepared wrap own s rq pid env virtualTime).pool p = s.pool p := Function.update_of_ne hp _ _

theorem prepared_priv0_self : (prepared wrap own s rq pid env virtualTime).priv0 rq = some env.sfqr :=
  Function.update_self ..

theorem prepared_priv0_of_ne {r : Rq} (hr : r ≠ rq) :
    (prepared wrap own s rq pid env virtualTime).priv0 r = s.priv0 r := Function.update_of_ne hr _ _

/-- Two requests lead to different records, where they did before and neither led to the new one. -/
theorem prepared_apart {r r' : Rq} {p : Addr} (hfresh : r ≠ rq → s.priv0 r = some p → p ≠ env.sfqr)
    (hfresh' : r' ≠ rq → s.priv0 r' = some p → p ≠ env.sfqr)
    (hapart : r ≠ rq → r' ≠ rq → s.priv0 r = some p → s.priv0 r' = some p → r = r')
    (hp : (prepared wrap own s rq pid env virtualTime).priv0 r = some p)
    (hp' : (prepared wrap own s rq pid env virtualTime).priv0 r' = some p) : r = r' := by
  have hself {q : Rq} (hq : q = rq) (hp : (prepared wrap own s rq pid env virtualTime).priv0 q = some p) :
      p = env.sfqr := Option.some.inj (hp.symm.trans (hq ▸ prepared_priv0_self))
  have hother {q : Rq} (hq : q ≠ rq) (hp : (prepared wrap own s rq pid env virtualTime).priv0 q = some p) :
      s.priv0 q = some p := (prepared_priv0_of_ne hq).symm.trans hp
  by_cases hr : r = rq
  · by_cases hr' : r' = rq
    · rw [hr, hr']
    · exact absurd (hself hr hp) (hfresh' hr' (hother hr' hp'))
  · by_cases hr' : r' = rq
    · exact absurd (hself hr' hp') (hfresh hr (hother hr hp))
    · exact hapart hr hr' (hother hr hp) (hother hr' hp')

theorem prepared_live_self : (prepared wrap own s rq pid env virtualTime).live env.sfqr = true :=
  Function.update_self ..

theorem prepared_live_of_live {p : Addr} (hp : s.live p = true) :
    (prepared wrap own s rq pid env virtualTime).live p = true := by
  rcases eq_or_ne p env.sfqr with rfl | hne
  · exact prepared_live_self
  · exact (Function.update_of_ne hne _ _).trans hp

end Prepared

/-- The new record does not change what `sfq_set_request` finds in the heap. -/
theorem setRequest_latest (wrap : Int → Int) (own : X) (rq : Rq) (pid : Pid) {env : SetEnv X} (h : HeapState s f)
    (hfresh : env.sfqr ∉ pointers f s.size) {virtualTime : Int} (hlatest : latestVirtualTime s = some virtualTime) :
    setRequest wrap own s rq pid env = some (prepared wrap own s rq pid env virtualTime) := by
  have hsame : latestVirtualTime { s with
      pool := Function.update s.pool env.sfqr { env.junk with pid := pid, startTag := s.virtualTime, own := own }
      live := Function.update s.live env.sfqr true } = latestVirtualTime s := by
    unfold latestVirtualTime
    rcases Nat.eq_zero_or_pos s.size with h0 | hpos
    · simp only [h0, lt_irrefl, if_false]
    · have hlast := Nat.sub_lt hpos Nat.one_pos
      have hne {j : Nat} (hj : j < s.size) : f j ≠ env.sfqr :=
        ne_of_mem_of_not_mem (mem_pointers.mpr ⟨j, hj, rfl⟩) hfresh
      simp only [if_pos hpos, h.load_lt hpos, h.load_lt hlast, Option.bind_eq_bind, Option.bind_some,
        Function.update_of_ne (hne hpos), Function.update_of_ne (hne hlast)]
  simp only [setRequest, hsame, hlatest, Option.bind_eq_bind, Option.bind_some, Function.update_idem]
  rfl

theorem setRequest_eq (wrap : Int → Int) (own : X) (rq : Rq) (pid : Pid) {env : SetEnv X} (h : HeapState s f)
    (hfresh : env.sfqr ∉ pointers f s.size) :
    ∃ virtualTime, setRequest wrap own s rq pid env = some (prepared wrap own s rq pid env virtualTime) ∧
      s.virtualTime ≤ virtualTime := by
  obtain ⟨virtualTime, hlatest, hle⟩ := latestVirtualTime_le h
  exact ⟨virtualTime, setRequest_latest wrap own rq pid h hfresh hlatest, hle⟩

/-- What inserting the record `a` of `rq` does to the array. -/
structure Inserted (s s' : HeapArray X) (f f' : Nat → Addr) (rq : Rq) (a : Addr) : Prop where
  state : HeapState s' f'
  size : s'.size = s.size + 1
  pool : s'.pool = Function.update s.pool a { s.pool a with rq := some rq }
  live : s'.live = s.live
  priv0 : s'.priv0 = s.priv0
  virtualTime : s'.virtualTime = s.virtualTime
  pointers : pointers f' s'.size = a ::ₘ Heap.pointers f s.size

theorem insert_eq (rq : Rq) (h : HeapState s f) {b : Block Addr} (hlen : s.size < b.length)
    (hload : ∀ j < s.size, load b j = load s.requests j) (hout : a ∉ pointers f s.size) :
    ∃ s' f', insert s b rq a = some s' ∧ Inserted s s' f f' rq a := by
  generalize hpool : Function.update s.pool a { s.pool a with rq := some rq } = pool
  have hkey : ∀ p, (s.pool p).startTag = (pool p).startTag := by
    intro p
    rcases eq_or_ne p a with rfl | hp
    · rw [← hpool, Function.update_self]
    · rw [← hpool, Function.update_of_ne hp]
  have hheap : HeapAt SfqRequest.startTag b pool s.size f :=
    (h.heap.block_congr hload).congr fun p _ => (hkey p).symm
  obtain ⟨b', i, f', hsift, hi, hlen', hheap', hf'⟩ := hheap.push hout hlen
  refine ⟨{ s with size := s.size + 1, requests := b'.set i (some a), pool := pool }, f', ?_,
    ⟨⟨hheap', ?_⟩, rfl, hpool.symm, rfl, rfl, rfl, hf'⟩⟩
  · have hsift : siftUp SfqRequest.startTag s.pool (s.pool a).startTag s.size b s.size = some (b', i) := by
      rw [siftUp_congr hkey, hkey]
      exact hsift
    simp [insert, hsift, hpool, store_eq hi]
  · change max (s.size + 1) 1 ≤ (b'.set i (some a)).length
    rw [List.length_set]
    omega

/-- The first slot of the insertion is slot `size`. -/
theorem insert_none {b : Block Addr} (hfull : b.length ≤ s.size) : insert s b rq a = none := by
  have hslot : ∀ c p, c.length ≤ s.size → store (A := Addr) c s.size p = none := fun c p hc => if_neg (not_lt.mpr hc)
  have hsift : siftUp SfqRequest.startTag s.pool (s.pool a).startTag s.size b s.size = none ∨
      siftUp SfqRequest.startTag s.pool (s.pool a).startTag s.size b s.size = some (b, s.size) := by
    cases hn : s.size with
    | zero => exact .inr rfl
    | succ n =>
      rw [hn] at hslot hfull
      cases hp : load b (parent (n + 1)) with
      | none => exact .inl (by simp [siftUp, hp])
      | some p =>
        by_cases hk : (s.pool a).startTag < (s.pool p).startTag
        · exact .inl (by simp [siftUp, hp, hk, hslot b p hfull])
        · exact .inr (by simp [siftUp, hp, hk])
  rcases hsift with hsift | hsift
  · simp [insert, hsift]
  · simp [insert, hsift, hslot b a hfull]

/-- The versions call `krealloc` before each insertion except into the empty heap. -/
theorem insert_grown (rq : Rq) (h : HeapState s f) (hout : a ∉ pointers f s.size) :
    ∃ s' f', insert s (if s.size ≠ 0 then resize s.requests (s.size + 1) else s.requests) rq a = some s' ∧
      Inserted s s' f f' rq a := by
  split
  case isTrue =>
    apply insert_eq rq h (by simp [length_resize]) _ hout
    intro j hj
    rw [load_resize, if_pos (by omega)]
  case isFalse h0 =>
    have hblock := h.block
    exact insert_eq rq h (by omega) (fun _ _ => rfl) hout

/-- What removing the root does to the array. -/
structure Removed (s s' : HeapArray X) (f f' : Nat → Addr) : Prop where
  state : HeapState s' f'
  size : s.size = s'.size + 1
  live : s'.live = s.live
  priv0 : s'.priv0 = s.priv0
  virtualTime : s'.virtualTime = s.virtualTime
  pointers : pointers f s.size = f 0 ::ₘ Heap.pointers f' s'.size
  frame : ∀ p ∉ Heap.pointers f' s'.size, s'.pool p = s.pool p
  contents : contents f s.size s.pool = s.pool (f 0) ::ₘ Heap.contents f' s'.size s'.pool

theorem Removed.root_notMem {f' : Nat → Addr} (h : HeapState s f) (hr : Removed s s' f f') :
    f 0 ∉ Heap.pointers f' s'.size := by
  have hnodup := h.heap.nodup
  rw [hr.pointers, Multiset.nodup_cons] at hnodup
  exact hnodup.1

/-- A reallocation that leaves room for the first `n` slots and keeps them. -/
structure Shrinks (shrink : Block Addr → Nat → Block Addr) : Prop where
  length : ∀ b n, n ≤ b.length → n ≤ (shrink b n).length
  load : ∀ b n j, j < n → load (shrink b n) j = load b j

theorem Shrinks.resize : Shrinks Heap.resize where
  length _ _ _ := length_resize.ge
  load b n j hj := by rw [load_resize, if_pos hj]

theorem removeRoot_eq (h : HeapState s f) (hpos : 0 < s.size) {least : Nat} (hleast : 0 < least ∧ least ≤ 2)
    {shrink : Block Addr → Nat → Block Addr} (hs : Shrinks shrink) :
    ∃ s' f', removeRoot least shrink s = some (f 0, s') ∧ Removed s s' f f' := by
  obtain ⟨n, hn⟩ := Nat.exists_eq_succ_of_ne_zero hpos.ne'
  have hheap : HeapAt SfqRequest.startTag s.requests s.pool (n + 1) f := by
    rw [← Nat.succ_eq_add_one, ← hn]
    exact h.heap
  have hfirst : load s.requests 0 = some (f 0) := hheap.slots 0 (by omega)
  have hlast : load s.requests n = some (f n) := hheap.slots n (by omega)
  have hfit : n + 1 ≤ s.requests.length := (by omega : n + 1 ≤ max s.size 1).trans h.block
  have hpointers : pointers f s.size = f 0 ::ₘ pointers (popped f n) n := by rw [hn, pointers_popped]
  have hcontents : contents f s.size s.pool = s.pool (f 0) ::ₘ contents (popped f n) n s.pool := by
    rw [contents, hpointers, Multiset.map_cons]
    rfl
  by_cases hmore : least ≤ n
  · have hslots : ∀ j < n, load (shrink (s.requests.set 0 (some (f n))) n) j = some (popped f n j) := by
      intro j hj
      rw [hs.load _ _ _ hj]
      exact load_popped hheap hj
    obtain ⟨pool, hheapify, hheap', hout, hsame⟩ := hheap.pop hslots (by omega)
    refine ⟨{ s with size := n, requests := shrink (s.requests.set 0 (some (f n))) n, pool := pool }, popped f n, ?_,
      ⟨⟨hheap', ?_⟩, hn, rfl, rfl, rfl, hpointers, hout, ?_⟩⟩
    · simp [removeRoot, hn, hfirst, hlast, store_eq (by omega : 0 < s.requests.length), hmore, hheapify]
    · have hle : n ≤ (s.requests.set 0 (some (f n))).length := by rw [List.length_set]; omega
      change max n 1 ≤ (shrink (s.requests.set 0 (some (f n))) n).length
      rw [max_eq_left (hleast.1.trans_le hmore)]
      exact hs.length _ n hle
    · rw [hcontents, ← hsame]
  · refine ⟨{ s with size := n, requests := s.requests.set 0 (some (f n)) }, popped f n, ?_,
      ⟨⟨⟨fun j hj => load_popped hheap hj, fun j hj k hk => popped_distinct hheap hj hk, ?_⟩, ?_⟩, hn, rfl, rfl, rfl,
        hpointers, fun _ _ => rfl, hcontents⟩⟩
    · simp [removeRoot, hn, hfirst, hlast, store_eq (by omega : 0 < s.requests.length), hmore]
    · intro j hj hjn
      change j < n at hjn
      omega
    · change max n 1 ≤ (s.requests.set 0 (some (f n))).length
      rw [List.length_set]
      omega

section Slots

variable {f' : Nat → Addr} {least : Nat} {shrink : Block Addr → Nat → Block Addr}

/-- The pointer of the last slot has moved to the root. -/
theorem removeRoot_slots (hremove : removeRoot least shrink s = some (a, s')) (hs : Shrinks shrink) {j : Nat}
    (hj : j < s'.size) : load s'.requests j = load s.requests (if j = 0 then s.size - 1 else j) := by
  simp only [removeRoot, Option.bind_eq_bind, Option.bind_eq_some_iff] at hremove
  obtain ⟨root, -, last, hlast, requests, hstore, h⟩ := hremove
  obtain ⟨hpos, rfl⟩ := store_eq_some.mp hstore
  have hset : load (s.requests.set 0 (some last)) j = load s.requests (if j = 0 then s.size - 1 else j) := by
    rw [load_set hpos]
    rcases eq_or_ne j 0 with rfl | hne
    · rw [if_pos rfl, if_pos rfl, hlast]
    · rw [if_neg hne.symm, if_neg hne]
  split at h
  case isTrue =>
    obtain ⟨pool, -, h⟩ := Option.bind_eq_some_iff.mp h
    obtain ⟨-, rfl⟩ := Prod.mk.inj (Option.some.inj h)
    exact (hs.load _ _ _ hj).trans hset
  case isFalse =>
    obtain ⟨-, rfl⟩ := Prod.mk.inj (Option.some.inj h)
    exact hset

theorem removeRoot_pool (hremove : removeRoot least shrink s = some (a, s')) :
    s'.pool = s.pool ∨ heapify SfqRequest.startTag s'.requests s'.size s'.size s.pool 0 = some s'.pool := by
  simp only [removeRoot, Option.bind_eq_bind, Option.bind_eq_some_iff] at hremove
  obtain ⟨root, -, last, -, requests, -, h⟩ := hremove
  split at h
  case isTrue =>
    obtain ⟨pool, hpool, h⟩ := Option.bind_eq_some_iff.mp h
    obtain ⟨-, rfl⟩ := Prod.mk.inj (Option.some.inj h)
    exact .inr hpool
  case isFalse =>
    obtain ⟨-, rfl⟩ := Prod.mk.inj (Option.some.inj h)
    exact .inl rfl

/-- Where the moved record is not greater than the children of the root, no contents are exchanged. -/
theorem removeRoot_settled (hremove : removeRoot least shrink s = some (a, s')) (h' : HeapState s' f')
    (hle : ∀ j ∈ [1, 2], j < s'.size → (s.pool (f' 0)).startTag ≤ (s.pool (f' j)).startTag) : s'.pool = s.pool := by
  rcases removeRoot_pool hremove with hsame | hsift
  · exact hsame
  · cases hn : s'.size with
    | zero => simp [hn, heapify] at hsift
    | succ n =>
      have hslots : ∀ j < s'.size, load s'.requests j = some (f' j) := fun _ hj => h'.load_lt hj
      have hstop : heapify SfqRequest.startTag s'.requests s'.size (n + 1) s.pool 0 = some s.pool := by
        apply heapify_stop hslots (by omega)
        intro j hj hjn hp
        apply hle j _ hjn
        simpa using (parent_eq_iff hj).mp hp
      rw [hn] at hsift hstop
      exact Option.some.inj (hsift.symm.trans hstop)

end Slots

section OwnField

variable {b : Block Addr}

theorem setRequest_own {wrap : Int → Int} {own : X} {pid : Pid} {env : SetEnv X}
    (h : setRequest wrap own s rq pid env = some s') (p : Addr) :
    (s'.pool p).own = own ∨ (s'.pool p).own = (s.pool p).own := by
  simp only [setRequest, Option.bind_eq_bind, Option.bind_eq_some_iff, Function.update_idem] at h
  obtain ⟨virtualTime, -, h⟩ := h
  rw [← Option.some.inj h]
  rcases eq_or_ne p env.sfqr with rfl | hp
  · left
    simp
  · right
    simp [hp]

theorem insert_own (h : insert s b rq a = some s') (p : Addr) : (s'.pool p).own = (s.pool p).own := by
  simp only [insert, Option.bind_eq_bind, Option.bind_eq_some_iff] at h
  obtain ⟨-, -, requests, -, h⟩ := h
  rw [← Option.some.inj h]
  rcases eq_or_ne p a with rfl | hp
  · simp
  · simp [hp]

theorem removeRoot_forall {P : SfqRequest X → Prop} {least : Nat} {shrink : Block Addr → Nat → Block Addr}
    (h : removeRoot least shrink s = some (a, s')) (hp : ∀ p, P (s.pool p)) (p : Addr) : P (s'.pool p) := by
  simp only [removeRoot, Option.bind_eq_bind, Option.bind_eq_some_iff] at h
  obtain ⟨root, -, last, -, requests, -, h⟩ := h
  split at h
  · obtain ⟨pool, hpool, h⟩ := Option.bind_eq_some_iff.mp h
    rw [← (Prod.mk.inj (Option.some.inj h)).2]
    exact heapify_forall hpool hp p
  · rw [← (Prod.mk.inj (Option.some.inj h)).2]
    exact hp p

end OwnField

end SsdScheduler.Alpha
