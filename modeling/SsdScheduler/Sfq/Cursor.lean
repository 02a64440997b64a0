import SsdScheduler.Framework.RoundRobin
import SsdScheduler.Sfq.CoreStep

/-!
# The counted cursor

`sfq_dispatch` of `sfq-iosched_12.c`, `sfq_3.c` and `sfq_4.c` moves a cursor along the circular
list and skips the list head because `sfqq_total_seek` has counted as many queues as are
registered. The versions differ in what they do once the cursor stands.
-/

namespace SsdScheduler.Sfq

open Framework Framework.RoundRobin

/-- `struct sfq_data` with the position counter. -/
structure SeekData extends SfqData where
  sfqqTotalSeek : Nat

/-- The process queues and the cursor. -/
structure View where
  core : Core
  osSfqq : Option Nat
  sfqqTotalSeek : Nat

theorem Core.exists_sfqq_next {c : Core} (hn : c.queue ≠ []) (k : Nat) :
    ∃ q, c.sfqq? (next c.queue.length k) = some q := by
  have hlen : 1 ≤ c.queue.length := List.length_pos_iff.mpr hn
  obtain ⟨q, -, hq⟩ := exists_sfqq (next_pos c.queue.length k) (next_le hlen k)
  exact ⟨q, hq⟩

/-- The cursor `os` is `NULL` or the one of `n` queues that the counter says it is. -/
def Seeking (os : Option Nat) (seek n : Nat) : Prop :=
  os = none ∧ seek = 0 ∨ os = some seek ∧ 1 ≤ seek ∧ seek ≤ n

theorem Seeking.mono {os : Option Nat} {seek n n' : Nat} (h : Seeking os seek n) (hn : n ≤ n') :
    Seeking os seek n' := by
  rcases h with h | ⟨hos, h1, h2⟩
  · exact .inl h
  · exact .inr ⟨hos, h1, h2.trans hn⟩

theorem Seeking.next {n : Nat} (hn : 1 ≤ n) (k : Nat) :
    Seeking (some (RoundRobin.next n k)) (RoundRobin.next n k) n :=
  .inr ⟨rfl, next_pos _ _, next_le hn _⟩

/-- The process queues of a world. -/
abbrev coreWorld (w : World SeekData) : World Core := w.map fun s => s.toCore

namespace SeekData

/-- What `sfq_init_queue` leaves, with no record allocated. -/
def initial : SeekData where
  virtualTime := 0
  depth := 0
  prevSfqr := none
  queue := []
  sfqqSize := 0
  sfqrSize := 0
  pool := fun _ => .zero
  live := fun _ => false
  priv0 := fun _ => none
  priv1 := fun _ => none
  osSfqq := none
  requests := none
  heapSize := 0
  heapLimitSize := 0
  idleSliceTimer := false
  unplugWork := false
  sfqqTotalSeek := 0

/-- The loop at the label `next_dispatch`; the number is how often it jumped back. -/
def nextDispatch : Nat → SeekData → Option (Nat × SeekData)
  | 0, _ => none
  | fuel + 1, s => do
    let os ← s.osSfqq
    let s := { s with osSfqq := some (s.listNextEntry os) }
    if s.sfqqTotalSeek = s.sfqqSize then
      let (jumps, s) ← nextDispatch fuel { s with sfqqTotalSeek := 0 }
      some (jumps + 1, s)
    else some (0, { s with sfqqTotalSeek := s.sfqqTotalSeek + 1 })

/-- From the label `dispatch_section` on. -/
def finish (serve : SfqData → Nat → Option (Option Rq × SfqData)) (kicked : Bool) (s : SeekData) :
    Option (Out × SeekData) := do
  let k ← s.osSfqq
  let (rq, d) ← serve s.toSfqData k
  some (dispatchOut kicked rq, { s with toSfqData := d.kickIf kicked })

/-- From the depth test on. -/
def limited (fill : SfqData → Nat → Option (Bool × SfqData))
    (serve : SfqData → Nat → Option (Option Rq × SfqData)) (s : SeekData) : Option (Out × SeekData) :=
  if requestDepth < s.depth then
    let kicked := decide (s.sfqrSize ≠ 0)
    some (.quiet kicked, { s with toSfqData := s.toSfqData.kickIf kicked })
  else do
    let k ← s.osSfqq
    let (room, d) ← fill s.toSfqData k
    finish serve (!room) { s with toSfqData := d }

/-- `sfq_dispatch`. `fill` is what happens between the depth test and the label
`dispatch_section`, `serve` what happens after it. -/
def dispatchWith (fill : SfqData → Nat → Option (Bool × SfqData))
    (serve : SfqData → Nat → Option (Option Rq × SfqData)) (s : SeekData) : Option (Out × SeekData) :=
  match s.osSfqq with
  | none =>
    match s.queue with
    | [] => some (.quiet false, s)
    | _ :: _ => limited fill serve { s with osSfqq := some 1, sfqqTotalSeek := s.sfqqTotalSeek + 1 }
  | some _ => do
    let (_, s) ← nextDispatch (s.queue.length + 2) s
    let k ← s.osSfqq
    let sfqq ← s.sfqq? k
    if sfqq.queue = [] then finish serve (decide (s.sfqrSize ≠ 0)) s
    else limited fill serve s

def view (s : SeekData) : View := ⟨s.toCore, s.osSfqq, s.sfqqTotalSeek⟩

def Seeks (s : SeekData) : Prop := Seeking s.osSfqq s.sfqqTotalSeek s.queue.length

variable {s : SeekData}

theorem Seeks.congr {s' : SeekData} (h : s.Seeks) (hos : s'.osSfqq = s.osSfqq)
    (hseek : s'.sfqqTotalSeek = s.sfqqTotalSeek) (hn : s.queue.length ≤ s'.queue.length) : s'.Seeks := by
  unfold Seeks
  rw [hos, hseek]
  exact Seeking.mono h hn

theorem Seeks.le (h : s.Seeks) : s.sfqqTotalSeek ≤ s.queue.length := by
  rcases h with ⟨-, h⟩ | ⟨-, -, h⟩
  · omega
  · exact h

theorem Seeks.exists_sfqq (h : s.Seeks) (hos : s.osSfqq ≠ none) :
    ∃ q, s.osSfqq = some s.sfqqTotalSeek ∧ s.sfqq? s.sfqqTotalSeek = some q := by
  rcases h with ⟨hnone, -⟩ | ⟨hsome, h1, h2⟩
  · exact absurd hnone hos
  · obtain ⟨q, -, hq⟩ := Core.exists_sfqq h1 h2
    exact ⟨q, hsome, hq⟩

/-- The loop ends after at most one jump, on the cyclic successor. -/
theorem nextDispatch_eq (hos : s.osSfqq = some s.sfqqTotalSeek) (h1 : 1 ≤ s.sfqqTotalSeek)
    (hn : s.sfqqTotalSeek ≤ s.queue.length) (hsize : s.sfqqSize = s.queue.length) (fuel : Nat) :
    nextDispatch (fuel + 2) s =
      some (if s.sfqqTotalSeek < s.queue.length then 0 else 1,
        { s with osSfqq := some (next s.queue.length s.sfqqTotalSeek)
                 sfqqTotalSeek := next s.queue.length s.sfqqTotalSeek }) := by
  rcases Nat.lt_or_ge s.sfqqTotalSeek s.queue.length with hlt | hge
  · have hne : s.sfqqTotalSeek ≠ s.sfqqSize := by omega
    simp [nextDispatch, hos, hne, hlt, Core.listNextEntry, next]
  · have he : s.sfqqTotalSeek = s.sfqqSize := by omega
    have hpos : 0 < s.queue.length := by omega
    have h0 : ¬ 0 = s.queue.length := by omega
    simp [nextDispatch, hos, he, h0, Core.listNextEntry, next, hsize, hpos]

/-- The state once the cursor stands. -/
def moved (s : SeekData) : SeekData :=
  { s with
    osSfqq := some (next s.queue.length s.sfqqTotalSeek)
    sfqqTotalSeek := next s.queue.length s.sfqqTotalSeek }

@[simp] theorem moved_toCore : s.moved.toCore = s.toCore := rfl

theorem Seeks.moved (h : 1 ≤ s.queue.length) : s.moved.Seeks := Seeking.next h _

variable {fill : SfqData → Nat → Option (Bool × SfqData)}
  {serve : SfqData → Nat → Option (Option Rq × SfqData)}

theorem dispatchWith_empty (h : s.Seeks) (hn : s.queue = []) :
    dispatchWith fill serve s = some (.quiet false, s) := by
  rcases h with ⟨hos, -⟩ | ⟨-, h1, h2⟩
  · simp [dispatchWith, hos, hn]
  · simp [hn] at h2
    omega

/-- With a queue registered, a dispatch continues from the moved cursor: through the depth test,
or past it if the cursor was moved from one queue to an empty one. -/
theorem dispatchWith_eq (h : s.Seeks) (hsize : s.sfqqSize = s.queue.length) {q : SfqQueue}
    (hq : s.sfqq? (next s.queue.length s.sfqqTotalSeek) = some q) :
    dispatchWith fill serve s =
      if s.osSfqq ≠ none ∧ q.queue = [] then finish serve (decide (s.sfqrSize ≠ 0)) s.moved
      else limited fill serve s.moved := by
  rcases h with ⟨hos, hseek⟩ | ⟨hos, h1, h2⟩
  · cases hl : s.queue with
    | nil => simp [hl, hseek, next, Core.sfqq?] at hq
    | cons r l =>
      have hnext : next s.queue.length 0 = 1 := by unfold next; split <;> rfl
      rw [dispatchWith, hos, hl, moved, hseek, hnext]
      rfl
  · rw [dispatchWith, hos]
    simp only [nextDispatch_eq hos h1 h2 hsize, Option.bind_eq_bind, Option.bind_some, hq, ne_eq,
      reduceCtorEq, not_false_eq_true, true_and]
    rfl

end SeekData
end SsdScheduler.Sfq
