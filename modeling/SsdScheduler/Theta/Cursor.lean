import SsdScheduler.Framework.RoundRobin
import SsdScheduler.Theta.Sfq5

/-!
# The cursor of `sfq_5.c`

`wrong_sfqq` is set once, by the second dispatch that finds a process queue. The loop of a dispatch
then passes over that position, which is the list head if two queues were registered at that moment.
-/

namespace SsdScheduler.Sfq5

open Framework Framework.RoundRobin Sfq

/-- The cursor, `wrong_sfqq` and the number of queues are the same. -/
structure Same (s s' : WrongData) : Prop where
  osSfqq : s'.osSfqq = s.osSfqq
  wrongSfqq : s'.wrongSfqq = s.wrongSfqq
  length : s'.queue.length = s.queue.length

variable {s s' : WrongData} {env : DispatchEnv} {o : Out} {k : Nat}

theorem Same.trans {t : WrongData} (h : Same s s') (h' : Same s' t) : Same s t :=
  ⟨h'.osSfqq.trans h.osSfqq, h'.wrongSfqq.trans h.wrongSfqq, h'.length.trans h.length⟩

theorem dispatchSection_same {kicked : Bool} (h : dispatchSection kicked s = some (o, s')) : Same s s' := by
  unfold dispatchSection at h
  split at h
  case isTrue hpos =>
    simp only [Option.bind_eq_bind, Option.bind_eq_some_iff] at h
    obtain ⟨requests, -, sfqr, -, last, -, b, -, h⟩ := h
    split at h
    case isTrue =>
      obtain ⟨pool, -, h⟩ := Option.bind_eq_some_iff.mp h
      obtain ⟨-, rfl⟩ := Prod.mk.inj (Option.some.inj h)
      exact ⟨rfl, rfl, rfl⟩
    case isFalse =>
      obtain ⟨-, rfl⟩ := Prod.mk.inj (Option.some.inj h)
      exact ⟨rfl, rfl, rfl⟩
  case isFalse =>
    obtain ⟨-, rfl⟩ := Prod.mk.inj (Option.some.inj h)
    exact ⟨rfl, rfl, rfl⟩

theorem transfer_same (h : transfer s env k = some s') : Same s s' := by
  unfold transfer at h
  split at h
  case h_1 q hq =>
    obtain ⟨⟨room, d⟩, ht, rfl⟩ := Option.map_eq_some_iff.mp h
    have hkept := SfqData.transfer_kept ht
    exact ⟨hkept.osSfqq, rfl, hkept.length⟩
  case h_2 =>
    split at h
    case isTrue => exact Option.some.inj h ▸ ⟨rfl, rfl, rfl⟩
    case isFalse =>
      split at h
      case isTrue => cases h
      case isFalse => exact Option.some.inj h ▸ ⟨rfl, rfl, rfl⟩

theorem limited_same (h : limited env s = some (o, s')) : Same s s' := by
  unfold limited at h
  split at h
  case isTrue =>
    obtain ⟨-, rfl⟩ := Prod.mk.inj (Option.some.inj h)
    exact ⟨rfl, rfl, rfl⟩
  case isFalse =>
    simp only [Option.bind_eq_bind, Option.bind_eq_some_iff] at h
    obtain ⟨k, -, t, ht, hd⟩ := h
    exact (transfer_same ht).trans (dispatchSection_same hd)

/-- A dispatch puts the cursor on the first queue, if there is one, or runs the loop. -/
theorem sfqDispatch_cases (h : sfqDispatch s env = some (o, s')) :
    (s.osSfqq = none ∧ s.queue = [] ∧ Same s s') ∨
    (s.osSfqq = none ∧ s.queue ≠ [] ∧ Same { s with osSfqq := some 1 } s') ∨
    (s.osSfqq ≠ none ∧ ∃ t, nextDispatch env (s.queue.length + 3) { s with idleSliceTimer := true } = some t ∧
      Same t s') := by
  unfold sfqDispatch at h
  cases hos : s.osSfqq with
  | none =>
    simp only [hos] at h
    split at h
    case h_1 hq =>
      obtain ⟨-, rfl⟩ := Prod.mk.inj (Option.some.inj h)
      exact .inl ⟨rfl, hq, ⟨hos.symm, rfl, rfl⟩⟩
    case h_2 hq =>
      refine .inr (.inl ⟨rfl, by rw [hq]; exact List.cons_ne_nil _ _, ?_⟩)
      obtain ⟨h1, h2, h3⟩ := limited_same h
      exact ⟨h1, h2, h3⟩
  | some os =>
    simp only [hos, Option.bind_eq_bind, Option.bind_eq_some_iff] at h
    obtain ⟨t, ht, k, -, hd⟩ := h
    refine .inr (.inr ⟨Option.some_ne_none _, t, ?_, ?_⟩)
    · exact ht
    · split at hd
      case isTrue => exact dispatchSection_same hd
      case isFalse => exact limited_same hd

/-- The list head, read as a process queue, carries the number of no process. -/
def Apart (c : Core) (env : DispatchEnv) : Prop := ∀ q ∈ c.queue, q.pid ≠ env.pid

theorem pidAt_zero (c : Core) : pidAt c env 0 = env.pid := rfl

theorem pidAt_ne {c : Core} (h : Apart c env) (hk : 1 ≤ k) (hn : k ≤ c.queue.length) : pidAt c env k ≠ env.pid := by
  obtain ⟨q, hmem, hq⟩ := Core.exists_sfqq hk hn
  unfold pidAt
  rw [hq]
  exact h q hmem

/-- With the list head as `wrong_sfqq` the loop ends on the cyclic successor. -/
theorem nextDispatch_settled (h : Apart s.toCore env) (hos : s.osSfqq = some k) (hwrong : s.wrongSfqq = some 0)
    (hk : k ≤ s.queue.length) (hn : 1 ≤ s.queue.length) (fuel : Nat) :
    nextDispatch env (fuel + 2) s = some { s with osSfqq := some (next s.queue.length k) } := by
  rcases Nat.lt_or_ge k s.queue.length with hlt | hge
  · have hne : pidAt s.toCore env (k + 1) ≠ env.pid := pidAt_ne h (by omega) hlt
    simp [nextDispatch, hos, hwrong, Core.listNextEntry, next, hlt, pidAt_zero, hne]
  · obtain rfl : k = s.queue.length := by omega
    have hne : pidAt s.toCore env 1 ≠ env.pid := pidAt_ne h le_rfl hn
    have hpos : 0 < s.queue.length := hn
    simp [nextDispatch, hos, hwrong, Core.listNextEntry, next, pidAt_zero, hne, hpos]

/-- With two queues the loop makes the list head `wrong_sfqq` and ends on the first queue again. -/
theorem nextDispatch_two (h : Apart s.toCore env) (hos : s.osSfqq = some 1) (hwrong : s.wrongSfqq = none)
    (hn : s.queue.length = 2) (fuel : Nat) :
    nextDispatch env (fuel + 3) s = some { s with osSfqq := some 1, wrongSfqq := some 0 } := by
  have hne : pidAt s.toCore env 1 ≠ env.pid := pidAt_ne h le_rfl (by omega)
  simp [nextDispatch, hos, hwrong, Core.listNextEntry, hn, pidAt_zero, hne]

/-- The loop sets `wrong_sfqq` if it is not set, two positions ahead of the cursor, and stops
elsewhere. -/
theorem nextDispatch_wrong {fuel : Nat} (h : nextDispatch env fuel s = some s') (hos : s.osSfqq = some k) :
    s'.toCore = s.toCore ∧ s'.wrongSfqq = some (s.wrongSfqq.getD (s.listNextEntry (s.listNextEntry k))) ∧
      s'.osSfqq ≠ none ∧ s'.osSfqq ≠ s'.wrongSfqq := by
  induction fuel generalizing s k with
  | zero => cases h
  | succ fuel ih =>
    rw [nextDispatch] at h
    simp only [hos, Option.bind_eq_bind, Option.bind_some] at h
    cases hw : s.wrongSfqq with
    | none =>
      simp only [hw] at h
      exact ih h rfl
    | some wrong =>
      simp only [hw] at h
      split at h
      case isTrue => exact ih (k := s.listNextEntry k) h rfl
      case isFalse hne =>
        obtain rfl := Option.some.inj h
        refine ⟨rfl, rfl, Option.some_ne_none _, ?_⟩
        intro he
        have he : s.listNextEntry k = wrong := Option.some.inj he
        exact hne (by rw [he])

/-- The cursor is `NULL`, or on the first queue with `wrong_sfqq` not yet set, or on some queue with
the list head recognised. -/
inductive Cursor (s : WrongData) : Prop
  | null (hos : s.osSfqq = none) (hwrong : s.wrongSfqq = none)
  | first (hos : s.osSfqq = some 1) (hwrong : s.wrongSfqq = none) (hn : 1 ≤ s.queue.length)
  | settled {k : Nat} (hos : s.osSfqq = some k) (hwrong : s.wrongSfqq = some 0) (hk : 1 ≤ k)
      (hn : k ≤ s.queue.length)

/-- How far the cursor has come once it is not `NULL`; the turn that sets `wrong_sfqq` starts over. -/
def place (s : WrongData) : Nat :=
  match s.wrongSfqq with
  | none => 0
  | some _ => s.osSfqq.getD 0

theorem Cursor.congr (h : Cursor s) (hos : s'.osSfqq = s.osSfqq) (hwrong : s'.wrongSfqq = s.wrongSfqq)
    (hn : s.queue.length ≤ s'.queue.length) : Cursor s' := by
  cases h with
  | null h1 h2 => exact .null (hos.trans h1) (hwrong.trans h2)
  | first h1 h2 h3 => exact .first (hos.trans h1) (hwrong.trans h2) (h3.trans hn)
  | settled h1 h2 h3 h4 => exact .settled (hos.trans h1) (hwrong.trans h2) h3 (h4.trans hn)

theorem Cursor.place_le (h : Cursor s) : place s ≤ s.queue.length := by
  cases h with
  | null hos hwrong => simp [place, hwrong]
  | first hos hwrong hn => simp [place, hwrong]
  | settled hos hwrong hk hn => simpa [place, hwrong, hos] using hn

theorem Cursor.exists_sfqq (h : Cursor s) (hos : s.osSfqq ≠ none) :
    ∃ k q, s.osSfqq = some k ∧ s.sfqq? k = some q := by
  cases h with
  | null h1 => exact absurd h1 hos
  | first h1 h2 hn =>
    obtain ⟨q, -, hq⟩ := Core.exists_sfqq le_rfl hn
    exact ⟨1, q, h1, hq⟩
  | @settled k h1 h2 hk hn =>
    obtain ⟨q, -, hq⟩ := Core.exists_sfqq hk hn
    exact ⟨k, q, h1, hq⟩

/-- The loop ends on the next queue, provided that there are two when it sets `wrong_sfqq`. -/
theorem Cursor.nextDispatch_eq (h : Cursor s) (hos : s.osSfqq ≠ none) (ha : Apart s.toCore env)
    (htwo : s.wrongSfqq = none → s.queue.length = 2) :
    nextDispatch env (s.queue.length + 3) s =
      some { s with osSfqq := some (next s.queue.length (place s)), wrongSfqq := some 0 } := by
  cases h with
  | null h1 => exact absurd h1 hos
  | first h1 h2 hn =>
    have h3 := htwo h2
    have hnext : next s.queue.length (place s) = 1 := by simp [place, h2, h3, next]
    rw [nextDispatch_two ha h1 h2 h3, hnext]
  | @settled k h1 h2 hk hn =>
    have hplace : place s = k := by simp [place, h1, h2]
    rw [nextDispatch_settled ha h1 h2 hn (hk.trans hn) (s.queue.length + 1), hplace, ← h2]

end SsdScheduler.Sfq5
