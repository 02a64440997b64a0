import Mathlib.Algebra.Order.BigOperators.Group.List
import Mathlib.Data.List.Basic

/-!
# Cyclic service

Positions `1, ..., n` are served in turn; the cursor is the position served last, `0` before the
first turn. The number of turns a position still has to wait orders all positions at every
moment, and that order carries both the fairness of the turns and the one-round bound.
-/

namespace Framework.RoundRobin

/-- The position served after `k`. -/
def next (n k : Nat) : Nat := if k < n then k + 1 else 1

/-- How many turns pass, counting its own, until `i` is served. -/
def wait (n k i : Nat) : Nat := if k < i then i - k else i + n - k

/-- The positions served in `m` turns. -/
def turns (n : Nat) : Nat → Nat → List Nat
  | _, 0 => []
  | k, m + 1 => next n k :: turns n (next n k) m

theorem next_pos (n k : Nat) : 1 ≤ next n k := by unfold next; split <;> omega

theorem next_le {n : Nat} (hn : 1 ≤ n) (k : Nat) : next n k ≤ n := by unfold next; split <;> omega

theorem wait_pos {n k i : Nat} (hi : 1 ≤ i) (hk : k ≤ n) : 1 ≤ wait n k i := by
  unfold wait; split <;> omega

theorem wait_le {n k i : Nat} (hi : i ≤ n) : wait n k i ≤ n := by
  unfold wait; split <;> omega

theorem wait_next_ne {n k i : Nat} (hi : 1 ≤ i) (hin : i ≤ n) (hk : k ≤ n) (hne : next n k ≠ i) :
    wait n (next n k) i + 1 = wait n k i := by
  unfold wait next at *
  split at hne <;> split <;> split <;> split <;> omega

theorem wait_next_self {n : Nat} (hn : 1 ≤ n) (k : Nat) : wait n (next n k) (next n k) = n := by
  have := next_le hn k
  unfold wait; split <;> omega

theorem wait_of_next {n k : Nat} (hk : k ≤ n) : wait n k (next n k) = 1 := by
  unfold wait next; split <;> split <;> omega

private theorem count_ordered {n i j : Nat} (hi : 1 ≤ i ∧ i ≤ n) (hj : 1 ≤ j ∧ j ≤ n) (hne : i ≠ j)
    (m : Nat) : ∀ k ≤ n,
      (wait n k i < wait n k j →
        (turns n k m).count j ≤ (turns n k m).count i ∧
          (turns n k m).count i ≤ (turns n k m).count j + 1) ∧
      (wait n k j < wait n k i →
        (turns n k m).count i ≤ (turns n k m).count j ∧
          (turns n k m).count j ≤ (turns n k m).count i + 1) := by
  induction m with
  | zero => intro k _; simp [turns]
  | succ m ih =>
    intro k hk
    have hn : 1 ≤ n := hi.1.trans hi.2
    have ih := ih (next n k) (next_le hn k)
    have hwi := wait_pos hi.1 hk
    have hwj := wait_pos hj.1 hk
    rw [turns]
    rcases eq_or_ne (next n k) i with he | hei
    · -- `i` is served now and goes to the end of the order
      have h1 : wait n k i = 1 := he ▸ wait_of_next hk
      have h2 : wait n (next n k) i = n := by simpa only [he] using wait_next_self hn k
      have h3 := wait_next_ne hj.1 hj.2 hk (he ▸ hne)
      have h4 := wait_le (n := n) (k := k) hj.2
      simp only [he, List.count_cons_self, List.count_cons_of_ne hne] at *
      constructor <;> intro h <;> omega
    · rcases eq_or_ne (next n k) j with he | hej
      · have h1 : wait n k j = 1 := he ▸ wait_of_next hk
        have h2 : wait n (next n k) j = n := by simpa only [he] using wait_next_self hn k
        have h3 := wait_next_ne hi.1 hi.2 hk hei
        have h4 := wait_le (n := n) (k := k) hi.2
        simp only [he, List.count_cons_self, List.count_cons_of_ne (Ne.symm hne)] at *
        constructor <;> intro h <;> omega
      · have h1 := wait_next_ne hi.1 hi.2 hk hei
        have h2 := wait_next_ne hj.1 hj.2 hk hej
        rw [List.count_cons_of_ne hei, List.count_cons_of_ne hej]
        exact ⟨fun h => ih.1 (by omega), fun h => ih.2 (by omega)⟩

theorem wait_injective {n k i j : Nat} (hi : 1 ≤ i ∧ i ≤ n) (hj : 1 ≤ j ∧ j ≤ n) (hk : k ≤ n)
    (h : wait n k i = wait n k j) : i = j := by
  unfold wait at h; split at h <;> split at h <;> omega

/-- In any number of consecutive turns two positions are served equally often, up to one. -/
theorem turns_fair {n i j k : Nat} (hi : 1 ≤ i ∧ i ≤ n) (hj : 1 ≤ j ∧ j ≤ n) (hk : k ≤ n) (m : Nat) :
    (turns n k m).count i ≤ (turns n k m).count j + 1 := by
  rcases eq_or_ne i j with rfl | hne
  · omega
  have h := count_ordered hi hj hne m k hk
  rcases Nat.lt_trichotomy (wait n k i) (wait n k j) with hw | hw | hw
  · exact (h.1 hw).2
  · exact absurd (wait_injective hi hj hk hw) hne
  · exact (h.2 hw).1.trans (Nat.le_succ _)

theorem mem_turns_of_wait {n i : Nat} (hi : 1 ≤ i ∧ i ≤ n) (m : Nat) :
    ∀ k ≤ n, wait n k i ≤ m → i ∈ turns n k m := by
  induction m with
  | zero =>
    intro k hk hw
    have := wait_pos hi.1 hk
    omega
  | succ m ih =>
    intro k hk hw
    rw [turns, List.mem_cons]
    rcases eq_or_ne (next n k) i with he | he
    · exact .inl he.symm
    · have hd := wait_next_ne hi.1 hi.2 hk he
      exact .inr (ih _ (next_le (hi.1.trans hi.2) k) (by omega))

/-- One round serves every position. -/
theorem mem_turns {n i k m : Nat} (hi : 1 ≤ i ∧ i ≤ n) (hk : k ≤ n) (hm : n ≤ m) : i ∈ turns n k m :=
  mem_turns_of_wait hi m k hk ((wait_le hi.2).trans hm)

/-- The entries of a list in the order in which the cursor will come to them. -/
def lineUp {α : Type*} (k : Nat) (l : List α) : List α := l.drop k ++ l.take k

theorem lineUp_perm {α : Type*} (k : Nat) (l : List α) : (lineUp k l).Perm l := by
  have h : (l.drop k ++ l.take k).Perm (l.take k ++ l.drop k) := List.perm_append_comm
  rwa [List.take_append_drop] at h

/-- Serving the next position moves its entry, replaced by `y`, to the end of the line. -/
theorem lineUp_next {α : Type*} {k : Nat} {l : List α} (hk : k ≤ l.length) (hl : 1 ≤ l.length) (y : α) :
    ∃ x rest, l[next l.length k - 1]? = some x ∧ lineUp k l = x :: rest ∧
      lineUp (next l.length k) (l.set (next l.length k - 1) y) = rest ++ [y] := by
  rcases Nat.lt_or_ge k l.length with h | h
  · refine ⟨l[k], l.drop (k + 1) ++ l.take k, ?_, ?_, ?_⟩
    · simp [next, h]
    · rw [lineUp, List.drop_eq_getElem_cons h, List.cons_append]
    · have hlen : (l.take k).length = k := by simp; omega
      simp only [next, h, if_true, Nat.add_sub_cancel, lineUp]
      rw [List.drop_set_of_lt (by omega), List.take_add_one, List.take_set_of_le (Nat.le_refl k)]
      simp [h]
  · obtain rfl : k = l.length := by omega
    obtain ⟨x, rest, rfl⟩ := List.exists_cons_of_length_pos hl
    exact ⟨x, rest, by simp [next], by simp [lineUp], by simp [next, lineUp]⟩

/-- Serving from the head of the line, each time passing to the end of it, gets everything out
before it meets an empty entry. -/
inductive DealsOut : List Nat → Prop
  | done {l : List Nat} (h : ∀ x ∈ l, x = 0) : DealsOut l
  | serve {x : Nat} {l : List Nat} (h : DealsOut (l ++ [x])) : DealsOut ((x + 1) :: l)

/-- The entries never increase along the line and the first exceeds the last by at most one. -/
def Dealt (l : List Nat) : Prop := l.Pairwise fun a b => b ≤ a ∧ a ≤ b + 1

instance (l : List Nat) : Decidable (Dealt l) := inferInstanceAs (Decidable (l.Pairwise _))

theorem dealt_serve {x : Nat} {l : List Nat} : Dealt ((x + 1) :: l) ↔ Dealt (l ++ [x]) := by
  unfold Dealt
  rw [List.pairwise_cons, List.pairwise_append]
  constructor
  · rintro ⟨hx, hl⟩
    refine ⟨hl, List.pairwise_singleton _ _, ?_⟩
    intro a ha b hb
    have := hx a ha
    obtain rfl := List.mem_singleton.mp hb
    omega
  · rintro ⟨hl, -, hx⟩
    refine ⟨?_, hl⟩
    intro b hb
    have := hx b hb x (by simp)
    omega

theorem dealt_zero {l : List Nat} : Dealt (0 :: l) ↔ ∀ x ∈ (0 :: l), x = 0 := by
  constructor
  · intro h x hx
    rcases List.mem_cons.mp hx with rfl | hx
    · rfl
    · exact Nat.le_zero.mp ((List.pairwise_cons.mp h).1 x hx).1
  · intro h
    exact List.pairwise_iff_forall_sublist.mpr fun {a b} hs => by
      have ha := h a (hs.subset (by simp))
      have hb := h b (hs.subset (by simp))
      omega

theorem dealsOut_iff (l : List Nat) : DealsOut l ↔ Dealt l := by
  constructor
  · intro h
    induction h with
    | @done l h =>
      cases l with
      | nil => exact List.Pairwise.nil
      | cons x l =>
        obtain rfl := h x (by simp)
        exact dealt_zero.mpr h
    | serve _ ih => exact dealt_serve.mpr ih
  · induction hs : l.sum generalizing l with
    | zero => exact fun _ => .done fun x hx => List.sum_eq_zero_iff_forall_eq_nat.mp hs x hx
    | succ s ih =>
      intro h
      cases l with
      | nil => simp at hs
      | cons x l =>
        cases x with
        | zero => exact .done (dealt_zero.mp h)
        | succ x =>
          refine .serve (ih (l ++ [x]) ?_ (dealt_serve.mp h))
          simp only [List.sum_cons, List.sum_append, List.sum_nil] at hs ⊢
          omega

end Framework.RoundRobin
