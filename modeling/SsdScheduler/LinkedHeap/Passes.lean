import SsdScheduler.Framework.PointerQueue

/-!
# The two passes on the values of a complete tree

The values `d 0, ..., d n` of a tree are read by their indices. `Climbs` and `Sinks` are the calls of
`heapify_upward` and of `heapify_downward` for a node, one constructor for each way a call can end.
-/

namespace SsdScheduler.LinkedHeap

open Framework.Heap

variable {d d' : Nat → Int} {n i : Nat}

/-- The child of `i` with which `heapify_upward` exchanges it, or `i`: the right one wherever it is smaller. -/
def climbFrom (d : Nat → Int) (n i : Nat) : Nat :=
  if 2 * i + 2 ≤ n ∧ d (2 * i + 2) < d i then 2 * i + 2
  else if 2 * i + 1 ≤ n ∧ d (2 * i + 1) < d i then 2 * i + 1 else i

/-- The node among `i` and its children that `heapify_downward` takes for the smallest. -/
def sinkTo (d : Nat → Int) (n i : Nat) : Nat :=
  let s := if 2 * i + 1 ≤ n ∧ d (2 * i + 1) ≠ 0 ∧ d (2 * i + 1) ≤ d i then 2 * i + 1 else i
  if 2 * i + 2 ≤ n ∧ d (2 * i + 2) ≤ d s then 2 * i + 2 else s

/-- The call for `i` looks at the parent of `i`, the root being its own here. -/
inductive Climbs (n : Nat) : (Nat → Int) → Nat → (Nat → Int) → Prop
  | stop {d : Nat → Int} {i : Nat} (h : climbFrom d n (parent i) = parent i) : Climbs n d i d
  | swap {d d' : Nat → Int} {i : Nat} (h : climbFrom d n (parent i) ≠ parent i)
      (rest : Climbs n (d ∘ Equiv.swap (climbFrom d n (parent i)) (parent i)) (parent i) d') : Climbs n d i d'

inductive Sinks (n : Nat) : (Nat → Int) → Nat → (Nat → Int) → Prop
  | stop {d : Nat → Int} {i : Nat} (h : d (sinkTo d n i) = 0 ∨ d (sinkTo d n i) = d i) : Sinks n d i d
  | swap {d d' : Nat → Int} {i : Nat} (h0 : d (sinkTo d n i) ≠ 0) (hne : d (sinkTo d n i) ≠ d i)
      (rest : Sinks n (d ∘ Equiv.swap (sinkTo d n i) i) (sinkTo d n i) d') : Sinks n d i d'

theorem climbFrom_cases (d : Nat → Int) (n i : Nat) :
    climbFrom d n i = i ∨ i < climbFrom d n i ∧ climbFrom d n i ≤ n ∧ parent (climbFrom d n i) = i ∧
      d (climbFrom d n i) < d i := by
  unfold climbFrom parent
  split
  case isTrue h => exact .inr ⟨by omega, h.1, by omega, h.2⟩
  case isFalse =>
    split
    case isTrue h => exact .inr ⟨by omega, h.1, by omega, h.2⟩
    case isFalse => exact .inl rfl

theorem sinkTo_cases (d : Nat → Int) (n i : Nat) :
    sinkTo d n i = i ∨ i < sinkTo d n i ∧ sinkTo d n i ≤ n ∧ parent (sinkTo d n i) = i ∧ d (sinkTo d n i) ≤ d i := by
  unfold sinkTo parent
  by_cases hl : 2 * i + 1 ≤ n ∧ d (2 * i + 1) ≠ 0 ∧ d (2 * i + 1) ≤ d i
  · by_cases hr : 2 * i + 2 ≤ n ∧ d (2 * i + 2) ≤ d (2 * i + 1)
    · have hle := hr.2.trans hl.2.2
      simp only [if_pos hl, if_pos hr]
      exact .inr ⟨by omega, hr.1, by omega, hle⟩
    · simp only [if_pos hl, if_neg hr]
      exact .inr ⟨by omega, hl.1, by omega, hl.2.2⟩
  · by_cases hr : 2 * i + 2 ≤ n ∧ d (2 * i + 2) ≤ d i
    · simp only [if_neg hl, if_pos hr]
      exact .inr ⟨by omega, hr.1, by omega, hr.2⟩
    · simp only [if_neg hl, if_neg hr]
      exact .inl trivial

theorem climbFrom_le (hi : i ≤ n) : climbFrom d n i ≤ n := by
  rcases climbFrom_cases d n i with h | h <;> omega

theorem sinkTo_le (hi : i ≤ n) : sinkTo d n i ≤ n := by
  rcases sinkTo_cases d n i with h | h <;> omega

/-- The values `d 0, ..., d n`. -/
def values (d : Nat → Int) (n : Nat) : Multiset Int := (Multiset.range (n + 1)).map d

theorem mem_values {x : Int} : x ∈ values d n ↔ ∃ j ≤ n, d j = x := by
  simp only [values, Multiset.mem_map, Multiset.mem_range, Nat.lt_succ_iff]

theorem values_swap {j : Nat} (hi : i ≤ n) (hj : j ≤ n) : values (d ∘ Equiv.swap i j) n = values d n :=
  (Below.swap (Nat.lt_succ_of_le hi) (Nat.lt_succ_of_le hj)).map_range d

/-- The last value moved to the root, where the root's is taken out. -/
theorem values_update_zero : values d (n + 1) = d 0 ::ₘ values (Function.update d 0 (d (n + 1))) n := by
  have hpopped : popped d (n + 1) = Function.update d 0 (d (n + 1)) := by
    funext j
    rw [Function.update_apply, popped]
  exact hpopped ▸ pointers_popped

theorem values_update_last (x : Int) : values (Function.update d (n + 1) x) (n + 1) = x ::ₘ values d n := by
  unfold values
  rw [Multiset.range_succ, Multiset.map_cons, Function.update_self]
  congr 1
  refine Multiset.map_congr rfl fun j hj => Function.update_of_ne ?_ _ _
  exact (Multiset.mem_range.mp hj).ne

theorem Climbs.values_eq (h : Climbs n d i d') (hi : i ≤ n) : values d' n = values d n := by
  induction h with
  | stop => rfl
  | swap _ _ ih =>
    have hp := (parent_le _).trans hi
    rw [ih hp, values_swap (climbFrom_le hp) hp]

theorem Sinks.values_eq (h : Sinks n d i d') (hi : i ≤ n) : values d' n = values d n := by
  induction h with
  | stop => rfl
  | swap _ _ _ ih => rw [ih (sinkTo_le hi), values_swap (sinkTo_le hi) hi]

/-- A call for `i` leaves the indices below `i` alone. -/
theorem Sinks.apply_of_lt (h : Sinks n d i d') {j : Nat} (hj : j < i) : d' j = d j := by
  induction h with
  | stop => rfl
  | @swap d d' i h0 hne _ ih =>
    rcases sinkTo_cases d n i with hs | ⟨hlt, -⟩
    · exact absurd (congrArg d hs) hne
    · rw [ih (by omega), Function.comp_apply, Equiv.swap_apply_of_ne_of_ne (by omega) (by omega)]

/-- No more calls of `heapify_upward` follow one for `i` than this: the index falls until it is that of the
root, and then so does the number of children smaller than the root. -/
def climbRank (d : Nat → Int) (n i : Nat) : Nat :=
  if i = 0 then (if 1 ≤ n ∧ d 1 < d 0 then 1 else 0) + (if 2 ≤ n ∧ d 2 < d 0 then 1 else 0) else i + 2

theorem climbRank_zero_lt (h : climbFrom d n 0 ≠ 0) :
    climbRank (d ∘ Equiv.swap (climbFrom d n 0) 0) n 0 < climbRank d n 0 := by
  unfold climbFrom at h ⊢
  by_cases hr : 2 ≤ n ∧ d 2 < d 0
  · have h1 : (d ∘ Equiv.swap 2 0) 1 = d 1 := congrArg d (Equiv.swap_apply_of_ne_of_ne (by decide) (by decide))
    simp only [Nat.mul_zero, Nat.zero_add, if_pos hr, climbRank, if_true, h1]
    simp only [Function.comp_apply, Equiv.swap_apply_left, Equiv.swap_apply_right]
    split <;> split <;> split <;> omega
  · by_cases hl : 1 ≤ n ∧ d 1 < d 0
    · have h2 : (d ∘ Equiv.swap 1 0) 2 = d 2 := congrArg d (Equiv.swap_apply_of_ne_of_ne (by decide) (by decide))
      simp only [Nat.mul_zero, Nat.zero_add, if_neg hr, if_pos hl, climbRank, if_true, h2]
      simp only [Function.comp_apply, Equiv.swap_apply_left, Equiv.swap_apply_right]
      split <;> split <;> omega
    · simp [hr, hl] at h

theorem climbRank_lt (h : climbFrom d n (parent i) ≠ parent i) :
    climbRank (d ∘ Equiv.swap (climbFrom d n (parent i)) (parent i)) n (parent i) < climbRank d n i := by
  rcases Nat.eq_zero_or_pos i with rfl | hi
  · exact climbRank_zero_lt h
  · have hp := parent_lt hi
    have hrank : climbRank d n i = i + 2 := if_neg hi.ne'
    rw [hrank]
    unfold climbRank
    split
    case isTrue => split <;> split <;> omega
    case isFalse => omega

end SsdScheduler.LinkedHeap
