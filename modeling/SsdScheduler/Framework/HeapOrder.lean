import Mathlib.Data.Set.Function
import Mathlib.Logic.Equiv.Basic

/-!
# Heap order of an indexed sequence

The first `n` values of a sequence are read as a complete binary tree. `UpReady` and `DownReady`
are the two loop invariants: the order holds except at the edge into, respectively out of, one
index, and one exchange moves the exception along.
-/

namespace Framework.Heap

variable {K : Type*} [LinearOrder K] {v : Nat → K} {n i : Nat}

def parent (i : Nat) : Nat := (i - 1) / 2

def Ordered (v : Nat → K) (n : Nat) : Prop := ∀ j, 0 < j → j < n → v (parent j) ≤ v j

/-- Only the edge into `i` may be wrong. -/
structure UpReady (v : Nat → K) (n i : Nat) : Prop where
  edges : ∀ j, 0 < j → j < n → j ≠ i → v (parent j) ≤ v j
  around : ∀ j, 0 < j → j < n → parent j = i → 0 < i → v (parent i) ≤ v j

/-- Only the edges out of `i` may be wrong. -/
structure DownReady (v : Nat → K) (n i : Nat) : Prop where
  edges : ∀ j, 0 < j → j < n → parent j ≠ i → v (parent j) ≤ v j
  around : ∀ j, 0 < j → j < n → parent j = i → 0 < i → v (parent i) ≤ v j

/-- The index of the smallest value among `i` and its children below `n`, the earliest on ties. -/
def smallest (v : Nat → K) (n i : Nat) : Nat :=
  let s := if 2 * i + 1 < n ∧ v (2 * i + 1) < v i then 2 * i + 1 else i
  if 2 * i + 2 < n ∧ v (2 * i + 2) < v s then 2 * i + 2 else s

theorem parent_lt (hi : 0 < i) : parent i < i := by unfold parent; omega

theorem parent_le (i : Nat) : parent i ≤ i := by unfold parent; omega

theorem parent_eq_iff {j : Nat} (hj : 0 < j) : parent j = i ↔ j = 2 * i + 1 ∨ j = 2 * i + 2 := by
  unfold parent; omega

theorem smallest_cases : smallest v n i = i ∨ i < smallest v n i ∧ smallest v n i < n ∧
    parent (smallest v n i) = i ∧ v (smallest v n i) < v i := by
  unfold smallest parent
  by_cases hl : 2 * i + 1 < n ∧ v (2 * i + 1) < v i
  · by_cases hr : 2 * i + 2 < n ∧ v (2 * i + 2) < v (2 * i + 1)
    · have := hr.2.trans hl.2
      simp only [if_pos hl, if_pos hr]
      refine .inr ⟨?_, ?_, ?_, this⟩ <;> omega
    · simp only [if_pos hl, if_neg hr]
      refine .inr ⟨?_, ?_, ?_, hl.2⟩ <;> omega
  · by_cases hr : 2 * i + 2 < n ∧ v (2 * i + 2) < v i
    · simp only [if_neg hl, if_pos hr]
      refine .inr ⟨?_, ?_, ?_, hr.2⟩ <;> omega
    · simp only [if_neg hl, if_neg hr]
      exact .inl trivial

theorem smallest_le_child {j : Nat} (hj : 0 < j) (hjn : j < n) (hp : parent j = i) :
    v (smallest v n i) ≤ v j := by
  unfold smallest
  rcases (parent_eq_iff hj).mp hp with rfl | rfl
  · by_cases hl : v (2 * i + 1) < v i
    · by_cases hr : 2 * i + 2 < n ∧ v (2 * i + 2) < v (2 * i + 1)
      · simp only [hjn, hl, and_self, if_true, if_pos hr]
        exact hr.2.le
      · simp only [hjn, hl, and_self, if_true, if_neg hr]
        exact le_rfl
    · by_cases hr : 2 * i + 2 < n ∧ v (2 * i + 2) < v i
      · simp only [hl, and_false, if_false, if_pos hr]
        exact hr.2.le.trans (not_lt.mp hl)
      · simp only [hl, and_false, if_false, if_neg hr]
        exact not_lt.mp hl
  · generalize (if 2 * i + 1 < n ∧ v (2 * i + 1) < v i then 2 * i + 1 else i) = s
    by_cases hr : v (2 * i + 2) < v s
    · simp only [hjn, hr, and_self, if_true]
      exact le_rfl
    · simp only [hr, and_false, if_false]
      exact not_lt.mp hr

theorem Ordered.root_le (h : Ordered v n) (hi : i < n) : v 0 ≤ v i := by
  induction i using Nat.strong_induction_on with
  | _ i ih =>
    rcases Nat.eq_zero_or_pos i with rfl | hpos
    · exact le_rfl
    · have hp := parent_lt hpos
      exact (ih _ hp (hp.trans hi)).trans (h i hpos hi)

theorem Ordered.downReady_zero (h : ∀ j, 0 < j → j < n → parent j ≠ 0 → v (parent j) ≤ v j) :
    DownReady v n 0 :=
  ⟨h, fun _ _ _ _ h0 => absurd h0 (lt_irrefl 0)⟩

theorem DownReady.congr {w : Nat → K} (h : DownReady v n i) (he : ∀ j < n, v j = w j) :
    DownReady w n i := by
  constructor
  · intro j hj hjn hp
    have := parent_lt hj
    rw [← he j hjn, ← he _ (by omega)]
    exact h.edges j hj hjn hp
  · intro j hj hjn hp hi
    have := parent_lt hj
    have := parent_lt hi
    rw [← he j hjn, ← he _ (by omega)]
    exact h.around j hj hjn hp hi

theorem DownReady.stop (h : DownReady v n i) (hs : smallest v n i = i) : Ordered v n := by
  intro j hj hjn
  by_cases hp : parent j = i
  · have := smallest_le_child (v := v) hj hjn hp
    rwa [hs, ← hp] at this
  · exact h.edges j hj hjn hp

theorem UpReady.stop (h : UpReady v n i) (hs : i = 0 ∨ v (parent i) ≤ v i) : Ordered v n := by
  intro j hj hjn
  rcases eq_or_ne j i with rfl | hne
  · rcases hs with rfl | hs
    · exact absurd hj (lt_irrefl 0)
    · exact hs
  · exact h.edges j hj hjn hne

theorem DownReady.swap (h : DownReady v n i) (hs : smallest v n i ≠ i) :
    DownReady (v ∘ Equiv.swap i (smallest v n i)) n (smallest v n i) := by
  rcases smallest_cases (v := v) (n := n) (i := i) with he | ⟨hlt, hsn, hps, hv⟩
  · exact absurd he hs
  have hle : ∀ j, 0 < j → j < n → parent j = i → v (smallest v n i) ≤ v j :=
    fun j hj hjn hp => smallest_le_child hj hjn hp
  generalize smallest v n i = s at *
  have hat {j : Nat} (h1 : j ≠ i) (h2 : j ≠ s) : (v ∘ Equiv.swap i s) j = v j := by
    simp [Equiv.swap_apply_of_ne_of_ne h1 h2]
  have hati : (v ∘ Equiv.swap i s) i = v s := by simp
  have hats : (v ∘ Equiv.swap i s) s = v i := by simp
  constructor
  · intro j hj hjn hp
    rcases eq_or_ne j i with rfl | hji
    · have hpj := parent_lt hj
      rw [hati, hat hpj.ne hp]
      exact h.around s (by omega) hsn hps hj
    · rcases eq_or_ne j s with rfl | hjs
      · rw [hps, hati, hats]
        exact hv.le
      · rw [hat hji hjs]
        rcases eq_or_ne (parent j) i with hpi | hpi
        · rw [hpi, hati]
          exact hle j hj hjn hpi
        · rw [hat hpi hp]
          exact h.edges j hj hjn hpi
  · intro j hj hjn hp _
    have hpj := parent_lt hj
    rw [hps, hati, hat (by omega) (by omega)]
    have := h.edges j hj hjn (by omega)
    rwa [hp] at this

theorem UpReady.swap (h : UpReady v n i) (hi : 0 < i) (hin : i < n) (hv : v i < v (parent i)) :
    UpReady (v ∘ Equiv.swap i (parent i)) n (parent i) := by
  have hlt := parent_lt hi
  have hself : ∀ j, 0 < j → j < n → parent j = parent i → v (parent i) ≤ v j ∨ j = i := by
    intro j hj hjn hp
    rcases eq_or_ne j i with rfl | hne
    · exact .inr rfl
    · exact .inl (hp ▸ h.edges j hj hjn hne)
  have haround := fun j hj hjn hp => h.around j hj hjn hp hi
  generalize hp : parent i = p at *
  have hat {j : Nat} (h1 : j ≠ i) (h2 : j ≠ p) : (v ∘ Equiv.swap i p) j = v j := by
    simp [Equiv.swap_apply_of_ne_of_ne h1 h2]
  have hati : (v ∘ Equiv.swap i p) i = v p := by simp
  have hatp : (v ∘ Equiv.swap i p) p = v i := by simp
  constructor
  · intro j hj hjn hjp
    rcases eq_or_ne j i with rfl | hji
    · rw [hp, hatp, hati]
      exact hv.le
    · rw [hat hji hjp]
      rcases eq_or_ne (parent j) i with hpi | hpi
      · rw [hpi, hati]
        exact haround j hj hjn hpi
      · rcases eq_or_ne (parent j) p with hpp | hpp
        · rw [hpp, hatp]
          exact hv.le.trans ((hself j hj hjn hpp).resolve_right hji)
        · rw [hat hpi hpp]
          exact h.edges j hj hjn hji
  · intro j hj hjn hjp hp0
    have hpp := parent_lt hp0
    have hedge : v (parent p) ≤ v p := h.edges p hp0 (by omega) (by omega)
    rw [hat (by omega) (by omega)]
    rcases hself j hj hjn hjp with hle | rfl
    · rcases eq_or_ne j i with rfl | hji
      · rw [hati]
        exact hedge
      · rw [hat hji (by have := parent_lt hj; omega)]
        exact hedge.trans hle
    · rw [hati]
      exact hedge

end Framework.Heap
