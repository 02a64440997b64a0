import Mathlib.Algebra.Group.End
import Mathlib.Data.Finset.Image
import Mathlib.Data.Finset.Range
import Mathlib.Data.Multiset.Filter
import SsdScheduler.Framework.HeapOrder

/-!
# Heaps of pointers into a store

An allocated block of slots holds pointers, a store maps pointers to records, and the heap order
is that of the records' keys. Sifting up moves the pointers of the block; sifting down leaves the
pointers alone and exchanges the records they point to. Reading a slot that is out of bounds or
was never written, and writing one that is out of bounds, is `none`.
-/

namespace Framework.Heap

variable {A R : Type} {K : Type*}

/-- The slots of an allocated block; `none` is a slot that was never written. -/
abbrev Block (A : Type) := List (Option A)

def load (b : Block A) (i : Nat) : Option A := b[i]?.join

def store (b : Block A) (i : Nat) (a : A) : Option (Block A) :=
  if i < b.length then some (b.set i (some a)) else none

/-- A fresh block of `n` slots. -/
def alloc (n : Nat) : Block A := List.replicate n none

/-- The block moved to `n` slots, with the contents that still fit. -/
def resize (b : Block A) (n : Nat) : Block A := b.take n ++ List.replicate (n - b.length) none

section Slots

variable {b b' : Block A} {i j n : Nat} {a : A}

theorem store_eq (hi : i < b.length) : store b i a = some (b.set i (some a)) := if_pos hi

theorem store_eq_some : store b i a = some b' ↔ i < b.length ∧ b.set i (some a) = b' := by
  simp [store, Option.ite_none_right_eq_some]

theorem load_set (hi : i < b.length) :
    load (b.set i (some a)) j = if i = j then some a else load b j := by
  unfold load
  rw [List.getElem?_set, if_pos hi]
  split <;> rfl

theorem lt_length_of_load (h : load b i = some a) : i < b.length := by
  by_contra hi
  simp [load, List.getElem?_eq_none (not_lt.mp hi)] at h

@[simp] theorem length_alloc : (alloc n : Block A).length = n := by simp [alloc]

@[simp] theorem length_resize : (resize b n).length = n := by
  simp only [resize, List.length_append, List.length_take, List.length_replicate]
  omega

theorem load_resize : load (resize b n) i = if i < n then load b i else none := by
  unfold load resize
  rw [List.getElem?_append, List.getElem?_take, List.getElem?_replicate, List.length_take]
  by_cases hn : i < n
  · by_cases hb : i < b.length
    · simp [hn, hb]
    · have h1 : ¬ i < min n b.length := by omega
      have h2 : i - min n b.length < n - b.length := by omega
      simp [hn, h1, h2, List.getElem?_eq_none (not_lt.mp hb)]
  · have h1 : ¬ i < min n b.length := by omega
    have h2 : ¬ i - min n b.length < n - b.length := by omega
    simp [hn, h1, h2]

end Slots

/-- The exchange of two records in the store. -/
def heapSwap [DecidableEq A] (mem : A → R) (p q : A) : A → R :=
  Function.update (Function.update mem p (mem q)) q (mem p)

section Algorithms

variable [LinearOrder K] (key : R → K)

/-- The sift-up loop for a record of key `k` with the hole at `i`: pointers of greater keys move
down. The result is the block and the final hole. -/
def siftUp (mem : A → R) (k : K) : Nat → Block A → Nat → Option (Block A × Nat)
  | 0, b, i => if i = 0 then some (b, i) else none
  | fuel + 1, b, i =>
    if i = 0 then some (b, i)
    else do
      let p ← load b (parent i)
      if k < key (mem p) then
        let b ← store b i p
        siftUp mem k fuel b (parent i)
      else some (b, i)

/-- The index `c` if it is below `n` and its record has a smaller key than that of index `s`. -/
def smallerOf (b : Block A) (n : Nat) (mem : A → R) (c s : Nat) : Option Nat :=
  if c < n then do
    let p ← load b c
    let q ← load b s
    some (if key (mem p) < key (mem q) then c else s)
  else some s

/-- The sift-down recursion on the records behind the first `n` slots, from index `i`. -/
def heapify [DecidableEq A] (b : Block A) (n : Nat) : Nat → (A → R) → Nat → Option (A → R)
  | 0, _, _ => none
  | fuel + 1, mem, i => do
    let s ← smallerOf key b n mem (2 * i + 1) i
    let s ← smallerOf key b n mem (2 * i + 2) s
    if s ≠ i then
      let p ← load b i
      let q ← load b s
      heapify b n fuel (heapSwap mem p q) s
    else some mem

end Algorithms

section Rearranging

variable {f : Nat → A} {n i j : Nat} {mem mem' : A → R}

/-- A permutation of the indices below `n`. -/
def Below (n : Nat) (e : Equiv.Perm Nat) : Prop := ∀ j, n ≤ j → e j = j

theorem Below.one : Below n 1 := fun _ _ => rfl

theorem Below.mul {d e : Equiv.Perm Nat} (hd : Below n d) (he : Below n e) : Below n (d * e) := by
  intro j hj
  rw [Equiv.Perm.mul_apply, he j hj, hd j hj]

theorem Below.swap (hi : i < n) (hj : j < n) : Below n (Equiv.swap i j) := by
  intro k hk
  exact Equiv.swap_apply_of_ne_of_ne (by omega) (by omega)

theorem Below.lt {e : Equiv.Perm Nat} (he : Below n e) (hj : j < n) : e j < n := by
  by_contra h
  have := e.injective (he (e j) (not_lt.mp h))
  omega

/-- Reading the first `n` places through a permutation of them rearranges the values. -/
theorem Below.map_range {e : Equiv.Perm Nat} (he : Below n e) {β : Type*} (h : Nat → β) :
    (Multiset.range n).map (h ∘ e) = (Multiset.range n).map h := by
  have hm : (Finset.range n).map e.toEmbedding = Finset.range n := by
    apply Finset.map_perm
    intro j hj
    by_contra hn
    exact hj (he j (by simpa using hn))
  have hv : (Multiset.range n).map e = Multiset.range n := congrArg Finset.val hm
  conv_rhs => rw [← hv]
  rw [Multiset.map_map]

/-- `mem'` holds the records that `mem` holds behind `f 0, ..., f (n - 1)`, permuted, and agrees
with `mem` everywhere else. -/
def Rearranged (f : Nat → A) (n : Nat) (mem mem' : A → R) : Prop :=
  ∃ e : Equiv.Perm Nat, Below n e ∧ (∀ j < n, mem' (f j) = mem (f (e j))) ∧
    ∀ a, (∀ j < n, f j ≠ a) → mem' a = mem a

theorem Rearranged.refl : Rearranged f n mem mem := ⟨1, .one, fun _ _ => rfl, fun _ _ => rfl⟩

theorem Rearranged.trans {mem'' : A → R} (h : Rearranged f n mem mem') (h' : Rearranged f n mem' mem'') :
    Rearranged f n mem mem'' := by
  obtain ⟨d, hd, hin, hout⟩ := h
  obtain ⟨e, he, hin', hout'⟩ := h'
  refine ⟨d * e, hd.mul he, ?_, ?_⟩
  · intro j hj
    rw [hin' j hj, hin _ (he.lt hj), Equiv.Perm.mul_apply]
  · intro a ha
    rw [hout' a ha, hout a ha]

theorem heapSwap_apply [DecidableEq A] (hf : ∀ i < n, ∀ j < n, f i = f j → i = j) (hi : i < n) (hj : j < n)
    {k : Nat} (hk : k < n) : heapSwap mem (f i) (f j) (f k) = mem (f (Equiv.swap i j k)) := by
  unfold heapSwap
  rcases eq_or_ne k j with rfl | hkj
  · simp
  · have h1 : f k ≠ f j := fun h => hkj (hf k hk j hj h)
    rw [Function.update_of_ne h1]
    rcases eq_or_ne k i with rfl | hki
    · simp
    · have h2 : f k ≠ f i := fun h => hki (hf k hk i hi h)
      rw [Function.update_of_ne h2, Equiv.swap_apply_of_ne_of_ne hki hkj]

theorem heapSwap_of_ne [DecidableEq A] {p q a : A} (hp : p ≠ a) (hq : q ≠ a) : heapSwap mem p q a = mem a := by
  rw [heapSwap, Function.update_of_ne hq.symm, Function.update_of_ne hp.symm]

theorem Rearranged.swap [DecidableEq A] (hf : ∀ i < n, ∀ j < n, f i = f j → i = j) (hi : i < n) (hj : j < n) :
    Rearranged f n mem (heapSwap mem (f i) (f j)) :=
  ⟨Equiv.swap i j, .swap hi hj, fun _ hk => heapSwap_apply hf hi hj hk,
    fun _ ha => heapSwap_of_ne (ha i hi) (ha j hj)⟩

/-- `heapify` only exchanges records, on any slots. -/
theorem heapify_forall [DecidableEq A] [LinearOrder K] {key : R → K} {b : Block A} {P : R → Prop} {fuel : Nat}
    (h : heapify key b n fuel mem i = some mem') (hp : ∀ a, P (mem a)) (a : A) : P (mem' a) := by
  induction fuel generalizing mem i with
  | zero => simp [heapify] at h
  | succ fuel ih =>
    simp only [heapify, Option.bind_eq_bind, Option.bind_eq_some_iff] at h
    obtain ⟨s, -, s', -, h⟩ := h
    split at h
    · simp only [Option.bind_eq_some_iff] at h
      obtain ⟨p, -, q, -, h⟩ := h
      apply ih h
      intro c
      simp only [heapSwap, Function.update_apply]
      split_ifs
      all_goals exact hp _
    · exact Option.some.inj h ▸ hp a

/-- More fuel changes nothing. -/
theorem heapify_mono [DecidableEq A] [LinearOrder K] {key : R → K} {b : Block A} {fuel fuel' : Nat}
    (h : heapify key b n fuel mem i = some mem') (hle : fuel ≤ fuel') : heapify key b n fuel' mem i = some mem' := by
  induction fuel generalizing mem i fuel' with
  | zero => simp [heapify] at h
  | succ fuel ih =>
    cases fuel' with
    | zero => omega
    | succ fuel' =>
      simp only [heapify, Option.bind_eq_bind, Option.bind_eq_some_iff] at h ⊢
      obtain ⟨s, hs, s', hs', h⟩ := h
      refine ⟨s, hs, s', hs', ?_⟩
      split at h
      case isTrue hne =>
        rw [if_pos hne]
        simp only [Option.bind_eq_some_iff] at h ⊢
        obtain ⟨p, hp, q, hq, h⟩ := h
        exact ⟨p, hp, q, hq, ih h (Nat.le_of_succ_le_succ hle)⟩
      case isFalse heq =>
        rw [if_neg heq]
        exact h

end Rearranging

section Specs

variable [LinearOrder K] {key : R → K} {f g : Nat → A} {n i : Nat} {b : Block A}

private theorem smallerOf_eq {mem : A → R} (hb : ∀ j < n, load b j = some (f j)) {c s : Nat}
    (hs : s < n) : smallerOf key b n mem c s =
      some (if c < n ∧ key (mem (f c)) < key (mem (f s)) then c else s) := by
  by_cases hc : c < n
  · simp [smallerOf, hc, hb c hc, hb s hs]
  · simp [smallerOf, hc]

private theorem heapify_succ [DecidableEq A] {mem : A → R} (hb : ∀ j < n, load b j = some (f j))
    (hi : i < n) (fuel : Nat) :
    heapify key b n (fuel + 1) mem i =
      if smallest (fun j => key (mem (f j))) n i = i then some mem
      else heapify key b n fuel
        (heapSwap mem (f i) (f (smallest (fun j => key (mem (f j))) n i)))
        (smallest (fun j => key (mem (f j))) n i) := by
  rw [heapify, smallerOf_eq hb hi]
  unfold smallest
  have hsn : (if 2 * i + 1 < n ∧ key (mem (f (2 * i + 1))) < key (mem (f i)) then 2 * i + 1 else i) < n := by
    split <;> omega
  generalize (if 2 * i + 1 < n ∧ key (mem (f (2 * i + 1))) < key (mem (f i)) then 2 * i + 1 else i) = s at *
  simp only [Option.bind_eq_bind, Option.bind_some, smallerOf_eq hb hsn]
  have htn : (if 2 * i + 2 < n ∧ key (mem (f (2 * i + 2))) < key (mem (f s)) then 2 * i + 2 else s) < n := by
    split <;> omega
  generalize (if 2 * i + 2 < n ∧ key (mem (f (2 * i + 2))) < key (mem (f s)) then 2 * i + 2 else s) = t at *
  by_cases ht : t = i
  · simp [ht]
  · simp [ht, hb _ hi, hb _ htn]

/-- The recursion stops at a record that is not greater than its children. -/
theorem heapify_stop [DecidableEq A] {mem : A → R} (hb : ∀ j < n, load b j = some (f j)) (hi : i < n) (fuel : Nat)
    (hle : ∀ j, 0 < j → j < n → parent j = i → key (mem (f i)) ≤ key (mem (f j))) :
    heapify key b n (fuel + 1) mem i = some mem := by
  rw [heapify_succ hb hi]
  rcases smallest_cases (v := fun j => key (mem (f j))) (n := n) (i := i) with hs | ⟨hlt, hsn, hp, hv⟩
  · exact if_pos hs
  · exact absurd hv (not_lt.mpr (hle _ (Nat.zero_lt_of_lt hlt) hsn hp))

variable (key)

/-- With enough fuel the recursion ends, permutes the records behind the slots, and repairs the
heap order if only `i` violated it. -/
theorem heapify_spec [DecidableEq A] (hb : ∀ j < n, load b j = some (f j))
    (hf : ∀ i < n, ∀ j < n, f i = f j → i = j) (fuel : Nat) (mem : A → R) (hi : i < n)
    (hfuel : n ≤ fuel + i) :
    ∃ mem', heapify key b n fuel mem i = some mem' ∧ Rearranged f n mem mem' ∧
      (DownReady (fun j => key (mem (f j))) n i → Ordered (fun j => key (mem' (f j))) n) := by
  induction fuel generalizing mem i with
  | zero => omega
  | succ fuel ih =>
    rw [heapify_succ hb hi]
    rcases smallest_cases (v := fun j => key (mem (f j))) (n := n) (i := i) with hs | ⟨hlt, hsn, -, -⟩
    · exact ⟨mem, if_pos hs, .refl, fun h => h.stop hs⟩
    · rw [if_neg (by omega)]
      obtain ⟨mem', he, hre, hord⟩ :=
        ih (heapSwap mem (f i) (f (smallest (fun j => key (mem (f j))) n i))) hsn (by omega)
      refine ⟨mem', he, (Rearranged.swap hf hi hsn).trans hre, fun h => hord ?_⟩
      have hd := h.swap (by omega : smallest (fun j => key (mem (f j))) n i ≠ i)
      exact hd.congr fun j hj => congrArg key (heapSwap_apply hf hi hsn hj).symm

/-- The sift-up loop ends; filling the final hole with `a` permutes the pointers of the block
filled at `i`, and repairs the heap order if only the edge into `i` violated it. -/
theorem siftUp_spec (mem : A → R) (fuel : Nat) (hb : ∀ j < n, j ≠ i → load b j = some (g j))
    (hi : i < n) (hn : n ≤ b.length) (hfuel : i ≤ fuel) :
    ∃ b' i' e, siftUp key mem (key (mem (g i))) fuel b i = some (b', i') ∧ b'.length = b.length ∧
      i' < n ∧ Below n e ∧ g (e i') = g i ∧ (∀ j < n, j ≠ i' → load b' j = some (g (e j))) ∧
      (UpReady (fun j => key (mem (g j))) n i → Ordered (fun j => key (mem (g (e j)))) n) := by
  induction fuel generalizing b i g with
  | zero =>
    obtain rfl : i = 0 := by omega
    exact ⟨b, 0, 1, rfl, rfl, hi, .one, rfl, hb, fun h => h.stop (.inl rfl)⟩
  | succ fuel ih =>
    rcases Nat.eq_zero_or_pos i with rfl | hpos
    · exact ⟨b, 0, 1, by simp [siftUp], rfl, hi, .one, rfl, hb, fun h => h.stop (.inl rfl)⟩
    have hp := parent_lt hpos
    have hload := hb (parent i) (by omega) (by omega)
    rcases le_or_gt (key (mem (g (parent i)))) (key (mem (g i))) with hk | hk
    · refine ⟨b, i, 1, ?_, rfl, hi, .one, rfl, hb, fun h => h.stop (.inr hk)⟩
      simp [siftUp, hpos.ne', hload, not_lt.mpr hk]
    · have hg : (g ∘ Equiv.swap i (parent i)) (parent i) = g i := by simp
      have hb' : ∀ j < n, j ≠ parent i →
          load (b.set i (some (g (parent i)))) j = some ((g ∘ Equiv.swap i (parent i)) j) := by
        intro j hj hne
        rw [load_set (by omega)]
        rcases eq_or_ne i j with rfl | hij
        · simp
        · rw [if_neg hij, hb j hj hij.symm]
          simp [Equiv.swap_apply_of_ne_of_ne hij.symm hne]
      obtain ⟨b', i', e, he, hlen, hi', hbe, hge, hbl, hord⟩ :=
        ih hb' (by omega) (by simpa using hn) (by omega)
      refine ⟨b', i', Equiv.swap i (parent i) * e, ?_, by simpa using hlen, hi', ?_, ?_, ?_, ?_⟩
      · rw [hg] at he
        simp [siftUp, hpos.ne', hload, hk, store_eq (hi.trans_le hn), he]
      · exact (Below.swap hi (by omega)).mul hbe
      · simpa [hg] using hge
      · simpa using hbl
      · intro h
        exact hord (h.swap hpos hi hk)

end Specs

end Framework.Heap
