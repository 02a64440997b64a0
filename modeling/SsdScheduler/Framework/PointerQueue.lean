import SsdScheduler.Framework.PointerHeap

/-!
# Priority queues of pointers

`HeapAt` describes a block whose first `n` slots are a heap of distinct pointers `f 0, ..., f (n - 1)`.
Inserting sifts a pointer up from slot `n`; removing the least element moves the pointer of the last
slot to the root and sifts the records down.
-/

namespace Framework.Heap

variable {A R : Type} {K : Type*} [LinearOrder K] {key : R → K} {b b' : Block A} {mem mem' : A → R} {n i : Nat}
  {f : Nat → A} {a p : A}

structure HeapAt (key : R → K) (b : Block A) (mem : A → R) (n : Nat) (f : Nat → A) : Prop where
  slots : ∀ j < n, load b j = some (f j)
  distinct : ∀ i < n, ∀ j < n, f i = f j → i = j
  ordered : Ordered (fun j => key (mem (f j))) n

/-- The pointers in the queue. -/
def pointers (f : Nat → A) (n : Nat) : Multiset A := (Multiset.range n).map f

theorem mem_pointers : p ∈ pointers f n ↔ ∃ j < n, f j = p := by
  simp [pointers]

@[simp] theorem card_pointers : (pointers f n).card = n := by
  simp [pointers]

/-- The records in the queue. -/
def contents (f : Nat → A) (n : Nat) (mem : A → R) : Multiset R := (pointers f n).map mem

theorem contents_congr (h : ∀ p ∈ pointers f n, mem' p = mem p) : contents f n mem' = contents f n mem :=
  Multiset.map_congr rfl h

theorem mem_contents {r : R} : r ∈ contents f n mem ↔ ∃ p ∈ pointers f n, mem p = r :=
  Multiset.mem_map

namespace HeapAt

theorem empty : HeapAt key b mem 0 f where
  slots _ hj := absurd hj (Nat.not_lt_zero _)
  distinct _ hj := absurd hj (Nat.not_lt_zero _)
  ordered _ _ hj := absurd hj (Nat.not_lt_zero _)

theorem root_le (h : HeapAt key b mem n f) {j : Nat} (hj : j < n) : key (mem (f 0)) ≤ key (mem (f j)) :=
  h.ordered.root_le hj

theorem nodup (h : HeapAt key b mem n f) : (pointers f n).Nodup := by
  apply Multiset.Nodup.map_on
  · intro i hi j hj hij
    exact h.distinct i (Multiset.mem_range.mp hi) j (Multiset.mem_range.mp hj) hij
  · exact Multiset.nodup_range n

theorem congr (h : HeapAt key b mem n f) (hm : ∀ p ∈ pointers f n, key (mem' p) = key (mem p)) :
    HeapAt key b mem' n f where
  slots := h.slots
  distinct := h.distinct
  ordered := by
    intro j hj hjn
    have hp := parent_lt hj
    change key (mem' _) ≤ key (mem' _)
    rw [hm _ (mem_pointers.mpr ⟨j, hjn, rfl⟩), hm _ (mem_pointers.mpr ⟨parent j, by omega, rfl⟩)]
    exact h.ordered j hj hjn

theorem block_congr (h : HeapAt key b mem n f) (hb : ∀ j < n, load b' j = load b j) : HeapAt key b' mem n f where
  slots j hj := (hb j hj).trans (h.slots j hj)
  distinct := h.distinct
  ordered := h.ordered

end HeapAt

/-- Sifting up reads nothing but the keys. -/
theorem siftUp_congr (hk : ∀ p, key (mem' p) = key (mem p)) (k : K) (fuel : Nat) :
    siftUp key mem' k fuel b i = siftUp key mem k fuel b i := by
  induction fuel generalizing b i with
  | zero => rfl
  | succ fuel ih => simp only [siftUp, hk, ih]

section Push

private theorem update_distinct (h : HeapAt key b mem n f) (ha : a ∉ pointers f n) {j k : Nat} (hj : j < n + 1)
    (hk : k < n + 1) (hjk : Function.update f n a j = Function.update f n a k) : j = k := by
  have hlt {j : Nat} (hj : j ≠ n) : Function.update f n a j = f j := Function.update_of_ne hj _ _
  have hself : Function.update f n a n = a := Function.update_self ..
  rcases eq_or_ne j n with hjn | hjn <;> rcases eq_or_ne k n with hkn | hkn
  · rw [hjn, hkn]
  · rw [hjn, hself, hlt hkn] at hjk
    exact absurd (mem_pointers.mpr ⟨k, by omega, hjk.symm⟩) ha
  · rw [hkn, hself, hlt hjn] at hjk
    exact absurd (mem_pointers.mpr ⟨j, by omega, hjk⟩) ha
  · rw [hlt hjn, hlt hkn] at hjk
    exact h.distinct j (by omega) k (by omega) hjk

/-- `a` written to the final hole of the sift-up loop joins the heap. -/
theorem HeapAt.push (h : HeapAt key b mem n f) (ha : a ∉ pointers f n) (hn : n < b.length) :
    ∃ b' i f', siftUp key mem (key (mem a)) n b n = some (b', i) ∧ i < b'.length ∧ b'.length = b.length ∧
      HeapAt key (b'.set i (some a)) mem (n + 1) f' ∧ pointers f' (n + 1) = a ::ₘ pointers f n := by
  have hlt {j : Nat} (hj : j < n) : Function.update f n a j = f j := Function.update_of_ne (by omega) _ _
  have hself : Function.update f n a n = a := Function.update_self ..
  have hslots : ∀ j < n + 1, j ≠ n → load b j = some (Function.update f n a j) := by
    intro j hj hne
    rw [hlt (by omega)]
    exact h.slots j (by omega)
  obtain ⟨b', i, e, he, hlen, hi, hbe, hei, hbl, hord⟩ :=
    siftUp_spec key mem n hslots (Nat.lt_succ_self n) hn le_rfl
  rw [hself] at he hei
  refine ⟨b', i, Function.update f n a ∘ e, he, by omega, hlen, ⟨?_, ?_, ?_⟩, ?_⟩
  · intro j hj
    rw [load_set (by omega)]
    rcases eq_or_ne i j with rfl | hij
    · rw [if_pos rfl, Function.comp_apply, hei]
    · rw [if_neg hij]
      exact hbl j hj hij.symm
  · intro j hj k hk hjk
    exact e.injective (update_distinct h ha (hbe.lt hj) (hbe.lt hk) hjk)
  · apply hord
    constructor
    · intro j hj hjn hne
      have hp := parent_lt hj
      rw [hlt (by omega), hlt (by omega)]
      exact h.ordered j hj (by omega)
    · intro j hj hjn hp
      have := parent_lt hj
      omega
  · unfold pointers
    rw [hbe.map_range, Multiset.range_succ, Multiset.map_cons, hself]
    congr 1
    exact Multiset.map_congr rfl fun j hj => hlt (Multiset.mem_range.mp hj)

end Push

section Pop

/-- The pointers after the last of `n + 1` has replaced the root. -/
def popped (f : Nat → A) (n : Nat) : Nat → A := fun j => if j = 0 then f n else f j

theorem pointers_popped : pointers f (n + 1) = f 0 ::ₘ pointers (popped f n) n := by
  have hswap : Below (n + 1) (Equiv.swap 0 n) := .swap (Nat.succ_pos n) (Nat.lt_succ_self n)
  have hlast : Equiv.swap 0 n n = 0 := Equiv.swap_apply_right 0 n
  have hrest : ∀ j < n, f (Equiv.swap 0 n j) = popped f n j := by
    intro j hj
    unfold popped
    split
    case isTrue h0 => rw [h0, Equiv.swap_apply_left]
    case isFalse h0 => rw [Equiv.swap_apply_of_ne_of_ne h0 (by omega)]
  unfold pointers
  rw [← hswap.map_range, Multiset.range_succ, Multiset.map_cons, Function.comp_apply, hlast]
  congr 1
  exact Multiset.map_congr rfl fun j hj => hrest j (Multiset.mem_range.mp hj)

theorem popped_distinct (h : HeapAt key b mem (n + 1) f) {j k : Nat} (hj : j < n) (hk : k < n)
    (hjk : popped f n j = popped f n k) : j = k := by
  unfold popped at hjk
  split at hjk <;> split at hjk
  · omega
  · have := h.distinct _ (by omega) _ (by omega) hjk
    omega
  · have := h.distinct _ (by omega) _ (by omega) hjk
    omega
  · exact h.distinct _ (by omega) _ (by omega) hjk

theorem load_popped (h : HeapAt key b mem (n + 1) f) {j : Nat} (hj : j < n) :
    load (b.set 0 (some (f n))) j = some (popped f n j) := by
  rw [load_set (lt_length_of_load (h.slots 0 (Nat.succ_pos n)))]
  unfold popped
  split
  case isTrue h0 => rw [if_pos h0.symm]
  case isFalse h0 =>
    rw [if_neg (Ne.symm h0)]
    exact h.slots j (by omega)

variable [DecidableEq A]

/-- Sifting down from the replaced root restores the heap without the least record. -/
theorem HeapAt.pop (h : HeapAt key b mem (n + 1) f) (hb : ∀ j < n, load b' j = some (popped f n j))
    (hn : 0 < n) : ∃ mem', heapify key b' n n mem 0 = some mem' ∧ HeapAt key b' mem' n (popped f n) ∧
      (∀ p ∉ pointers (popped f n) n, mem' p = mem p) ∧
      contents (popped f n) n mem' = contents (popped f n) n mem := by
  have hd : ∀ j < n, ∀ k < n, popped f n j = popped f n k → j = k := fun _ hj _ hk => popped_distinct h hj hk
  obtain ⟨mem', he, ⟨e, hbe, hin, hout⟩, hord⟩ := heapify_spec key hb hd n mem hn le_rfl
  refine ⟨mem', he, ⟨hb, hd, ?_⟩, ?_, ?_⟩
  · apply hord
    apply Ordered.downReady_zero
    intro j hj hjn hp
    have h0 : popped f n j = f j := if_neg hj.ne'
    have h1 : popped f n (parent j) = f (parent j) := if_neg hp
    rw [h0, h1]
    exact h.ordered j hj (by omega)
  · intro p hp
    apply hout
    intro j hj he
    exact hp (mem_pointers.mpr ⟨j, hj, he⟩)
  · unfold contents pointers
    rw [Multiset.map_map, Multiset.map_map, ← hbe.map_range (mem ∘ popped f n)]
    exact Multiset.map_congr rfl fun j hj => hin j (Multiset.mem_range.mp hj)

/-- The same with more fuel, and for the last element, where nothing is left to sift. -/
theorem HeapAt.pop_of_lt (h : HeapAt key b mem (n + 1) f) (hb : ∀ j < n, load b' j = some (popped f n j)) {fuel : Nat}
    (hfuel : n < fuel) : ∃ mem', heapify key b' n fuel mem 0 = some mem' ∧ HeapAt key b' mem' n (popped f n) ∧
      (∀ p ∉ pointers (popped f n) n, mem' p = mem p) ∧
      contents (popped f n) n mem' = contents (popped f n) n mem := by
  rcases Nat.eq_zero_or_pos n with rfl | hn
  · obtain ⟨fuel, rfl⟩ := Nat.exists_eq_succ_of_ne_zero hfuel.ne'
    exact ⟨mem, by simp [heapify, smallerOf], .empty, fun _ _ => rfl, rfl⟩
  · obtain ⟨mem', he, hheap, hframe, hcontents⟩ := h.pop hb hn
    exact ⟨mem', heapify_mono he hfuel.le, hheap, hframe, hcontents⟩

end Pop

end Framework.Heap
