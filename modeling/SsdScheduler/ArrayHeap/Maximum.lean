import SsdScheduler.ArrayHeap.MinHeap
import SsdScheduler.Framework.Machine

/-!
# `getMaxNode` of `heap_experiments/min_heap_3/min_heap_4.c`

The recursion stops at a node without a left child, and otherwise looks at both children. The last inner
node of a heap of even size has no right child: the slot read in its place lies behind the block.
-/

namespace SsdScheduler.ArrayHeap

open Framework Framework.Heap

def getMaxNode (hp : MinHeap) : Nat → Nat → Option Int
  | 0, _ => none
  | fuel + 1, i =>
    if hp.size ≤ 2 * i + 1 then do
      let nd ← load (hp.elemTest.getD []) i
      some (hp.mem nd).data
    else do
      let l ← getMaxNode hp fuel (2 * i + 1)
      let r ← getMaxNode hp fuel (2 * i + 2)
      some (if r ≤ l then l else r)

/-- The calls of the module, where the caller has written `data` to the node `nd`. -/
inductive HeapCall
  | insertNode (nd : Addr) (data : Int)
  | deleteNode

/-- A node is not inserted while it is in the heap. -/
def heapMachine : Machine MinHeap HeapCall (Option Int) where
  legal hp
    | .insertNode nd _ => ∀ j < hp.size, load (hp.elemTest.getD []) j ≠ some nd
    | .deleteNode => True
  step hp
    | .insertNode nd data => (insertNode { hp with mem := Function.update hp.mem nd ⟨data⟩ } nd).map fun hp => (none, hp)
    | .deleteNode => deleteNode hp

instance (hp : MinHeap) : (c : HeapCall) → Decidable (heapMachine.legal hp c)
  | .insertNode nd _ => inferInstanceAs (Decidable (∀ j < hp.size, load (hp.elemTest.getD []) j ≠ some nd))
  | .deleteNode => inferInstanceAs (Decidable True)

/-- The heaps that inserting and deleting reach from an empty one, whatever the memory holds. -/
def Reachable (hp : MinHeap) : Prop := ∃ mem, heapMachine.Reachable ⟨0, none, mem⟩ hp

/-- `getMaxNode(hp, 0)` stays inside the block and returns the greatest value in the heap. -/
def FindsMaximum (hp : MinHeap) : Prop :=
  ∃ v, getMaxNode hp hp.size 0 = some v ∧
    (∃ j < hp.size, ∃ nd ∈ load (hp.elemTest.getD []) j, (hp.mem nd).data = v) ∧
    ∀ j < hp.size, ∃ nd ∈ load (hp.elemTest.getD []) j, (hp.mem nd).data ≤ v

/-- The recursion for `i` gets to `j`. -/
inductive Visits (n i : Nat) : Nat → Prop
  | refl : Visits n i i
  | left {j : Nat} (h : Visits n i j) (hj : 2 * j + 1 < n) : Visits n i (2 * j + 1)
  | right {j : Nat} (h : Visits n i j) (hj : 2 * j + 1 < n) : Visits n i (2 * j + 2)

variable {hp hp' : MinHeap} {f : Nat → Addr} {i j n fuel : Nat} {v : Int} {c : HeapCall} {o : Option Int}

theorem visits_of_parent (hj : 0 < j) (hp : 2 * parent j + 1 < n) : Visits n 0 j := by
  induction j using Nat.strong_induction_on with
  | _ j ih =>
    have hlt := parent_lt hj
    have hparent : Visits n 0 (parent j) := by
      rcases Nat.eq_zero_or_pos (parent j) with h0 | hpos
      · rw [h0]
        exact .refl
      · apply ih _ hlt hpos
        unfold parent at *
        omega
    rcases (parent_eq_iff hj).mp rfl with he | he
    · rw [he]
      exact hparent.left hp
    · rw [he]
      exact hparent.right hp

theorem visits_of_lt (hj : j < n) : Visits n 0 j := by
  rcases Nat.eq_zero_or_pos j with rfl | hpos
  · exact .refl
  · apply visits_of_parent hpos
    unfold parent
    omega

/-- The result at a node is at least the results of the recursion below it. -/
theorem getMaxNode_children (h : getMaxNode hp fuel i = some v) (hi : 2 * i + 1 < hp.size) :
    ∃ fuel' l r, getMaxNode hp fuel' (2 * i + 1) = some l ∧ getMaxNode hp fuel' (2 * i + 2) = some r ∧
      v = if r ≤ l then l else r := by
  cases fuel with
  | zero => cases h
  | succ fuel =>
    rw [getMaxNode, if_neg (not_le.mpr hi)] at h
    simp only [Option.bind_eq_bind, Option.bind_eq_some_iff, Option.some.injEq] at h
    obtain ⟨l, hl, r, hr, hv⟩ := h
    exact ⟨fuel, l, r, hl, hr, hv.symm⟩

theorem getMaxNode_leaf (h : getMaxNode hp fuel i = some v) (hi : hp.size ≤ 2 * i + 1) :
    ∃ nd, load (hp.elemTest.getD []) i = some nd ∧ (hp.mem nd).data = v := by
  cases fuel with
  | zero => cases h
  | succ fuel =>
    rw [getMaxNode, if_pos hi] at h
    simpa only [Option.bind_eq_bind, Option.bind_eq_some_iff, Option.some.injEq] using h

theorem getMaxNode_visits (h : getMaxNode hp fuel i = some v) (hj : Visits hp.size i j) :
    ∃ fuel' u, getMaxNode hp fuel' j = some u ∧ u ≤ v := by
  induction hj with
  | refl => exact ⟨fuel, v, h, le_rfl⟩
  | left _ hlt ih =>
    obtain ⟨fuel', u, hu, hle⟩ := ih
    obtain ⟨fuel'', l, r, hl, -, rfl⟩ := getMaxNode_children hu hlt
    refine ⟨fuel'', l, hl, le_trans ?_ hle⟩
    split <;> omega
  | right _ hlt ih =>
    obtain ⟨fuel', u, hu, hle⟩ := ih
    obtain ⟨fuel'', l, r, -, hr, rfl⟩ := getMaxNode_children hu hlt
    refine ⟨fuel'', r, hr, le_trans ?_ hle⟩
    split <;> omega

/-- The result is one of the values that were read. -/
theorem getMaxNode_mem (h : getMaxNode hp fuel i = some v) :
    ∃ j nd, load (hp.elemTest.getD []) j = some nd ∧ (hp.mem nd).data = v := by
  induction fuel generalizing i v with
  | zero => cases h
  | succ fuel ih =>
    by_cases hi : hp.size ≤ 2 * i + 1
    · obtain ⟨nd, hnd, hv⟩ := getMaxNode_leaf h hi
      exact ⟨i, nd, hnd, hv⟩
    · rw [getMaxNode, if_neg hi] at h
      simp only [Option.bind_eq_bind, Option.bind_eq_some_iff, Option.some.injEq] at h
      obtain ⟨l, hl, r, hr, rfl⟩ := h
      split
      case isTrue => exact ih hl
      case isFalse => exact ih hr

/-- On the way down a heap the values grow, so the result is at least the value it starts from. -/
theorem HeapState.le_getMaxNode (h : HeapState hp f) (hmax : getMaxNode hp fuel i = some v) (hi : i < hp.size) :
    (hp.mem (f i)).data ≤ v := by
  induction fuel generalizing i v with
  | zero => cases hmax
  | succ fuel ih =>
    by_cases hleaf : hp.size ≤ 2 * i + 1
    · obtain ⟨nd, hnd, rfl⟩ := getMaxNode_leaf hmax hleaf
      rw [h.load_lt hi] at hnd
      rw [Option.some.inj hnd]
    · rw [getMaxNode, if_neg hleaf] at hmax
      simp only [Option.bind_eq_bind, Option.bind_eq_some_iff, Option.some.injEq] at hmax
      obtain ⟨l, hl, r, hr, rfl⟩ := hmax
      have hchild : (hp.mem (f (2 * i + 1))).data ≤ l := ih hl (by omega)
      have hparent : parent (2 * i + 1) = i := by
        unfold parent
        omega
      have hedge : (hp.mem (f i)).data ≤ (hp.mem (f (2 * i + 1))).data := by
        have hordered := h.heap.ordered (2 * i + 1) (by omega) (by omega)
        rwa [hparent] at hordered
      have hle := hedge.trans hchild
      split <;> omega

/-- In a heap of odd size every inner node has two children. -/
theorem HeapState.exists_getMaxNode (h : HeapState hp f) (hodd : hp.size % 2 = 1) (hi : i < hp.size)
    (hfuel : hp.size ≤ fuel + i) : ∃ v, getMaxNode hp fuel i = some v := by
  induction fuel generalizing i with
  | zero => omega
  | succ fuel ih =>
    rw [getMaxNode]
    split
    case isTrue => exact ⟨(hp.mem (f i)).data, by simp [h.load_lt hi]⟩
    case isFalse hinner =>
      obtain ⟨l, hl⟩ := ih (i := 2 * i + 1) (by omega) (by omega)
      obtain ⟨r, hr⟩ := ih (i := 2 * i + 2) (by omega) (by omega)
      exact ⟨if r ≤ l then l else r, by simp [hl, hr]⟩

/-- In a heap of even size the recursion gets to the slot behind the last one. -/
theorem HeapState.getMaxNode_even (h : HeapState hp f) (hpos : 0 < hp.size) (heven : hp.size % 2 = 0) (fuel : Nat) :
    getMaxNode hp fuel 0 = none := by
  by_contra hsome
  obtain ⟨v, hv⟩ := Option.ne_none_iff_exists'.mp hsome
  have hlast : Visits hp.size 0 hp.size := by
    apply visits_of_parent hpos
    unfold parent
    omega
  obtain ⟨fuel', u, hu, -⟩ := getMaxNode_visits hv hlast
  obtain ⟨nd, hnd, -⟩ := getMaxNode_leaf hu (by omega)
  have hlt := lt_length_of_load hnd
  rw [h.length] at hlt
  exact absurd hlt (lt_irrefl _)

theorem HeapState.finds_iff (h : HeapState hp f) (hpos : 0 < hp.size) : FindsMaximum hp ↔ hp.size % 2 = 1 := by
  constructor
  · intro ⟨v, hv, _⟩
    by_contra hodd
    rw [h.getMaxNode_even hpos (by omega)] at hv
    cases hv
  · intro hodd
    obtain ⟨v, hv⟩ := h.exists_getMaxNode hodd hpos (Nat.le_add_right hp.size 0)
    refine ⟨v, hv, ?_, ?_⟩
    · obtain ⟨j, nd, hnd, hdata⟩ := getMaxNode_mem hv
      have hlt := lt_length_of_load hnd
      rw [h.length] at hlt
      exact ⟨j, hlt, nd, hnd, hdata⟩
    · intro j hj
      obtain ⟨fuel, u, hu, hle⟩ := getMaxNode_visits hv (visits_of_lt hj)
      exact ⟨f j, h.load_lt hj, (h.le_getMaxNode hu hj).trans hle⟩

/-- Inserting and deleting keep the heap. -/
theorem HeapState.step (h : HeapState hp f) (hl : heapMachine.legal hp c) (hs : heapMachine.step hp c = some (o, hp')) :
    ∃ f', HeapState hp' f' := by
  cases c with
  | insertNode nd data =>
    have hnew : nd ∉ pointers f hp.size := by
      intro hmem
      obtain ⟨j, hj, hfj⟩ := mem_pointers.mp hmem
      exact hl j hj (hfj ▸ h.load_lt hj)
    obtain ⟨hp₁, f', hinsert, hstate, -⟩ := insertNode_written h hnew data
    obtain ⟨hp₂, hs, he⟩ := Option.map_eq_some_iff.mp hs
    obtain rfl : hp₁ = hp₂ := Option.some.inj (hinsert.symm.trans hs)
    obtain ⟨-, rfl⟩ := Prod.mk.inj he
    exact ⟨f', hstate⟩
  | deleteNode =>
    rcases Nat.eq_zero_or_pos hp.size with h0 | hpos
    · have hs : deleteNode hp = some (o, hp') := hs
      rw [deleteNode_empty h0] at hs
      obtain ⟨b, -, he⟩ := Option.map_eq_some_iff.mp hs
      obtain ⟨-, rfl⟩ := Prod.mk.inj he
      exact ⟨f, h⟩
    · obtain ⟨hp₁, f', hdelete, hstate, -⟩ := deleteNode_eq h hpos
      obtain ⟨-, rfl⟩ := Prod.mk.inj (Option.some.inj (hdelete.symm.trans hs))
      exact ⟨f', hstate⟩

theorem HeapState.of_reachable (h : Reachable hp) : ∃ f, HeapState hp f := by
  obtain ⟨mem, hr⟩ := h
  apply Machine.Reachable.invariant hr
  · intro hp c o hp' ⟨f, hf⟩ hl hs
    exact hf.step hl hs
  · exact ⟨fun _ => 0, .empty mem⟩

/-- Over all heaps that can be built, `getMaxNode` reads only slots of the heap and finds the maximum exactly
if the number of nodes is odd. -/
theorem maximum_found_iff (h : Reachable hp) (hpos : 1 ≤ hp.size) : FindsMaximum hp ↔ hp.size % 2 = 1 := by
  obtain ⟨f, hf⟩ := HeapState.of_reachable h
  exact hf.finds_iff hpos

/-- The first nodes of `sfq_init`. -/
theorem maximum_found_iff_three : ∃ hp, Reachable hp ∧ hp.size = 3 ∧ FindsMaximum hp := by
  have hplay : heapMachine.Plays ⟨0, none, fun _ => ⟨0⟩⟩ [.insertNode 0 9, .insertNode 1 2, .insertNode 2 0]
      fun _ hp => hp.size = 3 := by decide
  obtain ⟨tr, hp, hr, -, hsize⟩ := hplay.exists_run
  have hreach : Reachable hp := ⟨_, tr, hr⟩
  exact ⟨hp, hreach, hsize, (maximum_found_iff hreach (by omega)).mpr (by omega)⟩

/-- With two nodes the root has no right child, and slot `2` is read. -/
theorem maximum_out_of_bounds :
    ∃ hp, Reachable hp ∧ hp.size = 2 ∧ load (hp.elemTest.getD []) 2 = none ∧ ¬ FindsMaximum hp := by
  have hplay : heapMachine.Plays ⟨0, none, fun _ => ⟨0⟩⟩ [.insertNode 0 9, .insertNode 1 2] fun _ hp =>
      hp.size = 2 ∧ load (hp.elemTest.getD []) 2 = none ∧ getMaxNode hp hp.size 0 = none := by decide
  obtain ⟨tr, hp, hr, -, hsize, hload, hnone⟩ := hplay.exists_run
  refine ⟨hp, ⟨_, tr, hr⟩, hsize, hload, ?_⟩
  intro ⟨v, hv, _⟩
  simp [hnone] at hv

end SsdScheduler.ArrayHeap
