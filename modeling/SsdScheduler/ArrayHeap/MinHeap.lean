import SsdScheduler.Framework.PointerQueue

/-!
# The array heaps of `heap_experiments`

`heapify`, `insertNode` and `deleteNode` are the same text in `min_heap_2/minHeap.c` and
`min_heap_3/min_heap_4.c` up to the allocator and the printing. The nodes are allocated by the caller.
The pointer `elem_test` is `none` until it is first assigned: using it before is `none`, as is any
access outside the block. Allocations succeed.
-/

namespace SsdScheduler.ArrayHeap

open Framework Framework.Heap

/-- `node *`. -/
abbrev Addr := Nat

/-- `struct node`; the tags are not used. -/
structure Node where
  data : Int
deriving DecidableEq, Repr

/-- `struct minHeap` with the memory of the nodes. -/
structure MinHeap where
  size : Nat
  elemTest : Option (Block Addr)
  mem : Addr → Node

def heapify (hp : MinHeap) (i : Nat) : Option MinHeap :=
  (Heap.heapify Node.data (hp.elemTest.getD []) hp.size (hp.size + 1) hp.mem i).map fun mem => { hp with mem := mem }

/-- The block with one more slot. -/
def grown (hp : MinHeap) : Option (Block Addr) :=
  if hp.size ≠ 0 then hp.elemTest.map (resize · (hp.size + 1)) else some (alloc 1)

def insertNode (hp : MinHeap) (nd : Addr) : Option MinHeap := do
  let elemTest ← grown hp
  let (elemTest, i) ← siftUp Node.data hp.mem (hp.mem nd).data hp.size elemTest hp.size
  let elemTest ← store elemTest i nd
  some { hp with size := hp.size + 1, elemTest := some elemTest }

/-- The result is the value that is printed as deleted, if there was one. -/
def deleteNode (hp : MinHeap) : Option (Option Int × MinHeap) :=
  if hp.size ≠ 0 then do
    let elemTest ← hp.elemTest
    let root ← load elemTest 0
    let last ← load elemTest (hp.size - 1)
    let moved ← store elemTest 0 last
    let shrunk := resize moved (hp.size - 1)
    let hp' ← heapify { hp with size := hp.size - 1, elemTest := some shrunk } 0
    some (some (hp.mem root).data, hp')
  else hp.elemTest.map fun _ => (none, hp)

/-- The slots are a heap of the nodes `f 0, ..., f (size - 1)`, and there are no others. -/
structure HeapState (hp : MinHeap) (f : Nat → Addr) : Prop where
  heap : HeapAt Node.data (hp.elemTest.getD []) hp.mem hp.size f
  length : (hp.elemTest.getD []).length = hp.size

/-- The nodes in the heap. -/
def nodes (hp : MinHeap) (f : Nat → Addr) : Multiset Node := contents f hp.size hp.mem

variable {hp hp' : MinHeap} {f : Nat → Addr} {nd : Addr}

theorem HeapState.empty (mem : Addr → Node) : HeapState ⟨0, none, mem⟩ f := ⟨.empty, rfl⟩

theorem HeapState.load_lt (h : HeapState hp f) {j : Nat} (hj : j < hp.size) :
    load (hp.elemTest.getD []) j = some (f j) := h.heap.slots j hj

theorem HeapState.elemTest_eq (h : HeapState hp f) (hpos : 0 < hp.size) : ∃ b, hp.elemTest = some b := by
  cases hb : hp.elemTest with
  | none =>
    have hlength := h.length
    simp [hb] at hlength
    omega
  | some b => exact ⟨b, rfl⟩

theorem HeapState.grown_eq (h : HeapState hp f) :
    ∃ b, grown hp = some b ∧ b.length = hp.size + 1 ∧ ∀ j < hp.size, load b j = load (hp.elemTest.getD []) j := by
  by_cases h0 : hp.size = 0
  · exact ⟨alloc 1, by simp [grown, h0], by simp [h0], fun j hj => by omega⟩
  · obtain ⟨b, hb⟩ := h.elemTest_eq (Nat.pos_of_ne_zero h0)
    refine ⟨resize b (hp.size + 1), by simp [grown, h0, hb], length_resize, fun j hj => ?_⟩
    rw [load_resize, if_pos (by omega), hb, Option.getD_some]

/-- A node that is not in the heap is inserted. -/
theorem insertNode_eq (h : HeapState hp f) (hnew : nd ∉ pointers f hp.size) :
    ∃ hp' f', insertNode hp nd = some hp' ∧ HeapState hp' f' ∧ hp'.size = hp.size + 1 ∧ hp'.mem = hp.mem ∧
      pointers f' hp'.size = nd ::ₘ pointers f hp.size := by
  obtain ⟨b, hb, hlength, hload⟩ := h.grown_eq
  obtain ⟨b', i, f', hsift, hi, hlength', hheap, hpointers⟩ :=
    (h.heap.block_congr hload).push hnew (by omega)
  refine ⟨{ hp with size := hp.size + 1, elemTest := some (b'.set i (some nd)) }, f', ?_, ⟨hheap, ?_⟩, rfl, rfl,
    hpointers⟩
  · simp only [insertNode, hb, hsift, store_eq hi, Option.bind_eq_bind, Option.bind_some]
  · simp [hlength', hlength]

/-- The caller writes a value to a node that is not in the heap, and inserts it. -/
theorem insertNode_written (h : HeapState hp f) (hnew : nd ∉ pointers f hp.size) (data : Int) :
    ∃ hp' f', insertNode { hp with mem := Function.update hp.mem nd ⟨data⟩ } nd = some hp' ∧ HeapState hp' f' ∧
      pointers f' hp'.size = nd ::ₘ pointers f hp.size ∧ nodes hp' f' = ⟨data⟩ ::ₘ nodes hp f := by
  have hkept : ∀ p ∈ pointers f hp.size, Function.update hp.mem nd ⟨data⟩ p = hp.mem p := by
    intro p hp
    exact Function.update_of_ne (ne_of_mem_of_not_mem hp hnew) _ _
  have hwritten : HeapState { hp with mem := Function.update hp.mem nd ⟨data⟩ } f :=
    ⟨h.heap.congr fun p hp => congrArg Node.data (hkept p hp), h.length⟩
  obtain ⟨hp', f', hinsert, hstate, -, hmem, hpointers⟩ := insertNode_eq hwritten hnew
  refine ⟨hp', f', hinsert, hstate, hpointers, ?_⟩
  have hnodes : nodes hp f = contents f hp.size (Function.update hp.mem nd ⟨data⟩) := (contents_congr hkept).symm
  rw [hnodes, nodes, contents, hpointers, hmem, Multiset.map_cons]
  exact congrArg (· ::ₘ _) (Function.update_self ..)

/-- The least node leaves the heap. -/
theorem deleteNode_eq (h : HeapState hp f) (hpos : 0 < hp.size) :
    ∃ hp' f', deleteNode hp = some (some (hp.mem (f 0)).data, hp') ∧ HeapState hp' f' ∧ hp.size = hp'.size + 1 ∧
      nodes hp f = hp.mem (f 0) ::ₘ nodes hp' f' := by
  obtain ⟨n, hn⟩ := Nat.exists_eq_succ_of_ne_zero hpos.ne'
  obtain ⟨b, hb⟩ := h.elemTest_eq hpos
  have hheap : HeapAt Node.data b hp.mem (n + 1) f := by
    have hold := h.heap
    rwa [hb, hn] at hold
  have hlength : b.length = n + 1 := by
    have hold := h.length
    rwa [hb, hn] at hold
  have hfirst := hheap.slots 0 (by omega)
  have hlast := hheap.slots n (by omega)
  have hload : ∀ j < n, load (resize (b.set 0 (some (f n))) n) j = some (popped f n j) := by
    intro j hj
    rw [load_resize, if_pos hj]
    exact load_popped hheap hj
  obtain ⟨mem, hsift, hheap', -, hcontents⟩ := hheap.pop_of_lt hload (Nat.lt_succ_self n)
  refine ⟨⟨n, some (resize (b.set 0 (some (f n))) n), mem⟩, popped f n, ?_, ⟨hheap', length_resize⟩, hn, ?_⟩
  · simp [deleteNode, heapify, hn, hb, hfirst, hlast, store_eq (by omega : 0 < b.length), hsift]
  · unfold nodes
    rw [hn, Nat.succ_eq_add_one, contents, pointers_popped, Multiset.map_cons]
    exact congrArg _ hcontents.symm

/-- With nothing to delete the block is freed, and nothing changes. -/
theorem deleteNode_empty (h0 : hp.size = 0) : deleteNode hp = hp.elemTest.map fun _ => (none, hp) := by
  simp [deleteNode, h0]

end SsdScheduler.ArrayHeap
