import SsdScheduler.ArrayHeap.MinHeap

/-!
# `buildMinHeap` of `heap_experiments/min_heap_2/minHeap.c`

`buildMinHeap` fills the array `elem`, while `heapify` and `deleteNode` work on `elem_test`, which only
`insertNode` allocates.
-/

namespace SsdScheduler.ArrayHeap

open Framework Framework.Heap

/-- `struct minHeap` of this file: besides `elem_test` it has an array of nodes. -/
structure BulkHeap extends MinHeap where
  elem : Option (Block Node)

def initMinHeap (mem : Addr → Node) : BulkHeap := { size := 0, elemTest := none, mem := mem, elem := none }

/-- One turn of the first loop: a node of value `data` is appended to `elem`. -/
def appendNode (hp : BulkHeap) (data : Int) : Option BulkHeap := do
  let elem ← (if hp.size ≠ 0 then hp.elem.map (resize · (hp.size + 1)) else some (alloc 1))
  let elem ← store elem hp.size ⟨data⟩
  some { hp with elem := some elem, size := hp.size + 1 }

/-- The second loop, `n` turns of which the last is for index `0`. -/
def heapifyDown (hp : BulkHeap) : Nat → Option BulkHeap
  | 0 => some hp
  | n + 1 => do
    let h ← heapify hp.toMinHeap n
    heapifyDown { hp with toMinHeap := h } n

/-- The first index of the second loop is `(size - 1) / 2`, which is `0` for the empty heap. -/
def buildMinHeap (hp : BulkHeap) (arr : List Int) : Option BulkHeap := do
  let hp ← arr.foldlM appendNode hp
  heapifyDown hp ((((hp.size : Int) - 1).tdiv 2).toNat + 1)

/-- `deleteNode` until `size` is `0`: the values removed. -/
def drain : Nat → MinHeap → Option (List Int)
  | 0, hp => if hp.size = 0 then some [] else none
  | fuel + 1, hp =>
    if hp.size = 0 then some []
    else do
      let (data, hp) ← deleteNode hp
      let rest ← drain fuel hp
      some (data.toList ++ rest)

/-- Insert the nodes one by one, the caller having written a value to each. -/
def insertAll : List (Addr × Int) → MinHeap → Option MinHeap
  | [], hp => some hp
  | (nd, data) :: rest, hp => do
    let hp ← insertNode { hp with mem := Function.update hp.mem nd ⟨data⟩ } nd
    insertAll rest hp

/-- The values removed after a bulk build. -/
def buildAndDrain (mem : Addr → Node) (arr : List Int) : Option (List Int) := do
  let hp ← buildMinHeap (initMinHeap mem) arr
  drain hp.size hp.toMinHeap

/-- The values removed after inserting one by one. -/
def insertAndDrain (mem : Addr → Node) (nds : List Addr) (arr : List Int) : Option (List Int) := do
  let hp ← insertAll (nds.zip arr) (initMinHeap mem).toMinHeap
  drain hp.size hp

/-- A bulk build touches only allocated slots, and the heap it leaves gives out the values in order, the same
as after inserting them one by one. -/
def BulkAgrees (mem : Addr → Node) (arr : List Int) : Prop :=
  ∃ out, buildAndDrain mem arr = some out ∧ out.Pairwise (· ≤ ·) ∧ out.Perm arr ∧
    ∀ nds : List Addr, nds.Nodup → nds.length = arr.length → insertAndDrain mem nds arr = some out

section Inserting

variable {hp : MinHeap} {f : Nat → Addr} {l : List (Addr × Int)} {fuel : Nat} {mem : Addr → Node} {arr : List Int}
  {nds : List Addr}

/-- The values in the heap. -/
def values (hp : MinHeap) (f : Nat → Addr) : Multiset Int := (nodes hp f).map Node.data

theorem insertAll_eq (h : HeapState hp f) (hl : (l.map Prod.fst).Nodup)
    (hnew : ∀ nd ∈ l.map Prod.fst, nd ∉ pointers f hp.size) :
    ∃ hp' f', insertAll l hp = some hp' ∧ HeapState hp' f' ∧ values hp' f' = ↑(l.map Prod.snd) + values hp f := by
  induction l generalizing hp f with
  | nil => exact ⟨hp, f, rfl, h, by simp⟩
  | cons p l ih =>
    obtain ⟨nd, data⟩ := p
    obtain ⟨hfresh, hl⟩ := List.nodup_cons.mp hl
    have hnd : nd ∉ pointers f hp.size := hnew nd (List.mem_cons_self ..)
    obtain ⟨hp₁, f₁, hinsert, hstate, hpointers, hnodes⟩ := insertNode_written h hnd data
    have hrest : ∀ p ∈ l.map Prod.fst, p ∉ pointers f₁ hp₁.size := by
      intro p hp hmem
      rw [hpointers] at hmem
      rcases Multiset.mem_cons.mp hmem with rfl | hold
      · exact hfresh hp
      · exact hnew p (List.mem_cons_of_mem _ hp) hold
    obtain ⟨hp', f', hall, hstate', hvalues⟩ := ih hstate hl hrest
    refine ⟨hp', f', by simp [insertAll, hinsert, hall], hstate', ?_⟩
    rw [hvalues, values, hnodes, Multiset.map_cons, Multiset.add_cons]
    exact (Multiset.cons_add _ _ _).symm

theorem HeapState.drain_eq (h : HeapState hp f) (hfuel : hp.size ≤ fuel) :
    ∃ out, drain fuel hp = some out ∧ out.Pairwise (· ≤ ·) ∧ (out : Multiset Int) = values hp f := by
  induction fuel generalizing hp f with
  | zero =>
    have h0 : hp.size = 0 := Nat.le_zero.mp hfuel
    exact ⟨[], by simp [drain, h0], .nil, by simp [values, nodes, contents, pointers, h0]⟩
  | succ fuel ih =>
    rcases Nat.eq_zero_or_pos hp.size with h0 | hpos
    · exact ⟨[], by simp [drain, h0], .nil, by simp [values, nodes, contents, pointers, h0]⟩
    · obtain ⟨hp', f', hdelete, hstate, hsize, hnodes⟩ := deleteNode_eq h hpos
      obtain ⟨out, hdrain, hsorted, hout⟩ := ih hstate (by omega)
      have hvalues : values hp f = (hp.mem (f 0)).data ::ₘ values hp' f' := by
        rw [values, hnodes, Multiset.map_cons]
        rfl
      have hleast : ∀ v ∈ values hp f, (hp.mem (f 0)).data ≤ v := by
        intro v hv
        obtain ⟨r, hr, rfl⟩ := Multiset.mem_map.mp hv
        obtain ⟨p, hp, rfl⟩ := mem_contents.mp hr
        obtain ⟨j, hj, rfl⟩ := mem_pointers.mp hp
        exact h.heap.root_le hj
      refine ⟨(hp.mem (f 0)).data :: out, ?_, ?_, ?_⟩
      · simp [drain, hpos.ne', hdelete, hdrain]
      · refine List.pairwise_cons.mpr ⟨fun v hv => hleast v ?_, hsorted⟩
        rw [hvalues, ← hout]
        exact Multiset.mem_cons_of_mem hv
      · rw [hvalues, ← hout, Multiset.cons_coe]

/-- Inserting any values one by one and deleting them all sorts them. -/
theorem insertAndDrain_sorts (mem : Addr → Node) (hnds : nds.Nodup) (hlength : nds.length = arr.length) :
    ∃ out, insertAndDrain mem nds arr = some out ∧ out.Pairwise (· ≤ ·) ∧ out.Perm arr := by
  have hfst : (nds.zip arr).map Prod.fst = nds := List.map_fst_zip hlength.le
  have hsnd : (nds.zip arr).map Prod.snd = arr := List.map_snd_zip hlength.ge
  have hempty : HeapState (initMinHeap mem).toMinHeap fun _ => 0 := .empty mem
  obtain ⟨hp, f, hall, hstate, hvalues⟩ := insertAll_eq (l := nds.zip arr) hempty (hfst.symm ▸ hnds)
    (fun nd _ => by simp [pointers, initMinHeap])
  obtain ⟨out, hdrain, hsorted, hout⟩ := hstate.drain_eq le_rfl
  refine ⟨out, by simp [insertAndDrain, hall, hdrain], hsorted, ?_⟩
  rw [hvalues, hsnd] at hout
  exact Multiset.coe_eq_coe.mp (by simpa [values, nodes, contents, pointers, initMinHeap] using hout)

end Inserting

section Building

variable {hp hp' : BulkHeap} {mem : Addr → Node} {arr : List Int} {n : Nat}

/-- Appending does not touch `elem_test`. -/
theorem appendNode_elemTest {data : Int} (h : appendNode hp data = some hp') (hnull : hp.elemTest = none) :
    hp'.elemTest = none ∧ hp'.size = hp.size + 1 := by
  simp only [appendNode, Option.bind_eq_bind, Option.bind_eq_some_iff, Option.some.injEq] at h
  obtain ⟨b, -, b', -, rfl⟩ := h
  exact ⟨hnull, rfl⟩

theorem foldlM_elemTest (h : arr.foldlM appendNode hp = some hp') (hnull : hp.elemTest = none) :
    hp'.elemTest = none ∧ hp'.size = hp.size + arr.length := by
  induction arr generalizing hp with
  | nil =>
    obtain rfl : hp = hp' := by simpa using h
    exact ⟨hnull, rfl⟩
  | cons data arr ih =>
    simp only [List.foldlM_cons, Option.bind_eq_bind, Option.bind_eq_some_iff] at h
    obtain ⟨hp₁, happend, h⟩ := h
    obtain ⟨hnull₁, hsize₁⟩ := appendNode_elemTest happend hnull
    obtain ⟨hnull', hsize'⟩ := ih h hnull₁
    refine ⟨hnull', ?_⟩
    rw [hsize', hsize₁, List.length_cons]
    omega

/-- Without `elem_test` there is no child to compare with. -/
theorem heapify_null {h : MinHeap} (hnull : h.elemTest = none) (i : Nat) :
    heapify h i = if 2 * i + 1 < h.size then none else some h := by
  obtain ⟨size, elemTest, mem⟩ := h
  obtain rfl : elemTest = none := hnull
  by_cases hlt : 2 * i + 1 < size
  · simp [heapify, Heap.heapify, smallerOf, hlt, load]
  · have hright : ¬ 2 * i + 2 < size := by omega
    simp [heapify, Heap.heapify, smallerOf, hlt, hright]

theorem heapifyDown_null (hnull : hp.elemTest = none) :
    heapifyDown hp (n + 1) = if 1 < hp.size then none else some hp := by
  induction n with
  | zero =>
    rw [heapifyDown, heapify_null hnull]
    split <;> rfl
  | succ n ih =>
    rw [heapifyDown, heapify_null hnull]
    by_cases hlt : 2 * (n + 1) + 1 < hp.size
    · have hone : 1 < hp.size := by omega
      simp [hlt, hone]
    · simp only [hlt, if_false, Option.bind_eq_bind, Option.bind_some]
      exact ih

/-- Any value leads to a read through `elem_test`: that of a child of the root in the build, or that of the
root in the first deletion. -/
theorem buildAndDrain_eq_none (harr : arr ≠ []) : buildAndDrain mem arr = none := by
  unfold buildAndDrain buildMinHeap
  cases hfold : arr.foldlM appendNode (initMinHeap mem) with
  | none => rfl
  | some hp =>
    obtain ⟨hnull, hsize⟩ := foldlM_elemTest hfold rfl
    have hpos : 0 < hp.size := by
      have hlength := List.length_pos_iff.mpr harr
      omega
    simp only [Option.bind_eq_bind, Option.bind_some, heapifyDown_null hnull]
    split
    case isTrue => rfl
    case isFalse hone =>
      have hsize : hp.size = 1 := by omega
      simp [hsize, drain, deleteNode, hnull]

theorem buildAndDrain_nil : buildAndDrain mem [] = some [] := rfl

/-- The bulk build agrees with inserting one by one exactly for the empty array. -/
theorem bulk_agrees_iff (mem : Addr → Node) (arr : List Int) : BulkAgrees mem arr ↔ arr = [] := by
  constructor
  · intro ⟨out, hbuild, _⟩
    by_contra harr
    rw [buildAndDrain_eq_none harr] at hbuild
    cases hbuild
  · intro harr
    subst harr
    refine ⟨[], buildAndDrain_nil, .nil, .nil, fun nds _ hlength => ?_⟩
    obtain rfl : nds = [] := List.length_eq_zero_iff.mp hlength
    rfl

/-- Two values, which inserting and deleting sorts. -/
theorem bulk_build_reads_unset :
    ¬ BulkAgrees (fun _ => ⟨0⟩) [2, 1] ∧ insertAndDrain (fun _ => ⟨0⟩) [0, 1] [2, 1] = some [1, 2] := by
  refine ⟨?_, by decide⟩
  intro ⟨out, hbuild, _⟩
  have hnone : buildAndDrain (fun _ => ⟨0⟩) [2, 1] = none := by decide
  rw [hnone] at hbuild
  cases hbuild

end Building

end SsdScheduler.ArrayHeap
