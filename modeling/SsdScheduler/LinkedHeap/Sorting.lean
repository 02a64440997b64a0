import SsdScheduler.LinkedHeap.CompleteTree
import SsdScheduler.LinkedHeap.ZeroHeap

/-!
# Sorting with the linked heap

The loops of `main`: the first value becomes the root, the others are inserted, and the values are taken out
until only the root is left. `heapify_downward` tests `data` for truth, so that zeros can be left behind.
-/

namespace SsdScheduler.LinkedHeap

open Framework Framework.Heap

def insertAll (root : Addr) (s : State) (rest : List (Addr × Int)) : Option State :=
  rest.foldlM (fun s p => insertNode root s p.1 p.2) s

/-- Taking out while `total_nodes` is not `0`, and the data of the root at the end. -/
def drain (root : Addr) : Nat → State → Option (List Int)
  | 0, _ => none
  | fuel + 1, s =>
    if s.totalNodes ≠ 0 then do
      let (rtn, s) ← takeOut root s
      let out ← drain root fuel s
      some (rtn :: out)
    else do
      let nd ← s.mem root
      some [nd.data]

/-- The values in the order they come out, for the addresses and values of the nodes behind the first. -/
def sortValues (root : Addr) (data : Int) (rest : List (Addr × Int)) : Option (List Int) := do
  let s ← insertAll root (start root data) rest
  drain root (s.totalNodes.toNat + 1) s

/-- The values come out in order, each as often as it occurs. -/
def Sorts (root : Addr) (data : Int) (rest : List (Addr × Int)) : Prop :=
  ∃ out, sortValues root data rest = some out ∧ out.Pairwise (· ≤ ·) ∧ out.Perm (data :: rest.map Prod.snd)

/-- The calls of the first loop. -/
def inserts (rest : List (Addr × Int)) : List Call := rest.map fun p => .insertNode p.1 p.2

/-- The nodes other than the root hold a zero and no negative value, and `latest_node` holds a positive one. -/
structure Stuck (root : Addr) (s : State) : Prop where
  zero : ∃ i p nd, 0 < i ∧ At s.mem root i p ∧ s.mem p = some nd ∧ nd.data = 0
  nonneg : ∀ i p nd, 0 < i → At s.mem root i p → s.mem p = some nd → 0 ≤ nd.data
  last : ∃ nd, deref s.mem s.latestNode = some nd ∧ 0 < nd.data

/-- `root_entry` is not called where the heap is stuck. -/
def TakesFree (root : Addr) (s : State) (c : Call) : Prop := c = .takeOut → ¬ Stuck root s

variable {root : Addr} {s : State} {f : Nat → Addr} {d : Nat → Int} {n fuel : Nat} {out : List Int}
  {rest : List (Addr × Int)} {data : Int}

section Draining

theorem HeapState.stuck_iff (h : HeapState s root f d (n + 1)) : Stuck root s ↔ Blocked d (n + 1) := by
  have hlatest : deref s.mem s.latestNode = some (nodeAt f d (n + 1) (n + 1)) := by
    rw [h.latest (Nat.succ_pos n)]
    exact h.shape.nodes _ le_rfl
  constructor
  · intro hs
    refine ⟨?_, fun j hj hjn => ?_, ?_⟩
    · obtain ⟨i, p, nd, hi, hat, hp, hz⟩ := hs.zero
      obtain ⟨hin, rfl, rfl⟩ := h.shape.eq_nodeAt hat hp
      exact ⟨i, hi, hin, hz⟩
    · exact hs.nonneg j (f j) _ hj (h.shape.at_iff.mpr ⟨hjn, rfl⟩) (h.shape.nodes j hjn)
    · obtain ⟨nd, hnd, hpos⟩ := hs.last
      obtain rfl := Option.some.inj (hlatest.symm.trans hnd)
      exact hpos
  · intro hb
    refine ⟨?_, fun i p nd hi hat hp => ?_, ⟨_, hlatest, hb.last⟩⟩
    · obtain ⟨j, hj, hjn, hz⟩ := hb.zero
      exact ⟨j, f j, _, hj, h.shape.at_iff.mpr ⟨hjn, rfl⟩, h.shape.nodes j hjn, hz⟩
    · obtain ⟨hin, rfl⟩ := h.shape.at_iff.mp hat
      obtain rfl := Option.some.inj ((h.shape.nodes i hin).symm.trans hp)
      exact hb.nonneg i hi hin

/-- The value at the root comes first, and all values come out. -/
theorem HeapState.drain_eq (h : HeapState s root f d n) (hfuel : n < fuel) :
    ∃ out, drain root fuel s = some (d 0 :: out) ∧ (↑(d 0 :: out) : Multiset Int) = values d n := by
  induction n generalizing s d fuel with
  | zero =>
    obtain ⟨fuel, rfl⟩ := Nat.exists_eq_succ_of_ne_zero (by omega : fuel ≠ 0)
    have hroot := h.shape.nodes 0 le_rfl
    rw [h.shape.root_eq] at hroot
    refine ⟨[], ?_, rfl⟩
    simp [drain, h.total, hroot, nodeAt]
  | succ n ih =>
    obtain ⟨fuel, rfl⟩ := Nat.exists_eq_succ_of_ne_zero (by omega : fuel ≠ 0)
    obtain ⟨s', d', htake, hstate, -, hsinks⟩ := h.takeOut_eq
    obtain ⟨out, hdrain, hout⟩ := ih hstate (by omega : n < fuel)
    have hne : s.totalNodes ≠ 0 := by
      rw [h.total]
      omega
    refine ⟨d' 0 :: out, by simp [drain, hne, htake, hdrain], ?_⟩
    rw [values_update_zero, ← hsinks.values_eq (Nat.zero_le n), ← hout]
    rfl

/-- From a tree in order the values come out in order exactly if the heap is never stuck. -/
theorem HeapState.sorted_iff (h : HeapState s root f d n) (hd : LooseHeap d n) (hfuel : n < fuel)
    (hout : drain root fuel s = some out) :
    out.Pairwise (· ≤ ·) ↔ (heapMachine root).Each (TakesFree root) s (List.replicate n .takeOut) := by
  induction n generalizing s d fuel out with
  | zero =>
    obtain ⟨rest, hdrain, hvalues⟩ := h.drain_eq hfuel
    obtain rfl := Option.some.inj (hdrain.symm.trans hout)
    obtain rfl : rest = [] := by
      have hcard := congrArg Multiset.card hvalues
      simpa [values] using hcard
    exact iff_of_true (List.pairwise_singleton _ _) trivial
  | succ n ih =>
    obtain ⟨fuel, rfl⟩ := Nat.exists_eq_succ_of_ne_zero (by omega : fuel ≠ 0)
    obtain ⟨s', d', htake, hstate, -, hsinks⟩ := h.takeOut_eq
    obtain ⟨rest, hdrain, hvalues⟩ := hstate.drain_eq (by omega : n < fuel)
    have hne : s.totalNodes ≠ 0 := by
      rw [h.total]
      omega
    obtain rfl : d 0 :: d' 0 :: rest = out := by simpa [drain, hne, htake, hdrain] using hout
    have hstep : (heapMachine root).step s .takeOut = some (some (d 0), s') := by simp [heapMachine, htake]
    have hmem : ∀ v, v ∈ d' 0 :: rest ↔ ∃ j ≤ n, d' j = v := fun v => by
      rw [← mem_values, ← hvalues, Multiset.mem_coe]
    rw [List.replicate_succ, Machine.Each, hstep, List.pairwise_cons]
    by_cases hb : Blocked d (n + 1)
    · obtain ⟨hpos, k, hk, hz⟩ := hb.takeOut hsinks
      refine iff_of_false (fun hsorted => ?_) fun hfree => hfree.1 rfl (h.stuck_iff.mpr hb)
      have hzero := (hmem 0).mpr ⟨k, hk, hz⟩
      rcases List.mem_cons.mp hzero with heq | hrest
      · omega
      · have hle := (List.pairwise_cons.mp hsorted.2).1 0 hrest
        omega
    · have hfree : TakesFree root s .takeOut := fun _ hs => hb (h.stuck_iff.mp hs)
      have hleast : ∀ v ∈ d' 0 :: rest, d 0 ≤ v := by
        intro v hv
        have hv' : v ∈ values d (n + 1) := by
          rw [values_update_zero, ← hsinks.values_eq (Nat.zero_le n), ← hvalues]
          exact Multiset.mem_cons_of_mem (Multiset.mem_coe.mpr hv)
        obtain ⟨j, hj, rfl⟩ := mem_values.mp hv'
        exact hd.root_le hj
      rw [ih hstate (hd.takeOut hb hsinks) (by omega : n < fuel) hdrain]
      refine ⟨fun hrest => ⟨hfree, fun p hp => ?_⟩, fun hrest => ⟨hleast, hrest.2 _ rfl⟩⟩
      obtain rfl := Option.some.inj hp
      exact hrest.2

/-- Without a zero the heap is never stuck. -/
theorem HeapState.takesFree_of_ne_zero (h : HeapState s root f d n) (h0 : 0 ∉ values d n) :
    (heapMachine root).Each (TakesFree root) s (List.replicate n .takeOut) := by
  induction n generalizing s d with
  | zero => trivial
  | succ n ih =>
    obtain ⟨s', d', htake, hstate, -, hsinks⟩ := h.takeOut_eq
    refine ⟨fun _ hs => ?_, fun p hp => ?_⟩
    · obtain ⟨j, -, hjn, hz⟩ := (h.stuck_iff.mp hs).zero
      exact h0 (mem_values.mpr ⟨j, hjn, hz⟩)
    · have hstep : (heapMachine root).step s .takeOut = some (some (d 0), s') := by simp [heapMachine, htake]
      obtain rfl := Option.some.inj (hstep.symm.trans hp)
      refine ih hstate fun hmem => h0 ?_
      rw [values_update_zero, ← hsinks.values_eq (Nat.zero_le n)]
      exact Multiset.mem_cons_of_mem hmem

end Draining

section Inserting

theorem HeapState.insertAll_eq (h : HeapState s root f d n) (hd : Ordered d (n + 1))
    (hl : (heapMachine root).Each (heapMachine root).legal s (inserts rest)) :
    ∃ s' f' d', insertAll root s rest = some s' ∧ HeapState s' root f' d' (n + rest.length) ∧
      Ordered d' (n + rest.length + 1) ∧ values d' (n + rest.length) = ↑(rest.map Prod.snd) + values d n ∧
      ∀ is, (heapMachine root).Each (TakesFree root) s (inserts rest ++ is) ↔
        (heapMachine root).Each (TakesFree root) s' is := by
  induction rest generalizing s f d n with
  | nil => exact ⟨s, f, d, rfl, h, hd, by simp, fun is => Iff.rfl⟩
  | cons p rest ih =>
    obtain ⟨a, x⟩ := p
    obtain ⟨hfresh, hlegal⟩ := hl
    obtain ⟨s₁, d₁, hinsert, hstate₁, -, hclimbs⟩ := h.insertNode_eq hfresh x
    have hstep : (heapMachine root).step s (.insertNode a x) = some (none, s₁) := by simp [heapMachine, hinsert]
    have hd₁ := hclimbs.ordered le_rfl (upReady_update hd x)
    obtain ⟨s', f', d', hall, hstate, hordered, hvalues, heach⟩ := ih hstate₁ hd₁ (hlegal _ hstep)
    have hlength : n + (rest.length + 1) = n + 1 + rest.length := by omega
    refine ⟨s', f', d', ?_, ?_⟩
    · simpa [insertAll, hinsert] using hall
    · rw [List.length_cons, hlength]
      refine ⟨hstate, hordered, ?_, fun is => ?_⟩
      · rw [hvalues, hclimbs.values_eq le_rfl, values_update_last, List.map_cons, Multiset.add_cons]
        rfl
      · rw [← heach is]
        have hfree : TakesFree root s (.insertNode a x) := fun htake => by cases htake
        refine ⟨fun hinserts => hinserts.2 _ hstep, fun hinserts => ⟨hfree, fun p hp => ?_⟩⟩
        obtain rfl := Option.some.inj (hstep.symm.trans hp)
        exact hinserts

/-- A heap is built in order, whatever the values. -/
theorem built_eq (hl : (heapMachine root).Each (heapMachine root).legal (start root data) (inserts rest)) :
    ∃ s f d, insertAll root (start root data) rest = some s ∧ HeapState s root f d rest.length ∧
      LooseHeap d rest.length ∧ values d rest.length = ↑(data :: rest.map Prod.snd) ∧
      ∀ is, (heapMachine root).Each (TakesFree root) (start root data) (inserts rest ++ is) ↔
        (heapMachine root).Each (TakesFree root) s is := by
  have hordered : Ordered (fun _ => data) 1 := fun j hj hj1 => by omega
  obtain ⟨s, f, d, hall, hstate, hd, hvalues, heach⟩ := (HeapState.initial root data).insertAll_eq hordered hl
  rw [Nat.zero_add] at hstate hd hvalues
  refine ⟨s, f, d, hall, hstate, .of_ordered hd, ?_, heach⟩
  rw [hvalues, ← Multiset.cons_coe, ← Multiset.singleton_add, Multiset.add_comm]
  rfl

/-- All values come out, and in order exactly if the loop that takes them out starts in a state from which the
heap is never stuck. -/
theorem HeapState.sorts_iff_each (h : HeapState s root f d rest.length) (hd : LooseHeap d rest.length)
    (hvalues : values d rest.length = ↑(data :: rest.map Prod.snd))
    (hall : insertAll root (start root data) rest = some s) :
    Sorts root data rest ↔ (heapMachine root).Each (TakesFree root) s (List.replicate rest.length .takeOut) := by
  have hfuel : rest.length < s.totalNodes.toNat + 1 := by
    rw [h.total]
    omega
  obtain ⟨out, hdrain, hout⟩ := h.drain_eq hfuel
  have hsort : sortValues root data rest = some (d 0 :: out) := by simp [sortValues, hall, hdrain]
  have hperm : (d 0 :: out).Perm (data :: rest.map Prod.snd) := Multiset.coe_eq_coe.mp (hout.trans hvalues)
  rw [← h.sorted_iff hd hfuel hdrain]
  constructor
  · intro ⟨out', hout', hsorted, _⟩
    obtain rfl := Option.some.inj (hsort.symm.trans hout')
    exact hsorted
  · intro hsorted
    exact ⟨_, hsort, hsorted, hperm⟩

end Inserting

/-- The list is sorted exactly if no `root_entry` is called where the heap is stuck. -/
theorem sorts_iff (hl : (heapMachine root).Each (heapMachine root).legal (start root data) (inserts rest)) :
    Sorts root data rest ↔ (heapMachine root).Each (TakesFree root) (start root data)
      (inserts rest ++ List.replicate rest.length .takeOut) := by
  obtain ⟨s, f, d, hall, hstate, hd, hvalues, heach⟩ := built_eq hl
  rw [heach]
  exact hstate.sorts_iff_each hd hvalues hall

/-- The heap of `2`, `-1` and `0` is never stuck. -/
theorem sorts_iff_three : (heapMachine 0).Each (TakesFree 0) (start 0 2)
    (inserts [(1, -1), (2, 0)] ++ List.replicate 2 .takeOut) := by
  refine (sorts_iff (by decide)).mp ⟨[-1, 0, 2], by decide, by decide, by decide⟩

/-- The zero is left behind by `1`. -/
theorem zero_left_behind : (heapMachine 0).Each (heapMachine 0).legal (start 0 (-1)) (inserts [(1, 0), (2, 1)]) ∧
    sortValues 0 (-1) [(1, 0), (2, 1)] = some [-1, 1, 0] ∧ ¬ Sorts 0 (-1) [(1, 0), (2, 1)] := by
  have hsort : sortValues 0 (-1) [(1, 0), (2, 1)] = some [-1, 1, 0] := by decide
  refine ⟨by decide, hsort, ?_⟩
  intro ⟨out, hout, hsorted, _⟩
  obtain rfl := Option.some.inj (hsort.symm.trans hout)
  revert hsorted
  decide

/-- Lists without a zero are sorted. -/
theorem sorts_of_ne_zero (hl : (heapMachine root).Each (heapMachine root).legal (start root data) (inserts rest))
    (h0 : ∀ v ∈ data :: rest.map Prod.snd, v ≠ 0) : Sorts root data rest := by
  obtain ⟨s, f, d, hall, hstate, hd, hvalues, -⟩ := built_eq hl
  refine (hstate.sorts_iff_each hd hvalues hall).mpr (hstate.takesFree_of_ne_zero fun hmem => ?_)
  rw [hvalues] at hmem
  exact h0 0 (Multiset.mem_coe.mp hmem) rfl

end SsdScheduler.LinkedHeap
