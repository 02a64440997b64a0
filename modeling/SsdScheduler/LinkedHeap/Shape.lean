import SsdScheduler.LinkedHeap.MinHeap
import SsdScheduler.LinkedHeap.Passes

/-!
# The shape of the linked heap

The nodes of a tree of the indices `0, ..., n` are `f 0, ..., f n`. The digits of an index lead to its
node, so that a node is attached and cut off where the complete tree has its last place.
-/

namespace SsdScheduler.LinkedHeap

open Framework Framework.Heap

/-- The node of index `i` of a complete tree. -/
def nodeAt (f : Nat → Addr) (d : Nat → Int) (n i : Nat) : Node where
  data := d i
  left := if 2 * i + 1 ≤ n then some (f (2 * i + 1)) else none
  right := if 2 * i + 2 ≤ n then some (f (2 * i + 2)) else none
  parent := if i = 0 then none else some (f (parent i))

structure Shape (mem : Memory) (root : Addr) (f : Nat → Addr) (d : Nat → Int) (n : Nat) : Prop where
  root_eq : f 0 = root
  inj : Set.InjOn f (Set.Iic n)
  nodes : ∀ i ≤ n, mem (f i) = some (nodeAt f d n i)

/-- The index of the child that a digit selects. -/
def childIndex (i : Nat) (path : Int) : Nat := if path ≠ 0 then 2 * i + 1 else 2 * i + 2

variable {mem mem' : Memory} {root a : Addr} {f g : Nat → Addr} {d e : Nat → Int} {n i j k fuel : Nat} {path : Int}

section Paths

theorem lt_childIndex (i : Nat) (path : Int) : i < childIndex i path := by
  unfold childIndex
  split <;> omega

theorem le_foldl_childIndex (l : List Int) (i : Nat) : i ≤ l.foldl childIndex i := by
  induction l generalizing i with
  | nil => exact le_rfl
  | cons path l ih => exact (lt_childIndex i path).le.trans (ih _)

theorem childIndex_parent (hk : 0 < k) : childIndex (parent k) ((k : Int).tmod 2) = k := by
  have hmod : (k : Int).tmod 2 = ((k % 2 : Nat) : Int) := rfl
  unfold childIndex parent
  rw [hmod]
  split <;> omega

theorem parentIndex_natCast (k : Nat) : parentIndex (k : Int) = (parent k : Nat) := by
  cases k with
  | zero => rfl
  | succ k =>
    have hsub : ((k + 1 : Nat) : Int) - 1 = (k : Nat) := by omega
    rw [parentIndex, hsub]
    rfl

theorem trackAncestors_eq (hi : i < fuel) (td : List Int) :
    ∃ l, trackAncestors fuel i td = some (0 :: (l ++ td)) ∧ l.foldl childIndex 0 = i := by
  induction fuel generalizing i td with
  | zero => omega
  | succ fuel ih =>
    rcases Nat.eq_zero_or_pos i with rfl | hpos
    · exact ⟨[], rfl, rfl⟩
    · have hlt := parent_lt hpos
      obtain ⟨l, htrack, hl⟩ := ih (by omega : parent i < fuel) ((i : Int).tmod 2 :: td)
      refine ⟨l ++ [(i : Int).tmod 2], ?_, ?_⟩
      · have hne : (i : Int) ≠ 0 := by omega
        rw [trackAncestors, if_pos hne, parentIndex_natCast, htrack, List.append_assoc]
        rfl
      · rw [List.foldl_append, hl]
        exact childIndex_parent hpos

/-- The list for the index `k`: the root's entry, the digits that lead to the parent, and the digit of `k`. -/
theorem trackingNodes_eq (k : Nat) :
    ∃ l, trackingNodes k = some (0 :: (l ++ [(k : Int).tmod 2])) ∧ l.foldl childIndex 0 = parent k := by
  have hlt : parent k < k + 1 := Nat.lt_succ_of_le (parent_le k)
  obtain ⟨l, htrack, hl⟩ := trackAncestors_eq hlt [(k : Int).tmod 2]
  exact ⟨l, by rw [trackingNodes, parentIndex_natCast]; exact htrack, hl⟩

/-- A loop whose turns lead from the state of an index to that of its child. -/
theorem foldlM_path {S : Type} {step : S → Int → Option S} {s : Nat → S} {l : List Int}
    (hstep : ∀ i path, childIndex i path ≤ n → step (s i) path = some (s (childIndex i path)))
    (hl : l.foldl childIndex i ≤ n) : l.foldlM step (s i) = some (s (l.foldl childIndex i)) := by
  induction l generalizing i with
  | nil => rfl
  | cons path l ih =>
    have hle : childIndex i path ≤ n := (le_foldl_childIndex l _).trans hl
    rw [List.foldlM_cons, hstep i path hle]
    exact ih hl

end Paths

section Nodes

variable {nd nd' : Node} {p : Option Addr} {path' : Int}

theorem Node.ext_child (hd : nd.data = nd'.data) (hc : ∀ path, nd.child path = nd'.child path)
    (hp : nd.parent = nd'.parent) : nd = nd' := by
  obtain ⟨data, left, right, parent⟩ := nd
  obtain ⟨data', left', right', parent'⟩ := nd'
  obtain rfl : data = data' := hd
  obtain rfl : left = left' := hc 1
  obtain rfl : right = right' := hc 0
  obtain rfl : parent = parent' := hp
  rfl

@[simp] theorem Node.setChild_data : (nd.setChild path p).data = nd.data := by
  unfold Node.setChild
  split <;> rfl

@[simp] theorem Node.setChild_parent : (nd.setChild path p).parent = nd.parent := by
  unfold Node.setChild
  split <;> rfl

theorem Node.setChild_child :
    (nd.setChild path p).child path' = if path' = 0 ↔ path = 0 then p else nd.child path' := by
  unfold Node.setChild Node.child
  by_cases h : path = 0 <;> by_cases h' : path' = 0 <;> simp [h, h']

theorem parent_childIndex (i : Nat) (path : Int) : parent (childIndex i path) = i := by
  unfold childIndex parent
  split <;> omega

theorem childIndex_inj : childIndex i path = childIndex i path' ↔ (path = 0 ↔ path' = 0) := by
  unfold childIndex
  split <;> split <;> omega

theorem nodeAt_child (f : Nat → Addr) (d : Nat → Int) (n i : Nat) (path : Int) :
    (nodeAt f d n i).child path = if childIndex i path ≤ n then some (f (childIndex i path)) else none := by
  unfold Node.child childIndex nodeAt
  split <;> rfl

theorem nodeAt_congr (hf : ∀ j ≤ n, f j = g j) (hd : ∀ j ≤ n, d j = e j) (hi : i ≤ n) :
    nodeAt f d n i = nodeAt g e n i := by
  refine Node.ext_child (hd i hi) (fun path => ?_) ?_
  · rw [nodeAt_child, nodeAt_child]
    split
    case isTrue h => rw [hf _ h]
    case isFalse => rfl
  · show (if i = 0 then none else some (f (parent i))) = if i = 0 then none else some (g (parent i))
    rw [hf _ ((parent_le i).trans hi)]

/-- A tree with one more node differs at the parent of that node. -/
theorem nodeAt_succ (hpath : childIndex (parent (n + 1)) path = n + 1) (i : Nat) :
    nodeAt f d (n + 1) i =
      if i = parent (n + 1) then (nodeAt f d n i).setChild path (some (f (n + 1))) else nodeAt f d n i := by
  split
  case isTrue hi =>
    subst hi
    refine Node.ext_child (by simp [nodeAt]) (fun path' => ?_) (by simp [nodeAt])
    rw [Node.setChild_child, nodeAt_child, nodeAt_child]
    by_cases hside : path' = 0 ↔ path = 0
    · have hchild : childIndex (parent (n + 1)) path' = n + 1 := (childIndex_inj.mpr hside).trans hpath
      simp [hchild, hside]
    · have hchild : childIndex (parent (n + 1)) path' ≠ n + 1 :=
        fun h => hside (childIndex_inj.mp (h.trans hpath.symm))
      have hiff : childIndex (parent (n + 1)) path' ≤ n + 1 ↔ childIndex (parent (n + 1)) path' ≤ n := by omega
      simp only [hiff, if_neg hside]
  case isFalse hi =>
    refine Node.ext_child rfl (fun path' => ?_) rfl
    have hchild : childIndex i path' ≠ n + 1 := fun h => hi (h ▸ parent_childIndex i path').symm
    have hiff : childIndex i path' ≤ n + 1 ↔ childIndex i path' ≤ n := by omega
    simp only [nodeAt_child, hiff]

/-- The same from the side of the larger tree. -/
theorem nodeAt_pred (hpath : childIndex (parent (n + 1)) path = n + 1) (i : Nat) :
    nodeAt f d n i =
      if i = parent (n + 1) then (nodeAt f d (n + 1) i).setChild path none else nodeAt f d (n + 1) i := by
  split
  case isTrue hi =>
    subst hi
    refine Node.ext_child (by simp [nodeAt]) (fun path' => ?_) (by simp [nodeAt])
    rw [nodeAt_succ hpath, if_pos rfl]
    simp only [Node.setChild_child]
    split
    case isTrue hside =>
      have hchild : childIndex (parent (n + 1)) path' = n + 1 := (childIndex_inj.mpr hside).trans hpath
      rw [nodeAt_child, hchild, if_neg (Nat.not_succ_le_self n)]
    case isFalse => rfl
  case isFalse hi => rw [nodeAt_succ hpath, if_neg hi]

end Nodes

section Passes

theorem Shape.modify_eq (h : Shape mem root f d n) (hi : i ≤ n) (r : Node → Node) :
    modify mem (some (f i)) r = some (Function.update mem (f i) (some (r (nodeAt f d n i)))) := by
  simp [modify, h.nodes i hi]

theorem Shape.deref_eq (h : Shape mem root f d n) (hi : i ≤ n) : deref mem (some (f i)) = some (nodeAt f d n i) :=
  h.nodes i hi

theorem Shape.setData (h : Shape mem root f d n) (hi : i ≤ n) (x : Int) :
    Shape (Function.update mem (f i) (some { nodeAt f d n i with data := x })) root f (Function.update d i x) n where
  root_eq := h.root_eq
  inj := h.inj
  nodes j hj := by
    rcases eq_or_ne j i with rfl | hne
    · rw [Function.update_self]
      simp [nodeAt]
    · rw [Function.update_of_ne (h.inj.ne hj hi hne), h.nodes j hj]
      simp [nodeAt, hne]

theorem Shape.swap_eq (h : Shape mem root f d n) (hi : i ≤ n) (hj : j ≤ n) :
    ∃ mem', swap mem (some (f i)) (some (f j)) = some mem' ∧ Shape mem' root f (d ∘ Equiv.swap i j) n := by
  have hfirst := h.setData hi (d j)
  have hboth := hfirst.setData hj (d i)
  rw [← Equiv.comp_swap_eq_update, Equiv.swap_comm] at hboth
  refine ⟨_, ?_, hboth⟩
  simp only [swap, h.deref_eq hi, h.deref_eq hj, h.modify_eq hi, Option.bind_eq_bind, Option.bind_some]
  exact hfirst.modify_eq hj _

theorem Shape.holds_eq (h : Shape mem root f d n) (j : Nat) (q : Int → Prop) [DecidablePred q] :
    holds mem (if j ≤ n then some (f j) else none) (fun x => decide (q x)) = some (decide (j ≤ n ∧ q (d j))) := by
  by_cases hj : j ≤ n
  · rw [if_pos hj, holds, h.nodes j hj, Option.map_some]
    exact congrArg some (decide_eq_decide.mpr (and_iff_right hj).symm)
  · rw [if_neg hj, holds]
    exact congrArg some (decide_eq_false fun hno => hj hno.1).symm

theorem Shape.smallestUpward_eq (h : Shape mem root f d n) (i : Nat) :
    smallestUpward mem (nodeAt f d n i) = some (if climbFrom d n i = i then none else some (f (climbFrom d n i))) := by
  have hleft : (nodeAt f d n i).left = if 2 * i + 1 ≤ n then some (f (2 * i + 1)) else none := rfl
  have hright : (nodeAt f d n i).right = if 2 * i + 2 ≤ n then some (f (2 * i + 2)) else none := rfl
  have hdata {k : Nat} : (nodeAt f d n k).data = d k := rfl
  simp only [smallestUpward, hleft, hright, hdata, h.holds_eq, Option.bind_eq_bind, Option.bind_some]
  unfold climbFrom
  by_cases hr : 2 * i + 2 ≤ n ∧ d (2 * i + 2) < d i
  · have hne : 2 * i + 2 ≠ i := by omega
    rw [if_pos hr, if_neg hne, if_pos hr.1, decide_eq_true hr]
    by_cases hl : 2 * i + 1 ≤ n ∧ d (2 * i + 1) < d i
    · rw [decide_eq_true hl, if_pos rfl, if_pos hl.1]
      simp only [h.nodes _ hl.1, Option.bind_some, Bool.or_true, if_true]
    · rw [decide_eq_false hl]
      rfl
  · rw [if_neg hr, decide_eq_false hr]
    by_cases hl : 2 * i + 1 ≤ n ∧ d (2 * i + 1) < d i
    · have hne : 2 * i + 1 ≠ i := by omega
      have hinner : ¬ (2 * i + 2 ≤ n ∧ d (2 * i + 2) < d (2 * i + 1)) := fun h => hr ⟨h.1, h.2.trans hl.2⟩
      rw [if_pos hl, if_neg hne, decide_eq_true hl, if_pos rfl, if_pos hl.1]
      simp only [h.nodes _ hl.1, Option.bind_some, hdata, decide_eq_false hinner]
      rfl
    · rw [if_neg hl, if_pos rfl, decide_eq_false hl]
      rfl

theorem Shape.smallestDownward_eq (h : Shape mem root f d n) (hi : i ≤ n) :
    smallestDownward mem (f i) (nodeAt f d n i) = some (some (f (sinkTo d n i))) := by
  have hleft : (nodeAt f d n i).left = if 2 * i + 1 ≤ n then some (f (2 * i + 1)) else none := rfl
  have hright : (nodeAt f d n i).right = if 2 * i + 2 ≤ n then some (f (2 * i + 2)) else none := rfl
  have hdata {k : Nat} : (nodeAt f d n k).data = d k := rfl
  simp only [smallestDownward, hleft, hright, hdata, h.holds_eq, Option.bind_eq_bind, Option.bind_some]
  unfold sinkTo
  by_cases hl : 2 * i + 1 ≤ n ∧ d (2 * i + 1) ≠ 0 ∧ d (2 * i + 1) ≤ d i
  · simp only [decide_eq_true hl, if_pos hl, if_pos hl.1, if_true, h.deref_eq hl.1, Option.bind_some, hdata]
    by_cases hr : 2 * i + 2 ≤ n ∧ d (2 * i + 2) ≤ d (2 * i + 1)
    · rw [decide_eq_true hr, if_pos hr, if_pos rfl, if_pos hr.1]
    · rw [decide_eq_false hr, if_neg hr]
      rfl
  · simp only [decide_eq_false hl, if_neg hl, Bool.false_eq_true, if_false, h.deref_eq hi, Option.bind_some, hdata]
    by_cases hr : 2 * i + 2 ≤ n ∧ d (2 * i + 2) ≤ d i
    · rw [decide_eq_true hr, if_pos hr, if_pos rfl, if_pos hr.1]
    · rw [decide_eq_false hr, if_neg hr]
      rfl

theorem Shape.heapifyUpward_eq (h : Shape mem root f d n) (hi : i ≤ n) (hfuel : climbRank d n i < fuel) :
    ∃ mem' d', heapifyUpward fuel mem (some (f i)) = some mem' ∧ Shape mem' root f d' n ∧ Climbs n d i d' := by
  induction fuel generalizing mem d i with
  | zero => omega
  | succ fuel ih =>
    have hp : parent i ≤ n := (parent_le i).trans hi
    have hsel : (nodeAt f d n i).parent.getD (f i) = f (parent i) := by
      rcases Nat.eq_zero_or_pos i with rfl | hpos
      · rfl
      · simp [nodeAt, hpos.ne']
    by_cases hs : climbFrom d n (parent i) = parent i
    · refine ⟨mem, d, ?_, h, .stop hs⟩
      simp [heapifyUpward, h.nodes i hi, hsel, h.nodes _ hp, h.smallestUpward_eq, hs]
    · have hrank := climbRank_lt hs
      have hsn : climbFrom d n (parent i) ≤ n := climbFrom_le hp
      have hlt : d (climbFrom d n (parent i)) < d (parent i) :=
        ((climbFrom_cases d n (parent i)).resolve_left hs).2.2.2
      obtain ⟨mem₁, hswap, hshape⟩ := h.swap_eq hsn hp
      obtain ⟨mem', d', hrec, hshape', hclimbs⟩ := ih hshape hp (by omega)
      refine ⟨mem', d', ?_, hshape', .swap hs hclimbs⟩
      have hsm : (nodeAt f d n (climbFrom d n (parent i))).data = d (climbFrom d n (parent i)) := rfl
      have hdata : (nodeAt f d n (parent i)).data = d (parent i) := rfl
      simp [heapifyUpward, h.nodes i hi, hsel, h.nodes _ hp, h.smallestUpward_eq, hs, h.nodes _ hsn, hsm, hdata,
        hlt, hlt.ne, hswap, hrec]

theorem Shape.heapifyDownward_eq (h : Shape mem root f d n) (hi : i ≤ n) (hfuel : n - i < fuel) :
    ∃ mem' d', heapifyDownward fuel mem (some (f i)) = some mem' ∧ Shape mem' root f d' n ∧ Sinks n d i d' := by
  induction fuel generalizing mem d i with
  | zero => omega
  | succ fuel ih =>
    have hsn : sinkTo d n i ≤ n := sinkTo_le hi
    have hsm : (nodeAt f d n (sinkTo d n i)).data = d (sinkTo d n i) := rfl
    have hdata : (nodeAt f d n i).data = d i := rfl
    by_cases hs : d (sinkTo d n i) ≠ 0 ∧ d (sinkTo d n i) ≠ d i
    · have hlt : i < sinkTo d n i :=
        ((sinkTo_cases d n i).resolve_left fun heq => hs.2 (congrArg d heq)).1
      obtain ⟨mem₁, hswap, hshape⟩ := h.swap_eq hsn hi
      obtain ⟨mem', d', hrec, hshape', hsinks⟩ := ih hshape hsn (by omega)
      refine ⟨mem', d', ?_, hshape', .swap hs.1 hs.2 hsinks⟩
      simp [heapifyDownward, h.nodes i hi, h.smallestDownward_eq hi, h.deref_eq hsn, hsm, hdata, hs, hswap, hrec]
    · refine ⟨mem, d, ?_, h, .stop (or_iff_not_and_not.mpr hs)⟩
      simp [heapifyDownward, h.nodes i hi, h.smallestDownward_eq hi, h.deref_eq hsn, hsm, hdata, hs]

end Passes

section Operations

variable {s : State} {x : Int} {c : Call}

/-- What every operation of the heap needs and keeps, `latest_node` apart. -/
structure HeapState (s : State) (root : Addr) (f : Nat → Addr) (d : Nat → Int) (n : Nat) : Prop where
  shape : Shape s.mem root f d n
  total : s.totalNodes = n
  latest : 0 < n → s.latestNode = some (f n)

/-- A node that is not in use is none of the tree. -/
theorem Shape.ne_of_fresh (h : Shape mem root f d n) (ha : mem a = none) (hi : i ≤ n) : f i ≠ a := by
  intro heq
  have hnode := h.nodes i hi
  rw [heq, ha] at hnode
  cases hnode

theorem Shape.update_fresh (h : Shape mem root f d n) (ha : mem a = none) (nd : Option Node) :
    Shape (Function.update mem a nd) root f d n where
  root_eq := h.root_eq
  inj := h.inj
  nodes i hi := by rw [Function.update_of_ne (h.ne_of_fresh ha hi), h.nodes i hi]

theorem injOn_update (hf : Set.InjOn f (Set.Iic n)) (ha : ∀ i ≤ n, f i ≠ a) :
    Set.InjOn (Function.update f (n + 1) a) (Set.Iic (n + 1)) := by
  have hold : ∀ i ∈ Set.Iic (n + 1), i ≠ n + 1 → i ≤ n := fun i hi hne => by
    have hle : i ≤ n + 1 := hi
    omega
  intro i hi j hj heq
  by_cases hi' : i = n + 1 <;> by_cases hj' : j = n + 1
  · rw [hi', hj']
  · subst hi'
    rw [Function.update_self, Function.update_of_ne hj'] at heq
    exact absurd heq.symm (ha j (hold j hj hj'))
  · subst hj'
    rw [Function.update_self, Function.update_of_ne hi'] at heq
    exact absurd heq (ha i (hold i hi hi'))
  · rw [Function.update_of_ne hi', Function.update_of_ne hj'] at heq
    exact hf (hold i hi hi') (hold j hj hj') heq

/-- The tree with a new node in the last place. -/
theorem Shape.attached (h : Shape mem root f d n) (ha : ∀ i ≤ n, f i ≠ a)
    (hpath : childIndex (parent (n + 1)) path = n + 1) (x : Int) :
    Shape (Function.update (Function.update mem (f (parent (n + 1)))
        (some ((nodeAt f d n (parent (n + 1))).setChild path (some a)))) a
        (some ⟨x, none, none, some (f (parent (n + 1)))⟩))
      root (Function.update f (n + 1) a) (Function.update d (n + 1) x) (n + 1) := by
  have hp : parent (n + 1) ≤ n := Nat.le_of_lt_succ (parent_lt (Nat.succ_pos n))
  have hf : ∀ j ≤ n, Function.update f (n + 1) a j = f j := fun j hj => Function.update_of_ne (by omega) _ _
  have hd : ∀ j ≤ n, Function.update d (n + 1) x j = d j := fun j hj => Function.update_of_ne (by omega) _ _
  constructor
  · rw [hf 0 (Nat.zero_le n)]
    exact h.root_eq
  · exact injOn_update h.inj ha
  · intro i hi
    by_cases hlast : i = n + 1
    · subst hlast
      have hleft : ¬ 2 * (n + 1) + 1 ≤ n + 1 := by omega
      have hright : ¬ 2 * (n + 1) + 2 ≤ n + 1 := by omega
      rw [Function.update_self, Function.update_self, nodeAt, if_neg hleft, if_neg hright, if_neg (Nat.succ_ne_zero n),
        hf _ hp, Function.update_self]
    · have hin : i ≤ n := by omega
      rw [hf i hin, Function.update_of_ne (ha i hin), nodeAt_succ hpath, nodeAt_congr hf hd hin, Function.update_self]
      split
      case isTrue heq => rw [heq, Function.update_self]
      case isFalse hne => rw [Function.update_of_ne (h.inj.ne hin hp hne), h.nodes i hin]

/-- The turn of `insert_node` that attaches the new node. -/
theorem Shape.attachStep_eq (h : Shape mem root f d n) (ha : mem a = some ⟨x, none, none, none⟩)
    (hne : ∀ i ≤ n, f i ≠ a) (hpath : childIndex (parent (n + 1)) path = n + 1) :
    ∃ mem', attachStep a (mem, some (f (parent (n + 1)))) path = some (mem', some a) ∧
      Shape mem' root (Function.update f (n + 1) a) (Function.update d (n + 1) x) (n + 1) := by
  have hp : parent (n + 1) ≤ n := Nat.le_of_lt_succ (parent_lt (Nat.succ_pos n))
  have hchild : (nodeAt f d n (parent (n + 1))).child path = none := by
    rw [nodeAt_child, hpath, if_neg (Nat.not_succ_le_self n)]
  have hnew := (hne _ hp).symm
  refine ⟨_, ?_, h.attached hne hpath x⟩
  simp [attachStep, deref, modify, h.nodes _ hp, hchild, hnew, hnew.symm, ha, Node.setChild_child]

/-- The other turns find a node there. -/
theorem Shape.attachStep_of_le (h : Shape mem root f d n) (hle : childIndex i path ≤ n) :
    attachStep a (mem, some (f i)) path = some (mem, some (f (childIndex i path))) := by
  have hi : i ≤ n := (lt_childIndex i path).le.trans hle
  simp [attachStep, h.deref_eq hi, nodeAt_child, hle]

theorem HeapState.insertNode_eq (h : HeapState s root f d n) (ha : s.mem a = none) (x : Int) :
    ∃ s' d', insertNode root s a x = some s' ∧ HeapState s' root (Function.update f (n + 1) a) d' (n + 1) ∧
      s'.latestNode = some a ∧ Climbs (n + 1) (Function.update d (n + 1) x) (n + 1) d' := by
  have hne : ∀ i ≤ n, f i ≠ a := fun i hi => h.shape.ne_of_fresh ha hi
  have hshape := h.shape.update_fresh ha (some ⟨x, none, none, none⟩)
  have htotal : s.totalNodes + 1 = ((n + 1 : Nat) : Int) := by
    rw [h.total]
    rfl
  obtain ⟨l, htrack, hl⟩ := trackingNodes_eq (n + 1)
  obtain ⟨mem₁, hattach, hshape₁⟩ := hshape.attachStep_eq (Function.update_self ..) hne
    (childIndex_parent (Nat.succ_pos n))
  have hlp : l.foldl childIndex 0 ≤ n := by
    rw [hl]
    exact Nat.le_of_lt_succ (parent_lt (Nat.succ_pos n))
  have hwalk := foldlM_path (s := fun i => (_, some (f i))) (fun i path hle => hshape.attachStep_of_le (a := a) hle) hlp
  have hrank : climbRank (Function.update d (n + 1) x) (n + 1) (n + 1) < upwardFuel ((n + 1 : Nat) : Int) :=
    Nat.lt_succ_self (n + 1 + 2)
  obtain ⟨mem₂, d', hup, hshape₂, hclimbs⟩ := hshape₁.heapifyUpward_eq le_rfl hrank
  rw [Function.update_self] at hup
  refine ⟨⟨mem₂, s.totalNodes + 1, some a⟩, d', ?_, ⟨hshape₂, htotal, fun _ => ?_⟩, rfl, hclimbs⟩
  · rw [h.shape.root_eq, hl] at hwalk
    simp only [insertNode, getNewNode, htotal, htrack, List.tail_cons, List.foldlM_append, List.foldlM_cons,
      List.foldlM_nil, hwalk, hattach, hup, Option.bind_eq_bind, Option.bind_some, Option.pure_def]
  · rw [Function.update_self]

/-- The tree with the last node cut off. -/
theorem Shape.detached (h : Shape mem root f d (n + 1)) (hpath : childIndex (parent (n + 1)) path = n + 1) :
    Shape (Function.update mem (f (parent (n + 1)))
      (some ((nodeAt f d (n + 1) (parent (n + 1))).setChild path none))) root f d n where
  root_eq := h.root_eq
  inj := h.inj.mono fun i hi => Nat.le_succ_of_le hi
  nodes i hi := by
    rw [nodeAt_pred hpath]
    split
    case isTrue heq => rw [heq, Function.update_self]
    case isFalse hne =>
      have hp := parent_le (n + 1)
      rw [Function.update_of_ne (h.inj.ne (Nat.le_succ_of_le hi) hp hne), h.nodes i (Nat.le_succ_of_le hi)]

theorem HeapState.swapAndDelete_eq (h : HeapState s root f d (n + 1)) :
    ∃ mem', swapAndDelete root s = some (d 0, { s with mem := mem', totalNodes := n }) ∧
      Shape mem' root f (Function.update d 0 (d (n + 1))) n := by
  have hlatest := h.latest (Nat.succ_pos n)
  have hzero : 0 ≤ n + 1 := Nat.zero_le _
  have hroot := h.shape.nodes 0 hzero
  have hlast := h.shape.nodes (n + 1) le_rfl
  have hset := h.shape.setData hzero (d (n + 1))
  have hpath := childIndex_parent (Nat.succ_pos n)
  have hmodify := hset.modify_eq (parent_le (n + 1)) fun nd => nd.setChild (((n + 1 : Nat) : Int).tmod 2) none
  have htotal : ((n + 1 : Nat) : Int) - 1 = (n : Nat) := by omega
  refine ⟨_, ?_, hset.detached hpath⟩
  have hparent : (nodeAt f d (n + 1) (n + 1)).parent = some (f (parent (n + 1))) := by simp [nodeAt]
  have htop : (nodeAt f d (n + 1) 0).data = d 0 := rfl
  have hlastData : (nodeAt f d (n + 1) (n + 1)).data = d (n + 1) := rfl
  have hrootModify := h.shape.modify_eq hzero fun nd => { nd with data := d (n + 1) }
  rw [h.shape.root_eq] at hroot hmodify hrootModify
  simp only [swapAndDelete, hroot, hlatest, deref, Option.bind_some, Option.bind_eq_bind, hlast, hlastData,
    hrootModify, hparent, Option.isSome_some, if_true, h.total, hmodify, htop, htotal]
  rw [h.shape.root_eq]

theorem Shape.descendStep_of_le (h : Shape mem root f d n) (hle : childIndex i path ≤ n) :
    descendStep mem (some (f i)) path = some (some (f (childIndex i path))) := by
  have hi : i ≤ n := (lt_childIndex i path).le.trans hle
  simp [descendStep, h.deref_eq hi, nodeAt_child, hle]

/-- The last turn of `refresh_latest_node`, which for the index of the root stays there. -/
theorem Shape.descendStep_last (h : Shape mem root f d n) :
    descendStep mem (some (f (parent n))) ((n : Int).tmod 2) = some (some (f n)) := by
  rcases Nat.eq_zero_or_pos n with rfl | hpos
  · have hroot := h.deref_eq (i := parent 0) le_rfl
    rw [descendStep, hroot]
    rfl
  · have hpath := childIndex_parent hpos
    rw [h.descendStep_of_le hpath.le, hpath]

/-- The last node of a tree is a leaf, so that nothing is cut off. -/
theorem Shape.refreshLatestNode_eq (h : Shape s.mem root f d n) (htotal : s.totalNodes = n) :
    refreshLatestNode root s = some { s with latestNode := some (f n) } := by
  obtain ⟨l, htrack, hl⟩ := trackingNodes_eq n
  have hlp : l.foldl childIndex 0 ≤ n := by
    rw [hl]
    exact parent_le n
  have hwalk := foldlM_path (s := fun i => some (f i)) (fun i path hle => h.descendStep_of_le hle) hlp
  have hleft : ¬ 2 * n + 1 ≤ n := by omega
  have hright : ¬ 2 * n + 2 ≤ n := by omega
  have hleaf : ({ nodeAt f d n n with left := none, right := none } : Node) = nodeAt f d n n := by
    simp [nodeAt, hleft, hright]
  have hmodify := h.modify_eq le_rfl fun nd => { nd with left := none, right := none }
  rw [hleaf, ← h.nodes n le_rfl, Function.update_eq_self] at hmodify
  simp only [h.root_eq, hl] at hwalk
  simp only [refreshLatestNode, htotal, htrack, List.tail_cons, List.foldlM_append, List.foldlM_cons, List.foldlM_nil,
    hwalk, h.descendStep_last, hmodify, Option.bind_eq_bind, Option.bind_some, Option.pure_def]

theorem HeapState.takeOut_eq (h : HeapState s root f d (n + 1)) :
    ∃ s' d', takeOut root s = some (d 0, s') ∧ HeapState s' root f d' n ∧ s'.latestNode = some (f n) ∧
      Sinks n (Function.update d 0 (d (n + 1))) 0 d' := by
  obtain ⟨mem₁, hdelete, hshape₁⟩ := h.swapAndDelete_eq
  obtain ⟨mem₂, d', hdown, hshape₂, hsinks⟩ :=
    hshape₁.heapifyDownward_eq (Nat.zero_le n) (by omega : n - 0 < (n : Int).toNat + 1)
  have hrefresh := Shape.refreshLatestNode_eq (s := { s with mem := mem₂, totalNodes := n }) hshape₂ rfl
  rw [h.shape.root_eq] at hdown
  refine ⟨⟨mem₂, n, some (f n)⟩, d', ?_, ⟨hshape₂, rfl, fun _ => rfl⟩, rfl, hsinks⟩
  simp only [takeOut, rootEntry, hdelete, hdown, hrefresh, Option.bind_eq_bind, Option.bind_some]

end Operations

end SsdScheduler.LinkedHeap
