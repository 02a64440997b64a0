import Mathlib.Data.Int.Notation
import SsdScheduler.Framework.OrderedTree

/-!
# The search tree of `heap_experiments/min_heap_binary/binary_tree.c`

Dereferencing a null pointer is `none`, and so is running out of fuel. Allocations succeed, with an address
the environment chooses.
-/

namespace SsdScheduler.SearchTree

open Framework

/-- `struct BstNode *` where it is not null. -/
abbrev Addr := Nat

structure BstNode where
  data : Int
  left : Option Addr
  right : Option Addr
deriving DecidableEq, Repr

/-- `none` is an address at which no node was allocated. -/
abbrev Memory := Addr → Option BstNode

/-- Assign to a member of `*a`. -/
def modify (mem : Memory) (a : Addr) (g : BstNode → BstNode) : Option Memory := do
  let nd ← mem a
  some (Function.update mem a (some (g nd)))

def getNewNode (mem : Memory) (newNode : Addr) (data : Int) : Memory × Option Addr :=
  (Function.update mem newNode (some ⟨data, none, none⟩), some newNode)

/-- The memory after `Insert` and the pointer it returns. Both recursive calls are made on `root->left`. -/
def insert (newNode : Addr) (data : Int) : Nat → Memory → Option Addr → Option (Memory × Option Addr)
  | 0, _, _ => none
  | _ + 1, mem, none => some (getNewNode mem newNode data)
  | fuel + 1, mem, some root => do
    let nd ← mem root
    if data ≤ nd.data then
      let (mem, left) ← insert newNode data fuel mem nd.left
      let mem ← modify mem root fun nd => { nd with left := left }
      some (mem, some root)
    else
      let (mem, right) ← insert newNode data fuel mem nd.left
      let mem ← modify mem root fun nd => { nd with right := right }
      some (mem, some root)

def search (data : Int) : Nat → Memory → Option Addr → Option (Option Addr)
  | 0, _, _ => none
  | _ + 1, _, none => some none
  | fuel + 1, mem, some root => do
    let nd ← mem root
    if nd.data = data then some (some root)
    else if data ≤ nd.data then search data fuel mem nd.left
    else search data fuel mem nd.right

/-- `root = Insert(root, x)` for the values of a list, each with the address of its node. -/
def insertAll (fuel : Nat) (mem : Memory) (root : Option Addr) (new : List (Addr × Int)) :
    Option (Memory × Option Addr) :=
  new.foldlM (fun s p => insert p.1 p.2 fuel s.1 s.2) (mem, root)

/-- The nodes reachable from `root` are those of a tree, given by their addresses and values. -/
inductive Holds (mem : Memory) : Option Addr → BinaryTree (Addr × Int) → Prop
  | null : Holds mem none .nil
  | node {a : Addr} {nd : BstNode} {l r : BinaryTree (Addr × Int)} (ha : mem a = some nd) (hl : Holds mem nd.left l)
      (hr : Holds mem nd.right r) : Holds mem (some a) (.node (a, nd.data) l r)

/-- `p` is what `Search` returns once it has fuel for a path through `n` nodes. -/
def Finds (mem : Memory) (root : Option Addr) (data : Int) (n : Nat) (p : Option Addr) : Prop :=
  ∀ fuel, n < fuel → search data fuel mem root = some p

/-- `root` is a search tree of the values, in which no node is shared, and `Search` finds them and no others. -/
structure IsSearchTree (mem : Memory) (root : Option Addr) (values : List Int) : Prop where
  tree : ∃ t, Holds mem root t ∧ ((OrderedTree.nodes t).map Prod.fst).Nodup ∧ OrderedTree.Ordered Prod.snd t ∧
    (OrderedTree.nodes t).map Prod.snd = values
  found : ∀ y ∈ values, ∃ a nd, Finds mem root y values.length (some a) ∧ mem a = some nd ∧ nd.data = y
  missing : ∀ y ∉ values, Finds mem root y values.length none

/-- Each value is at most every value before it but its predecessor. -/
def StepsDown : List Int → Prop
  | [] => True
  | x :: values => (∀ y ∈ values.tail, y ≤ x) ∧ StepsDown values

instance decidableStepsDown : (values : List Int) → Decidable (StepsDown values)
  | [] => inferInstanceAs (Decidable True)
  | x :: values =>
    have : Decidable (StepsDown values) := decidableStepsDown values
    inferInstanceAs (Decidable ((∀ y ∈ values.tail, y ≤ x) ∧ StepsDown values))

variable {mem : Memory} {root p : Option Addr} {t t' : BinaryTree (Addr × Int)} {data : Int} {fuel n : Nat}

/-- A pointer leads to one tree. -/
theorem Holds.unique (h : Holds mem p t) (h' : Holds mem p t') : t = t' := by
  induction h generalizing t' with
  | null =>
    cases h'
    rfl
  | node ha _ _ ihl ihr =>
    cases h' with
    | node ha' hl' hr' =>
      obtain rfl := Option.some.inj (ha.symm.trans ha')
      rw [ihl hl', ihr hr']

theorem Holds.mem_eq {q : Addr × Int} (h : Holds mem p t) (hq : q ∈ OrderedTree.nodes t) :
    ∃ nd, mem q.1 = some nd ∧ nd.data = q.2 := by
  induction h with
  | null => simp at hq
  | @node a nd l r ha _ _ ihl ihr =>
    simp only [OrderedTree.nodes_node, Multiset.mem_cons, Multiset.mem_add] at hq
    rcases hq with rfl | hl | hr
    · exact ⟨nd, ha, rfl⟩
    · exact ihl hl
    · exact ihr hr

/-- `Search` follows the lookup in the tree. -/
theorem Holds.finds (h : Holds mem p t) (data : Int) :
    Finds mem p data (OrderedTree.nodes t).card ((OrderedTree.lookup Prod.snd data t).map Prod.fst) := by
  induction h with
  | null =>
    intro fuel hfuel
    obtain ⟨fuel, rfl⟩ := Nat.exists_eq_succ_of_ne_zero (by omega : fuel ≠ 0)
    rfl
  | @node a nd l r ha _ _ ihl ihr =>
    intro fuel hfuel
    obtain ⟨fuel, rfl⟩ := Nat.exists_eq_succ_of_ne_zero (by omega : fuel ≠ 0)
    simp only [OrderedTree.nodes_node, Multiset.card_cons, Multiset.card_add] at hfuel
    have hl := ihl fuel (by omega)
    have hr := ihr fuel (by omega)
    simp only [search, ha, OrderedTree.lookup, Option.bind_eq_bind, Option.bind_some, hl, hr]
    split
    case isTrue => rfl
    case isFalse => split <;> rfl

/-- A tree in order answers every search. -/
theorem IsSearchTree.of_ordered {values : List Int} (h : Holds mem root t)
    (hnodup : ((OrderedTree.nodes t).map Prod.fst).Nodup) (hordered : OrderedTree.Ordered Prod.snd t)
    (hvalues : (OrderedTree.nodes t).map Prod.snd = values) : IsSearchTree mem root values := by
  have hcard : (OrderedTree.nodes t).card = values.length := by
    rw [← Multiset.coe_card, ← hvalues, Multiset.card_map]
  have hmem {y : Int} : y ∈ values ↔ ∃ q ∈ OrderedTree.nodes t, q.2 = y := by
    rw [← Multiset.mem_coe, ← hvalues, Multiset.mem_map]
  have hfinds (y : Int) := hcard ▸ h.finds y
  constructor
  case tree => exact ⟨t, h, hnodup, hordered, hvalues⟩
  case found =>
    intro y hy
    cases hlookup : OrderedTree.lookup Prod.snd y t with
    | none =>
      obtain ⟨q, hq, hqy⟩ := hmem.mp hy
      exact absurd hqy (hordered.lookup_eq_none_iff.mp hlookup q hq)
    | some q =>
      obtain ⟨hq, hqy⟩ := OrderedTree.mem_of_lookup hlookup
      obtain ⟨nd, hnd, hdata⟩ := h.mem_eq hq
      have hy := hfinds y
      rw [hlookup] at hy
      exact ⟨q.1, nd, hy, hnd, hdata.trans hqy⟩
  case missing =>
    intro y hy
    have hlookup : OrderedTree.lookup Prod.snd y t = none :=
      hordered.lookup_eq_none_iff.mpr fun q hq hqy => hy (hmem.mpr ⟨q, hq, hqy⟩)
    have hy := hfinds y
    rw [hlookup] at hy
    exact hy

end SsdScheduler.SearchTree
