import Mathlib.Data.Int.Notation
import Mathlib.Logic.Function.Basic
import SsdScheduler.Framework.Machine

/-!
# The linked heap of `heap_experiments/min_heap_binary/min-heap.c`

The nodes of a complete binary tree carry their indices only implicitly: the place of the last node is
found again from the digits of `total_nodes`. Dereferencing a null pointer is `none`, and so is running
out of fuel. Allocations succeed, with an address the environment chooses.
-/

namespace SsdScheduler.LinkedHeap

open Framework

/-- `node *` where it is not null. -/
abbrev Addr := Nat

/-- `struct node`. -/
structure Node where
  data : Int
  left : Option Addr
  right : Option Addr
  parent : Option Addr
deriving DecidableEq, Repr

/-- `none` is an address at which no node was allocated. -/
abbrev Memory := Addr → Option Node

/-- `*p`. -/
def deref (mem : Memory) (p : Option Addr) : Option Node := p.bind mem

/-- Assign to members of `*p`. -/
def modify (mem : Memory) (p : Option Addr) (g : Node → Node) : Option Memory := do
  let a ← p
  let nd ← mem a
  some (Function.update mem a (some (g nd)))

/-- `p && test(p->data)`. -/
def holds (mem : Memory) (p : Option Addr) (test : Int → Bool) : Option Bool :=
  match p with
  | none => some false
  | some a => (mem a).map fun nd => test nd.data

/-- `left` for an odd digit, `right` for an even one. -/
def Node.child (nd : Node) (path : Int) : Option Addr := if path ≠ 0 then nd.left else nd.right

def Node.setChild (nd : Node) (path : Int) (p : Option Addr) : Node :=
  if path ≠ 0 then { nd with left := p } else { nd with right := p }

/-- The global variables `total_nodes` and `latest_node` with the memory of the nodes. -/
structure State where
  mem : Memory
  totalNodes : Int
  latestNode : Option Addr

/-- The macro `PARENT`. -/
def parentIndex (x : Int) : Int := (x - 1).tdiv 2

def swap (mem : Memory) (p q : Option Addr) : Option Memory := do
  let n1 ← deref mem p
  let n2 ← deref mem q
  let mem ← modify mem p fun nd => { nd with data := n2.data }
  modify mem q fun nd => { nd with data := n1.data }

/-- The child `heapify_upward` takes for the smallest, the variable `smallest` being null at first. Both
assignments of `right` are one here. -/
def smallestUpward (mem : Memory) (selected : Node) : Option (Option Addr) := do
  let left ← holds mem selected.left fun data => data < selected.data
  let smallest := if left then selected.left else none
  let inner ← (match smallest with
    | none => some false
    | some a => (mem a).bind fun sm => holds mem selected.right fun data => data < sm.data)
  let outer ← holds mem selected.right fun data => data < selected.data
  some (if inner || outer then selected.right else smallest)

def heapifyUpward : Nat → Memory → Option Addr → Option Memory
  | 0, _, _ => none
  | _ + 1, mem, none => some mem
  | fuel + 1, mem, some a => do
    let nd ← mem a
    let selected := nd.parent.getD a
    let sel ← mem selected
    let smallest ← smallestUpward mem sel
    match smallest with
    | none => some mem
    | some b => do
      let sm ← mem b
      if sm.data ≠ sel.data ∧ sm.data < sel.data then
        let mem ← swap mem smallest (some selected)
        heapifyUpward fuel mem (some selected)
      else some mem

/-- The node `heapify_downward` takes for the smallest, at first the selected one. -/
def smallestDownward (mem : Memory) (a : Addr) (selected : Node) : Option (Option Addr) := do
  let left ← holds mem selected.left fun data => data ≠ 0 ∧ data ≤ selected.data
  let smallest := if left then selected.left else some a
  let sm ← deref mem smallest
  let right ← holds mem selected.right fun data => data ≤ sm.data
  some (if right then selected.right else smallest)

def heapifyDownward : Nat → Memory → Option Addr → Option Memory
  | 0, _, _ => none
  | _ + 1, mem, none => some mem
  | fuel + 1, mem, some a => do
    let selected ← mem a
    let smallest ← smallestDownward mem a selected
    let sm ← deref mem smallest
    if sm.data ≠ 0 ∧ sm.data ≠ selected.data then
      let mem ← swap mem smallest (some a)
      heapifyDownward fuel mem smallest
    else some mem

def getNewNode (s : State) (a : Addr) (data : Int) : State :=
  { s with mem := Function.update s.mem a (some ⟨data, none, none, none⟩), totalNodes := s.totalNodes + 1 }

/-- The loop of `tracking_nodes` and the node put in front of the list behind it. -/
def trackAncestors : Nat → Int → List Int → Option (List Int)
  | 0, _, _ => none
  | fuel + 1, targetIndex, targetPath =>
    if targetIndex ≠ 0 then trackAncestors fuel (parentIndex targetIndex) (targetIndex.tmod 2 :: targetPath)
    else some (targetIndex.tmod 2 :: targetPath)

def trackingNodes (totalNodes : Int) : Option (List Int) :=
  trackAncestors (totalNodes.toNat + 1) (parentIndex totalNodes) [totalNodes.tmod 2]

/-- One turn of the loop of `insert_node`, for a memory and `child_node`. -/
def attachStep (newNode : Addr) (s : Memory × Option Addr) (path : Int) : Option (Memory × Option Addr) := do
  let nd ← deref s.1 s.2
  let mem ← (if (nd.child path).isNone then do
      let mem ← modify s.1 s.2 fun nd => nd.setChild path (some newNode)
      modify mem (some newNode) fun nd => { nd with parent := s.2 }
    else some s.1)
  let nd ← deref mem s.2
  some (mem, nd.child path)

/-- The calls of `heapify_upward` on a tree of this size nest no deeper. -/
def upwardFuel (totalNodes : Int) : Nat := totalNodes.toNat + 3

def insertNode (root : Addr) (s : State) (newNode : Addr) (data : Int) : Option State := do
  let s := getNewNode s newNode data
  let td ← trackingNodes s.totalNodes
  let (mem, childNode) ← td.tail.foldlM (attachStep newNode) (s.mem, some root)
  let mem ← heapifyUpward (upwardFuel s.totalNodes) mem childNode
  some { s with mem := mem, latestNode := childNode }

/-- One turn of the loop of `refresh_latest_node`. -/
def descendStep (mem : Memory) (childNode : Option Addr) (path : Int) : Option (Option Addr) := do
  let nd ← deref mem childNode
  some (if (nd.child path).isSome then nd.child path else childNode)

def refreshLatestNode (root : Addr) (s : State) : Option State := do
  let td ← trackingNodes s.totalNodes
  let childNode ← td.tail.foldlM (descendStep s.mem) (some root)
  let mem ← modify s.mem childNode fun nd => { nd with left := none, right := none }
  some { s with mem := mem, latestNode := childNode }

/-- The assignment of null to `latest_node` is to the parameter, not to the variable. -/
def swapAndDelete (root : Addr) (s : State) : Option (Int × State) := do
  let top ← s.mem root
  let last ← deref s.mem s.latestNode
  let mem ← modify s.mem (some root) fun nd => { nd with data := last.data }
  let mem ← (if last.parent.isSome then modify mem last.parent fun nd => nd.setChild (s.totalNodes.tmod 2) none
    else some mem)
  some (top.data, { s with mem := mem, totalNodes := s.totalNodes - 1 })

def rootEntry (root : Addr) (s : State) : Option (Int × State) := do
  let (rtn, s) ← swapAndDelete root s
  let mem ← heapifyDownward (s.totalNodes.toNat + 1) s.mem (some root)
  some (rtn, { s with mem := mem })

/-- `root_entry` and `refresh_latest_node` after it. -/
def takeOut (root : Addr) (s : State) : Option (Int × State) := do
  let (rtn, s) ← rootEntry root s
  let s ← refreshLatestNode root s
  some (rtn, s)

/-- The state after `get_new_node` for the root. -/
def start (root : Addr) (data : Int) : State := getNewNode ⟨fun _ => none, -1, none⟩ root data

inductive Call
  | insertNode (newNode : Addr) (data : Int)
  | takeOut

/-- The allocator gives out an address that is not in use. -/
def heapMachine (root : Addr) : Machine State Call (Option Int) where
  legal s
    | .insertNode newNode _ => s.mem newNode = none
    | .takeOut => 1 ≤ s.totalNodes
  step s
    | .insertNode newNode data => (insertNode root s newNode data).map fun s => (none, s)
    | .takeOut => (takeOut root s).map fun p => (some p.1, p.2)

instance (root : Addr) (s : State) (c : Call) : Decidable ((heapMachine root).legal s c) :=
  match c with
  | .insertNode newNode _ => inferInstanceAs (Decidable (s.mem newNode = none))
  | .takeOut => inferInstanceAs (Decidable (1 ≤ s.totalNodes))

end SsdScheduler.LinkedHeap
