import SsdScheduler.SearchTree.BinaryTree

/-!
# What `Insert` builds

`Insert` only ever goes down the left pointers. A node that has a left child gets its `right` set to that
child when a greater value comes by, and one without gets a new node there in place of the one it had.
-/

namespace SsdScheduler.SearchTree

open Framework

/-- The nodes down the left pointers. The node on the right of one is a leaf, or the one on its left. -/
inductive Spine
  | last (a : Addr) (data : Int) (right : Option (Addr × Int))
  | cons (a : Addr) (data : Int) (right : Option (Addr × Int)) (rest : Spine)
  | shared (a : Addr) (data : Int) (rest : Spine)

namespace Spine

def head : Spine → Addr
  | last a _ _ => a
  | cons a _ _ _ => a
  | shared a _ _ => a

/-- Every node once, in the order of their insertion where none was lost. -/
def nodes : Spine → List (Addr × Int)
  | last a data right => (a, data) :: right.toList
  | cons a data right rest => (a, data) :: (right.toList ++ rest.nodes)
  | shared a data rest => (a, data) :: rest.nodes

/-- `mem` holds the spine. -/
def Lies (mem : Memory) : Spine → Prop
  | last a data right => mem a = some ⟨data, none, right.map Prod.fst⟩ ∧
      ∀ q ∈ right, mem q.1 = some ⟨q.2, none, none⟩
  | cons a data right rest => mem a = some ⟨data, some rest.head, right.map Prod.fst⟩ ∧
      (∀ q ∈ right, mem q.1 = some ⟨q.2, none, none⟩) ∧ rest.Lies mem
  | shared a data rest => mem a = some ⟨data, some rest.head, some rest.head⟩ ∧ rest.Lies mem

def insert (newNode : Addr) (x : Int) : Spine → Spine
  | last a data right =>
    -- a node on the right gives way to the new one
    if x ≤ data then cons a data right (last newNode x none) else last a data (some (newNode, x))
  | cons a data right rest =>
    -- `root->left` comes back from the call, for `root->right`
    if x ≤ data then cons a data right (rest.insert newNode x) else shared a data (rest.insert newNode x)
  | shared a data rest => shared a data (rest.insert newNode x)

def leaf : Option (Addr × Int) → BinaryTree (Addr × Int)
  | none => .nil
  | some q => .node q .nil .nil

/-- The tree the pointers unfold to. -/
def toTree : Spine → BinaryTree (Addr × Int)
  | last a data right => .node (a, data) .nil (leaf right)
  | cons a data right rest => .node (a, data) rest.toTree (leaf right)
  | shared a data rest => .node (a, data) rest.toTree rest.toTree

/-- No node is shared. -/
def Plain : Spine → Prop
  | last _ _ _ => True
  | cons _ _ _ rest => rest.Plain
  | shared _ _ _ => False

/-- Inserting `x` shares no node and loses none. -/
def Accepts (x : Int) : Spine → Prop
  | last _ data right => x ≤ data ∨ right = none
  | cons _ data _ rest => x ≤ data ∧ rest.Accepts x
  | shared _ _ _ => False

variable {mem : Memory} {s : Spine} {newNode : Addr} {x : Int} {fuel : Nat}

@[simp] theorem head_insert : (s.insert newNode x).head = s.head := by
  cases s <;> simp only [insert] <;> (try split) <;> rfl

theorem length_pos (s : Spine) : 0 < s.nodes.length := by
  cases s <;> simp [nodes]

theorem ne_nil (s : Spine) : s.nodes ≠ [] := List.ne_nil_of_length_pos s.length_pos

/-- The new node comes last, and others may be lost. -/
theorem nodes_insert_sublist (newNode : Addr) (x : Int) (s : Spine) :
    (s.insert newNode x).nodes.Sublist (s.nodes ++ [(newNode, x)]) := by
  induction s with
  | last a data right =>
    unfold insert
    split
    case isTrue => exact List.Sublist.refl _
    case isFalse => exact (List.sublist_append_right right.toList _).cons_cons _
  | cons a data right rest ih =>
    unfold insert
    split
    case isTrue =>
      simp only [nodes, List.cons_append, List.append_assoc]
      exact (ih.append_left _).cons_cons _
    case isFalse =>
      simp only [nodes, List.cons_append, List.append_assoc]
      exact (ih.trans (List.sublist_append_right ..)).cons_cons _
  | shared a data rest ih => exact ih.cons_cons _

section Memory

theorem Lies.congr {mem' : Memory} (h : s.Lies mem) (heq : ∀ q ∈ s.nodes, mem' q.1 = mem q.1) : s.Lies mem' := by
  induction s with
  | last a data right =>
    simp only [nodes, List.forall_mem_cons, Option.mem_toList] at heq
    exact ⟨heq.1.trans h.1, fun q hq => (heq.2 q hq).trans (h.2 q hq)⟩
  | cons a data right rest ih =>
    simp only [nodes, List.forall_mem_cons, List.forall_mem_append, Option.mem_toList] at heq
    exact ⟨heq.1.trans h.1, fun q hq => (heq.2.1 q hq).trans (h.2.1 q hq), ih h.2.2 heq.2.2⟩
  | shared a data rest ih =>
    simp only [nodes, List.forall_mem_cons] at heq
    exact ⟨heq.1.trans h.1, ih h.2 heq.2⟩

theorem Lies.mem_ne_none (h : s.Lies mem) : ∀ q ∈ s.nodes, mem q.1 ≠ none := by
  induction s with
  | last a data right =>
    simp only [nodes, List.forall_mem_cons, Option.mem_toList]
    exact ⟨by simp [h.1], fun q hq => by simp [h.2 q hq]⟩
  | cons a data right rest ih =>
    simp only [nodes, List.forall_mem_cons, List.forall_mem_append, Option.mem_toList]
    exact ⟨by simp [h.1], fun q hq => by simp [h.2.1 q hq], ih h.2.2⟩
  | shared a data rest ih =>
    simp only [nodes, List.forall_mem_cons]
    exact ⟨by simp [h.1], ih h.2⟩

theorem holds_leaf {right : Option (Addr × Int)} (h : ∀ q ∈ right, mem q.1 = some ⟨q.2, none, none⟩) :
    Holds mem (right.map Prod.fst) (leaf right) := by
  cases right with
  | none => exact .null
  | some q => exact .node (h q rfl) .null .null

theorem Lies.holds (h : s.Lies mem) : Holds mem (some s.head) s.toTree := by
  induction s with
  | last a data right => exact .node h.1 .null (holds_leaf h.2)
  | cons a data right rest ih => exact .node h.1 (ih h.2.2) (holds_leaf h.2.1)
  | shared a data rest ih => exact .node h.1 (ih h.2) (ih h.2)

/-- The value `x` goes to the left or, from the left, to the right. -/
theorem insert_of_left {a : Addr} {nd : BstNode} {mem' : Memory} {p : Option Addr} (ha : mem a = some nd)
    (hleft : SearchTree.insert newNode x fuel mem nd.left = some (mem', p)) (ha' : mem' a = some nd) :
    SearchTree.insert newNode x (fuel + 1) mem (some a) =
      some (Function.update mem' a (some (if x ≤ nd.data then { nd with left := p } else { nd with right := p })),
        some a) := by
  simp only [SearchTree.insert, ha, hleft, modify, ha', Option.bind_eq_bind, Option.bind_some]
  split <;> rfl

theorem Lies.update {a : Addr} {nd : Option BstNode} (h : (s.insert newNode x).Lies mem)
    (ha : a ∉ s.nodes.map Prod.fst) (hne : a ≠ newNode) : (s.insert newNode x).Lies (Function.update mem a nd) := by
  apply h.congr
  intro q hq
  apply Function.update_of_ne
  rintro rfl
  rcases List.mem_append.mp ((nodes_insert_sublist newNode x s).subset hq) with hq | hq
  · exact ha (List.mem_map_of_mem hq)
  · exact hne (congrArg Prod.fst (List.mem_singleton.mp hq))

theorem ne_newNode {a : Addr} {nd : BstNode} (ha : mem a = some nd) (hnew : mem newNode = none) : a ≠ newNode := by
  rintro rfl
  simp [ha] at hnew

/-- The call on a node with a left child, from what the call on the child does. -/
theorem insert_down {a : Addr} {nd : BstNode} {mem₁ : Memory} (ha : mem a = some nd) (hleft : nd.left = some s.head)
    (hout : a ∉ s.nodes.map Prod.fst) (hnew : mem newNode = none)
    (hcall : SearchTree.insert newNode x fuel mem (some s.head) = some (mem₁, some s.head))
    (hlies : (s.insert newNode x).Lies mem₁)
    (hframe : ∀ b ∉ s.nodes.map Prod.fst, b ≠ newNode → mem₁ b = mem b) :
    ∃ mem', SearchTree.insert newNode x (fuel + 1) mem (some a) = some (mem', some a) ∧
      mem' a = some (if x ≤ nd.data then nd else { nd with right := some s.head }) ∧ (s.insert newNode x).Lies mem' ∧
      ∀ b ∉ s.nodes.map Prod.fst, b ≠ a → b ≠ newNode → mem' b = mem b := by
  have hne : a ≠ newNode := ne_newNode ha hnew
  rw [← hleft] at hcall
  refine ⟨_, insert_of_left ha hcall ((hframe a hout hne).trans ha), ?_, hlies.update hout hne, fun b hb hba hb' => ?_⟩
  · simp [← hleft]
  · rw [Function.update_of_ne hba, hframe b hb hb']

/-- `Insert` returns and does to the memory what `insert` does to the spine. -/
theorem Lies.insert (h : s.Lies mem) (hnodup : (s.nodes.map Prod.fst).Nodup) (hnew : mem newNode = none)
    (hfuel : s.nodes.length < fuel) (x : Int) :
    ∃ mem', SearchTree.insert newNode x fuel mem (some s.head) = some (mem', some s.head) ∧
      (s.insert newNode x).Lies mem' ∧ ∀ b ∉ s.nodes.map Prod.fst, b ≠ newNode → mem' b = mem b := by
  induction s generalizing fuel with
  | last a data right =>
    obtain ⟨fuel, rfl⟩ := Nat.exists_eq_add_of_lt ((Nat.succ_le_of_lt (length_pos _)).trans_lt hfuel)
    have hne : a ≠ newNode := ne_newNode h.1 hnew
    have hright : ∀ q ∈ right, q.1 ≠ a := by
      rintro q hq rfl
      simp [nodes, Option.mem_def.mp hq] at hnodup
    have hleft : SearchTree.insert newNode x (fuel + 1) mem none =
        some (Function.update mem newNode (some ⟨x, none, none⟩), some newNode) := rfl
    have hcall := insert_of_left h.1 hleft ((Function.update_of_ne hne ..).trans h.1)
    rw [Nat.add_comm 1, Nat.add_right_comm]
    refine ⟨_, hcall, ?_, fun b hb hb' => ?_⟩
    · unfold Spine.insert
      split
      case isTrue =>
        refine ⟨Function.update_self .., fun q hq => ?_, ?_⟩
        · rw [Function.update_of_ne (hright q hq), Function.update_of_ne (ne_newNode (h.2 q hq) hnew)]
          exact h.2 q hq
        · simp [Lies, hne.symm]
      case isFalse => simp [Lies, hne.symm]
    · simp only [nodes, List.map_cons, List.mem_cons, not_or] at hb
      rw [Function.update_of_ne hb.1, Function.update_of_ne hb']
  | cons a data right rest ih =>
    obtain ⟨fuel, rfl⟩ := Nat.exists_eq_succ_of_ne_zero (by omega : fuel ≠ 0)
    simp only [nodes, List.map_cons, List.map_append, List.nodup_cons, List.nodup_append, List.mem_append,
      not_or, List.length_cons, List.length_append] at hnodup hfuel
    obtain ⟨⟨haright, harest⟩, -, hrest, hdisj⟩ := hnodup
    have hdepth : rest.nodes.length < fuel := by omega
    obtain ⟨mem₁, hcall₁, hlies₁, hframe₁⟩ := ih h.2.2 hrest hdepth
    obtain ⟨mem', hcall, hself, hlies, hframe⟩ := insert_down h.1 rfl harest hnew hcall₁ hlies₁ hframe₁
    refine ⟨mem', hcall, ?_, fun b hb hb' => ?_⟩
    · unfold Spine.insert
      split at hself
      case isTrue hx =>
        rw [if_pos hx]
        refine ⟨by rw [hself, head_insert], fun q hq => ?_, hlies⟩
        have hmem : q.1 ∈ right.toList.map Prod.fst := List.mem_map_of_mem (Option.mem_toList.mpr hq)
        have hout : q.1 ∉ rest.nodes.map Prod.fst := fun hq' => hdisj _ hmem _ hq' rfl
        rw [hframe _ hout (ne_of_mem_of_not_mem hmem haright) (ne_newNode (h.2.1 q hq) hnew)]
        exact h.2.1 q hq
      case isFalse hx =>
        rw [if_neg hx]
        exact ⟨by rw [hself, head_insert], hlies⟩
    · simp only [nodes, List.map_cons, List.map_append, List.mem_cons, List.mem_append, not_or] at hb
      exact hframe b hb.2.2 hb.1 hb'
  | shared a data rest ih =>
    obtain ⟨fuel, rfl⟩ := Nat.exists_eq_succ_of_ne_zero (by omega : fuel ≠ 0)
    simp only [nodes, List.map_cons, List.nodup_cons, List.length_cons] at hnodup hfuel
    obtain ⟨ha, hrest⟩ := hnodup
    have hdepth : rest.nodes.length < fuel := by omega
    obtain ⟨mem₁, hcall₁, hlies₁, hframe₁⟩ := ih h.2 hrest hdepth
    obtain ⟨mem', hcall, hself, hlies, hframe⟩ := insert_down h.1 rfl ha hnew hcall₁ hlies₁ hframe₁
    refine ⟨mem', hcall, ⟨?_, hlies⟩, fun b hb hb' => ?_⟩
    · rw [hself, head_insert]
      split <;> rfl
    · simp only [nodes, List.map_cons, List.mem_cons, not_or] at hb
      exact hframe b hb.2 hb.1 hb'

end Memory

end Spine

end SsdScheduler.SearchTree
