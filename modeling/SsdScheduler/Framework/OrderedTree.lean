import Mathlib.Data.List.Induction
import Mathlib.Data.Multiset.MapFold
import Mathlib.Data.Tree.Basic
import Mathlib.Order.Defs.LinearOrder

/-!
# Search trees

A node has its key at most on the left and above on the right, so that equal keys go left. The nodes of a
tree are counted as a multiset.
-/

namespace Framework.OrderedTree

variable {A : Type*} {K : Type*} [LinearOrder K] {key : A → K} {t l r : BinaryTree A} {a b : A} {k : K}

def nodes : BinaryTree A → Multiset A
  | .nil => 0
  | .node a l r => a ::ₘ (nodes l + nodes r)

def Ordered (key : A → K) : BinaryTree A → Prop
  | .nil => True
  | .node a l r =>
    (∀ b ∈ nodes l, key b ≤ key a) ∧ (∀ b ∈ nodes r, key a < key b) ∧ Ordered key l ∧ Ordered key r

def insert (key : A → K) (a : A) : BinaryTree A → BinaryTree A
  | .nil => .node a .nil .nil
  | .node b l r => if key a ≤ key b then .node b (insert key a l) r else .node b l (insert key a r)

/-- The tree of the elements of a list, inserted one after the other. -/
def build (key : A → K) (as : List A) : BinaryTree A := as.foldl (fun t a => insert key a t) .nil

def lookup (key : A → K) (k : K) : BinaryTree A → Option A
  | .nil => none
  | .node a l r => if key a = k then some a else if k ≤ key a then lookup key k l else lookup key k r

@[simp] theorem nodes_nil : nodes (.nil : BinaryTree A) = 0 := rfl

@[simp] theorem nodes_node : nodes (.node a l r) = a ::ₘ (nodes l + nodes r) := rfl

theorem nodes_insert (key : A → K) (a : A) (t : BinaryTree A) : nodes (insert key a t) = a ::ₘ nodes t := by
  induction t with
  | nil => rfl
  | node b l r ihl ihr =>
    unfold insert
    split
    case isTrue => rw [nodes_node, nodes_node, ihl, Multiset.cons_add, Multiset.cons_swap]
    case isFalse => rw [nodes_node, nodes_node, ihr, Multiset.add_cons, Multiset.cons_swap]

theorem Ordered.insert (h : Ordered key t) (a : A) : Ordered key (insert key a t) := by
  induction t with
  | nil => simp [OrderedTree.insert, Ordered]
  | node b l r ihl ihr =>
    obtain ⟨hle, hlt, hl, hr⟩ := h
    unfold OrderedTree.insert
    split
    case isTrue hab =>
      refine ⟨?_, hlt, ihl hl, hr⟩
      rw [nodes_insert]
      exact Multiset.forall_mem_cons.mpr ⟨hab, hle⟩
    case isFalse hab =>
      refine ⟨hle, ?_, hl, ihr hr⟩
      rw [nodes_insert]
      exact Multiset.forall_mem_cons.mpr ⟨not_le.mp hab, hlt⟩

section Build

theorem build_append (key : A → K) (as : List A) (a : A) : build key (as ++ [a]) = insert key a (build key as) := by
  simp [build]

theorem ordered_build (key : A → K) (as : List A) : Ordered key (build key as) := by
  induction as using List.reverseRecOn with
  | nil => trivial
  | append_singleton as a ih =>
    rw [build_append]
    exact ih.insert a

theorem nodes_build (key : A → K) (as : List A) : nodes (build key as) = as := by
  induction as using List.reverseRecOn with
  | nil => rfl
  | append_singleton as a ih =>
    rw [build_append, nodes_insert, ih, Multiset.cons_coe, Multiset.coe_eq_coe]
    exact (List.perm_append_singleton a as).symm

end Build

section Lookup

theorem mem_of_lookup (h : lookup key k t = some a) : a ∈ nodes t ∧ key a = k := by
  induction t with
  | nil => cases h
  | node b l r ihl ihr =>
    rw [nodes_node, Multiset.mem_cons, Multiset.mem_add]
    unfold lookup at h
    split at h
    case isTrue hb =>
      obtain rfl := Option.some.inj h
      exact ⟨.inl rfl, hb⟩
    case isFalse =>
      split at h
      case isTrue => exact (ihl h).imp_left fun ha => .inr (.inl ha)
      case isFalse => exact (ihr h).imp_left fun ha => .inr (.inr ha)

/-- In order, a key is found exactly if a node has it. -/
theorem Ordered.lookup_eq_none_iff (h : Ordered key t) : lookup key k t = none ↔ ∀ a ∈ nodes t, key a ≠ k := by
  induction t with
  | nil => simp [lookup]
  | node b l r ihl ihr =>
    obtain ⟨hle, hlt, hl, hr⟩ := h
    simp only [nodes_node, Multiset.mem_cons, Multiset.mem_add, or_imp, forall_and, forall_eq]
    unfold lookup
    split
    case isTrue hb => simp [hb]
    case isFalse hb =>
      split
      case isTrue hk =>
        have hright : ∀ a ∈ nodes r, key a ≠ k := fun a ha => (hk.trans_lt (hlt a ha)).ne'
        rw [ihl hl]
        exact ⟨fun hleft => ⟨hb, hleft, hright⟩, fun hall => hall.2.1⟩
      case isFalse hk =>
        have hleft : ∀ a ∈ nodes l, key a ≠ k := fun a ha => ((hle a ha).trans_lt (not_le.mp hk)).ne
        rw [ihr hr]
        exact ⟨fun hright => ⟨hb, hleft, hright⟩, fun hall => hall.2.2⟩

end Lookup

end Framework.OrderedTree
