import Mathlib.Data.List.Nodup
import Mathlib.Data.Tree.Basic
import Mathlib.Logic.Relation
import SsdScheduler.Framework.SortedList

/-!
# Search trees up to rotations

A tree is read from left to right. Linking a node at the end of a descent, taking one out, and any number of rotations
after either have an effect on that sequence which does not depend on the shape of the tree.
-/

namespace Framework.Rotations

variable {A : Type*} {t u l r : BinaryTree A} {a b : A}

def inorder : BinaryTree A → List A
  | .nil => []
  | .node a l r => inorder l ++ a :: inorder r

@[simp] theorem inorder_nil : inorder (.nil : BinaryTree A) = [] := rfl

@[simp] theorem inorder_node : inorder (.node a l r) = inorder l ++ a :: inorder r := rfl

section Rotating

/-- A rotation somewhere in the tree. -/
inductive Rotation : BinaryTree A → BinaryTree A → Prop
  | right (a b : A) (x y z : BinaryTree A) : Rotation (.node a (.node b x y) z) (.node b x (.node a y z))
  | left (a b : A) (x y z : BinaryTree A) : Rotation (.node b x (.node a y z)) (.node a (.node b x y) z)
  | inLeft (a : A) {l l' : BinaryTree A} (r : BinaryTree A) (h : Rotation l l') : Rotation (.node a l r) (.node a l' r)
  | inRight (a : A) (l : BinaryTree A) {r r' : BinaryTree A} (h : Rotation r r') : Rotation (.node a l r) (.node a l r')

def Rebalances : BinaryTree A → BinaryTree A → Prop := Relation.ReflTransGen Rotation

theorem Rotation.inorder_eq (h : Rotation t u) : inorder u = inorder t := by
  induction h with
  | right a b x y z => simp
  | left a b x y z => simp
  | inLeft a r _ ih => simp [ih]
  | inRight a l _ ih => simp [ih]

theorem Rebalances.inorder_eq (h : Rebalances t u) : inorder u = inorder t := by
  induction h with
  | refl => rfl
  | tail _ hr ih => exact hr.inorder_eq.trans ih

end Rotating

section Linking

theorem takeWhile_append_stop {p : A → Bool} (hb : p b = false) (l r : List A) :
    (l ++ b :: r).takeWhile p = l.takeWhile p := by
  induction l with
  | nil => simp [hb]
  | cons x l ih =>
    rw [List.cons_append, List.takeWhile_cons, List.takeWhile_cons, ih]

theorem dropWhile_append_stop {p : A → Bool} (hb : p b = false) (l r : List A) :
    (l ++ b :: r).dropWhile p = l.dropWhile p ++ b :: r := by
  induction l with
  | nil => simp [hb]
  | cons x l ih =>
    rw [List.cons_append, List.dropWhile_cons, List.dropWhile_cons, ih]
    split
    case isTrue => rfl
    case isFalse => rfl

/-- Put `a` where a descent that turns left at the nodes with `left` ends. -/
def link (left : A → Bool) (a : A) : BinaryTree A → BinaryTree A
  | .nil => .node a .nil .nil
  | .node b l r => if left b then .node b (link left a l) r else .node b l (link left a r)

/-- The new node lies between those at which the descent turns right and those at which it would turn left. -/
theorem inorder_link {left : A → Bool} (a : A) (h : (inorder t).Pairwise fun b c => left b = true → left c = true) :
    inorder (link left a t) = (inorder t).takeWhile (fun b => !left b) ++ a :: (inorder t).dropWhile fun b => !left b := by
  induction t with
  | nil => rfl
  | node b l r ihl ihr =>
    rw [inorder_node] at h
    obtain ⟨hl, hbr, hcross⟩ := List.pairwise_append.mp h
    obtain ⟨hb, hr⟩ := List.pairwise_cons.mp hbr
    unfold link
    split
    case isTrue hleft =>
      -- the place is before `b`, which ends the first part
      have hstop : (!left b) = false := by simp [hleft]
      rw [inorder_node, ihl hl, inorder_node, takeWhile_append_stop (p := fun x => !left x) hstop,
        dropWhile_append_stop (p := fun x => !left x) hstop, List.append_assoc, List.cons_append]
    case isFalse hleft =>
      have hall : ∀ x ∈ inorder l, (!left x) = true := by
        intro x hx
        rw [Bool.not_eq_true']
        cases hx' : left x with
        | false => rfl
        | true => exact absurd (hcross x hx b (List.mem_cons_self ..) hx') hleft
      rw [inorder_node, ihr hr, inorder_node, List.takeWhile_append_of_pos hall, List.dropWhile_append_of_pos hall]
      simp [hleft]

end Linking

section Unlinking

/-- The first node and the rest of the tree that has it. -/
def takeFirst (a : A) (l r : BinaryTree A) : A × BinaryTree A :=
  match l with
  | .nil => (a, r)
  | .node b x y => ((takeFirst b x y).1, .node a (takeFirst b x y).2 r)

theorem inorder_takeFirst (a : A) (l r : BinaryTree A) :
    (takeFirst a l r).1 :: inorder (takeFirst a l r).2 = inorder l ++ a :: inorder r := by
  induction l generalizing a r with
  | nil => rfl
  | node b x y ihx _ =>
    have ih := ihx b y
    unfold takeFirst
    rw [inorder_node, ← List.cons_append, ih, inorder_node]

/-- What takes the place of a node: one subtree if the other is empty, else the first node behind it. -/
def replace (l r : BinaryTree A) : BinaryTree A :=
  match l, r with
  | .nil, r => r
  | l, .nil => l
  | l, .node b x y => .node (takeFirst b x y).1 l (takeFirst b x y).2

theorem inorder_replace (l r : BinaryTree A) : inorder (replace l r) = inorder l ++ inorder r := by
  cases l with
  | nil => rfl
  | node b x y =>
    cases r with
    | nil => simp [replace]
    | node c z w =>
      unfold replace
      rw [inorder_node, inorder_takeFirst, ← inorder_node]

variable [DecidableEq A]

/-- Take the node `a` out of the tree. -/
def unlink (a : A) : BinaryTree A → BinaryTree A
  | .nil => .nil
  | .node b l r => if b = a then replace l r else .node b (unlink a l) (unlink a r)

theorem inorder_unlink (a : A) (h : (inorder t).Nodup) : inorder (unlink a t) = (inorder t).erase a := by
  induction t with
  | nil => rfl
  | node b l r ihl ihr =>
    rw [inorder_node] at h ⊢
    obtain ⟨hl, hbr, hdisj⟩ := List.nodup_append.mp h
    obtain ⟨hb, hr⟩ := List.nodup_cons.mp hbr
    unfold unlink
    split
    case isTrue hba =>
      subst hba
      have hnot : b ∉ inorder l := fun hm => hdisj b hm b (List.mem_cons_self ..) rfl
      rw [inorder_replace, List.erase_append_right _ hnot, List.erase_cons_head]
    case isFalse hba =>
      rw [inorder_node, ihl hl, ihr hr]
      by_cases hin : a ∈ inorder l
      · have hnot : a ∉ inorder r := fun hm => hdisj a hin a (List.mem_cons_of_mem b hm) rfl
        rw [List.erase_append_left _ hin, List.erase_of_not_mem hnot]
      · rw [List.erase_append_right _ hin, List.erase_cons_tail (by simpa using hba), List.erase_of_not_mem hin]

end Unlinking

section Searching

/-- Descend by comparison until a node compares equal. -/
def find (cmp : A → Ordering) : BinaryTree A → Option A
  | .nil => none
  | .node b l r =>
    match cmp b with
    | .lt => find cmp l
    | .gt => find cmp r
    | .eq => some b

theorem find_mem {cmp : A → Ordering} (h : find cmp t = some a) : a ∈ inorder t ∧ cmp a = .eq := by
  induction t with
  | nil => cases h
  | node b l r ihl ihr =>
    simp only [find] at h
    split at h
    case h_1 => exact (ihl h).imp_left fun hm => List.mem_append_left _ hm
    case h_2 => exact (ihr h).imp_left fun hm => List.mem_append_right _ (List.mem_cons_of_mem b hm)
    case h_3 heq =>
      cases h
      exact ⟨List.mem_append_right _ (List.mem_cons_self ..), heq⟩

/-- The search finds a node that compares equal if the comparison only grows from left to right. -/
theorem find_ne_none (cmp : A → Ordering)
    (hsorted : (inorder t).Pairwise fun b c => (cmp b = .lt → cmp c = .lt) ∧ (cmp c = .gt → cmp b = .gt))
    (ha : a ∈ inorder t) (heq : cmp a = .eq) : find cmp t ≠ none := by
  induction t with
  | nil => cases ha
  | node b l r ihl ihr =>
    rw [inorder_node] at hsorted ha
    obtain ⟨hl, hbr, hcross⟩ := List.pairwise_append.mp hsorted
    obtain ⟨hb, hr⟩ := List.pairwise_cons.mp hbr
    simp only [find]
    split
    case h_1 hlt =>
      apply ihl hl
      rcases List.mem_append.mp ha with ha | ha
      · exact ha
      · rcases List.mem_cons.mp ha with rfl | ha
        · simp [hlt] at heq
        · simp [(hb a ha).1 hlt] at heq
    case h_2 hgt =>
      apply ihr hr
      rcases List.mem_append.mp ha with ha | ha
      · simp [(hcross a ha b (List.mem_cons_self ..)).2 hgt] at heq
      · rcases List.mem_cons.mp ha with rfl | ha
        · simp [hgt] at heq
        · exact ha
    case h_3 => exact Option.some_ne_none _

end Searching

section Keys

variable {K : Type*} [LinearOrder K] {key : A → K}

open SortedList

/-- A descent that goes left exactly at the greater keys inserts behind the equal ones. -/
theorem inorder_link_sorted (a : A) (h : Sorted key (inorder t)) :
    inorder (link (fun b => key a < key b) a t) = SortedList.insert key a (inorder t) := by
  rw [inorder_link a (h.imp fun hle hlt => by simpa using lt_of_lt_of_le (by simpa using hlt) hle)]
  unfold SortedList.insert
  rw [List.orderedInsert_eq_take_drop]
  simp only [decide_not]

end Keys

end Framework.Rotations
