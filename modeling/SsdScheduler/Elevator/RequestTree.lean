import SsdScheduler.BlockLayer
import SsdScheduler.Framework.Machine
import SsdScheduler.Framework.Rotations

/-!
# The sorted request trees of `elevator.c`

`elv_rb_add`, `elv_rb_del` and `elv_rb_find` walk a red-black tree whose rebalancing is the kernel's. All that matters of
it is that it rotates the tree.
-/

namespace SsdScheduler.Elevator

open Framework Framework.Rotations

/-- `rb_insert_color` after a node was linked, and `rb_erase`. -/
structure RbOps where
  rbInsertColor : Rq → BinaryTree Rq → BinaryTree Rq
  rbErase : Rq → BinaryTree Rq → BinaryTree Rq
  insertColor_rotates : ∀ rq t, Rebalances t (rbInsertColor rq t)
  erase_rotates : ∀ rq t, Rebalances (unlink rq t) (rbErase rq t)

namespace RbOps

/-- What the kernel does to trees of at most two nodes. -/
def plain : RbOps where
  rbInsertColor _ t := t
  rbErase := unlink
  insertColor_rotates _ _ := .refl
  erase_rotates _ _ := .refl

variable (k : RbOps) (pos : Rq → Nat)

/-- `elv_rb_add`. -/
def elvRbAdd (root : BinaryTree Rq) (rq : Rq) : BinaryTree Rq :=
  k.rbInsertColor rq (link (fun r => pos rq < pos r) rq root)

/-- `elv_rb_del`, where a request that is in no tree fires the `BUG_ON`. -/
def elvRbDel (root : BinaryTree Rq) (rq : Rq) : Option (BinaryTree Rq) :=
  if rq ∈ inorder root then some (k.rbErase rq root) else none

end RbOps

/-- `elv_rb_find`. -/
def elvRbFind (pos : Rq → Nat) (root : BinaryTree Rq) (sector : Nat) : Option Rq :=
  find (fun r => compare sector (pos r)) root

/-- `elv_rb_latter_request`, by `rb_next`. -/
def elvRbLatterRequest (root : BinaryTree Rq) (rq : Rq) : Option Rq := SortedList.next rq (inorder root)

/-- `elv_rb_former_request`, by `rb_prev`. -/
def elvRbFormerRequest (root : BinaryTree Rq) (rq : Rq) : Option Rq := SortedList.next rq (inorder root).reverse

open SortedList

variable {k : RbOps} {pos : Rq → Nat} {root : BinaryTree Rq} {rq : Rq}

theorem inorder_elvRbAdd (h : Sorted pos (inorder root)) (rq : Rq) :
    inorder (k.elvRbAdd pos root rq) = SortedList.insert pos rq (inorder root) := by
  unfold RbOps.elvRbAdd
  rw [(k.insertColor_rotates rq _).inorder_eq]
  exact inorder_link_sorted rq h

theorem inorder_elvRbDel (h : (inorder root).Nodup) (rq : Rq) :
    (k.elvRbDel root rq).map inorder = if rq ∈ inorder root then some ((inorder root).erase rq) else none := by
  unfold RbOps.elvRbDel
  split
  case isFalse => rfl
  case isTrue => exact congrArg some (((k.erase_rotates rq root).inorder_eq).trans (inorder_unlink rq h))

/-- The search returns a request at the sector whenever the tree has one. -/
theorem elvRbFind_spec (h : Sorted pos (inorder root)) (sector : Nat) :
    (∀ rq ∈ elvRbFind pos root sector, rq ∈ inorder root ∧ pos rq = sector) ∧
      (elvRbFind pos root sector = none → ∀ rq ∈ inorder root, pos rq ≠ sector) := by
  constructor
  · intro rq hrq
    obtain ⟨hin, heq⟩ := find_mem hrq
    exact ⟨hin, (compare_eq_iff_eq.mp heq).symm⟩
  · intro hnone rq hin hpos
    apply find_ne_none (fun r => compare sector (pos r)) _ hin (compare_eq_iff_eq.mpr hpos.symm) hnone
    apply h.imp
    intro a b hle
    rw [compare_lt_iff_lt, compare_lt_iff_lt, compare_gt_iff_gt, compare_gt_iff_gt]
    exact ⟨fun hlt => lt_of_lt_of_le hlt hle, fun hgt => lt_of_le_of_lt hle hgt⟩

/-- `elv_rb_former_request` goes back where `elv_rb_latter_request` came from. -/
theorem former_eq_some_iff_latter {rq' : Rq} (h : (inorder root).Nodup) :
    elvRbFormerRequest root rq' = some rq ↔ elvRbLatterRequest root rq = some rq' := by
  unfold elvRbFormerRequest elvRbLatterRequest
  rw [next_eq_some_iff h, next_eq_some_iff (List.nodup_reverse.mpr h)]
  constructor
  · rintro ⟨pre, post, hl⟩
    exact ⟨post.reverse, pre.reverse, by rw [← List.reverse_reverse (inorder root), hl]; simp⟩
  · rintro ⟨pre, post, hl⟩
    exact ⟨post.reverse, pre.reverse, by rw [hl]; simp⟩

section Runs

inductive TreeCall
  | add (rq : Rq)
  | del (rq : Rq)

/-- What a call does to the sorted list. -/
def TreeCall.apply (pos : Rq → Nat) (l : List Rq) : TreeCall → List Rq
  | .add rq => SortedList.insert pos rq l
  | .del rq => l.erase rq

/-- A tree to which no request is added twice. -/
def requestTree (k : RbOps) (pos : Rq → Nat) : Machine (BinaryTree Rq) TreeCall Unit where
  legal root
    | .add rq => rq ∉ inorder root
    | .del _ => True
  step root
    | .add rq => some ((), k.elvRbAdd pos root rq)
    | .del rq => (k.elvRbDel root rq).map fun t => ((), t)

variable {tr : List (Event (BinaryTree Rq) TreeCall Unit)}

theorem requestTree_step {call : TreeCall} {root' : BinaryTree Rq} (hs : Sorted pos (inorder root))
    (hn : (inorder root).Nodup) (hl : (requestTree k pos).legal root call)
    (h : (requestTree k pos).step root call = some ((), root')) :
    inorder root' = call.apply pos (inorder root) ∧ Sorted pos (inorder root') ∧ (inorder root').Nodup := by
  cases call with
  | add rq =>
    obtain rfl : _ = root' := congrArg Prod.snd (Option.some.inj h)
    rw [inorder_elvRbAdd hs]
    exact ⟨rfl, hs.insert rq, (insert_perm pos rq _).nodup_iff.mpr (List.nodup_cons.mpr ⟨hl, hn⟩)⟩
  | del rq =>
    obtain ⟨t, ht, he⟩ := Option.map_eq_some_iff.mp h
    obtain rfl : t = root' := congrArg Prod.snd he
    have hdel := inorder_elvRbDel (k := k) hn rq
    rw [ht] at hdel
    split at hdel
    case isFalse => cases hdel
    case isTrue =>
      rw [Option.some.inj hdel]
      exact ⟨rfl, hs.erase rq, hn.erase rq⟩

theorem requestTree_run {root' : BinaryTree Rq} (h : (requestTree k pos).Run root tr root') (hs : Sorted pos (inorder root))
    (hn : (inorder root).Nodup) : inorder root' = (tr.map Event.call).foldl (TreeCall.apply pos) (inorder root) ∧
      Sorted pos (inorder root') ∧ (inorder root').Nodup := by
  induction h with
  | nil => exact ⟨rfl, hs, hn⟩
  | cons hl he _ ih =>
    obtain ⟨happly, hs', hn'⟩ := requestTree_step hs hn hl he
    obtain ⟨hfold, hrest⟩ := ih hs' hn'
    exact ⟨by rw [hfold, happly]; rfl, hrest⟩

/-- However the tree is rebalanced, it is the sorted list of its requests, with those at one position in the order in
which they were added; the search finds a request at every position that has one, and the neighbours are those in the
list. -/
theorem requestTree_answers (h : (requestTree k pos).Run .nil tr root) :
    inorder root = (tr.map Event.call).foldl (TreeCall.apply pos) [] ∧ Sorted pos (inorder root) ∧
      (∀ sector, (∀ rq ∈ elvRbFind pos root sector, rq ∈ inorder root ∧ pos rq = sector) ∧
        (elvRbFind pos root sector = none → ∀ rq ∈ inorder root, pos rq ≠ sector)) ∧
      (∀ rq rq', elvRbLatterRequest root rq = some rq' ↔ ∃ pre post, inorder root = pre ++ rq :: rq' :: post) ∧
      ∀ rq rq', elvRbFormerRequest root rq' = some rq ↔ elvRbLatterRequest root rq = some rq' := by
  obtain ⟨hfold, hs, hn⟩ := requestTree_run h .nil .nil
  exact ⟨hfold, hs, elvRbFind_spec hs, fun _ _ => next_eq_some_iff hn, fun _ _ => former_eq_some_iff_latter hn⟩

instance (root : BinaryTree Rq) : (call : TreeCall) → Decidable ((requestTree k pos).legal root call)
  | .add rq => inferInstanceAs (Decidable (rq ∉ inorder root))
  | .del _ => inferInstanceAs (Decidable True)

theorem requestTree_answers_two :
    ∃ tr root, (requestTree .plain fun rq => 8 * rq).Run .nil tr root ∧
      inorder root = [1, 3] ∧ inorder root = (tr.map Event.call).foldl (TreeCall.apply fun rq => 8 * rq) [] := by
  have hplays : (requestTree .plain fun rq => 8 * rq).Plays .nil [.add 2, .add 1, .del 2, .add 3]
      (fun _ root => inorder root = [1, 3]) := by decide
  obtain ⟨tr, root, hr, -, hroot⟩ := hplays.exists_run
  exact ⟨tr, root, hr, hroot, (requestTree_answers hr).1⟩

end Runs

end SsdScheduler.Elevator
