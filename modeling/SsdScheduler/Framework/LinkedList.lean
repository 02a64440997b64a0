import Mathlib.Logic.Function.Basic
import Mathlib.Tactic.Common

/-!
# Intrusive circular lists

The `struct list_head` operations of the kernel over a memory of nodes, each with a `next` and a
`prev` pointer. A node is the head of a list or an entry; nothing in it says which.
-/

namespace Framework

/-- `struct list_head`. -/
structure ListHead (N : Type*) where
  next : N
  prev : N
deriving DecidableEq, Repr

namespace ListHead

variable {N : Type*} [DecidableEq N] {m : N → ListHead N} {h x y : N}

/-- `INIT_LIST_HEAD`. -/
def initListHead (m : N → ListHead N) (h : N) : N → ListHead N := Function.update m h ⟨h, h⟩

/-- `__list_add`. -/
def listAdd (m : N → ListHead N) (new prev next : N) : N → ListHead N :=
  let m := Function.update m next { m next with prev := new }
  let m := Function.update m new { m new with next := next }
  let m := Function.update m new { m new with prev := prev }
  Function.update m prev { m prev with next := new }

/-- `list_add_tail`. -/
def listAddTail (m : N → ListHead N) (new head : N) : N → ListHead N := listAdd m new (m head).prev head

/-- `__list_del`. -/
def listDel (m : N → ListHead N) (prev next : N) : N → ListHead N :=
  let m := Function.update m next { m next with prev := prev }
  Function.update m prev { m prev with next := next }

/-- `list_del_init`. -/
def listDelInit (m : N → ListHead N) (entry : N) : N → ListHead N :=
  initListHead (listDel m (m entry).prev (m entry).next) entry

/-- `list_first_entry_or_null`. -/
def listFirst (m : N → ListHead N) (head : N) : Option N :=
  if (m head).next = head then none else some (m head).next

/-- The list of `h` has the one entry `x`. -/
structure Sole (m : N → ListHead N) (h x : N) : Prop where
  ne : x ≠ h
  head : m h = ⟨x, x⟩
  entry : m x = ⟨h, h⟩

theorem listAddTail_empty (he : m h = ⟨h, h⟩) (hx : x ≠ h) : Sole (listAddTail m x h) h x where
  ne := hx
  head := by simp [listAddTail, listAdd, he, hx.symm]
  entry := by simp [listAddTail, listAdd, he, hx]

theorem listAddTail_of_ne (he : m h = ⟨h, h⟩) (hh : y ≠ h) (hx : y ≠ x) : listAddTail m x h y = m y := by
  simp [listAddTail, listAdd, he, hh, hx]

theorem Sole.first (hs : Sole m h x) : listFirst m h = some x := by
  simp [listFirst, hs.head, hs.ne]

theorem listDelInit_head (he : m x = ⟨h, h⟩) (hx : x ≠ h) : listDelInit m x h = ⟨h, h⟩ := by
  simp [listDelInit, initListHead, listDel, he, hx.symm]

theorem listDelInit_of_ne (he : m x = ⟨h, h⟩) (hh : y ≠ h) (hx : y ≠ x) : listDelInit m x y = m y := by
  simp [listDelInit, initListHead, listDel, he, hh, hx]

theorem listDelInit_self : listDelInit m x x = ⟨x, x⟩ := Function.update_self ..

/-- No list leads to `x`. -/
def Unlinked (m : N → ListHead N) (x : N) : Prop := ∀ y, (m y).next ≠ x

theorem Unlinked.first_ne (hu : Unlinked m x) (hf : listFirst m h = some y) : y ≠ x := by
  unfold listFirst at hf
  split at hf
  · cases hf
  · exact Option.some.inj hf ▸ hu h

theorem Unlinked.listAddTail (hu : Unlinked m x) (hh : h ≠ x) (hy : y ≠ x) : Unlinked (listAddTail m y h) x := by
  intro z
  simp only [ListHead.listAddTail, listAdd, Function.update_apply]
  split_ifs
  all_goals first | exact hy | exact hh | exact hu _

theorem Unlinked.listDelInit (hu : Unlinked m x) (hy : y ≠ x) : Unlinked (listDelInit m y) x := by
  intro z
  simp only [ListHead.listDelInit, initListHead, listDel, Function.update_apply]
  split_ifs
  all_goals first | exact hy | exact hu _

end ListHead
end Framework
