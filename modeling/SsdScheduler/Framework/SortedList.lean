import Mathlib.Data.List.Nodup
import Mathlib.Data.List.Sort

/-!
# The nodes of a search tree in order

A search tree is read as the list of its nodes in order of their keys, where a node is inserted behind
those of the same key.
-/

namespace Framework.SortedList

variable {A : Type*} [DecidableEq A] {K : Type*} [LinearOrder K] {key : A → K} {l l' : List A} {a b : A}

/-- `l` is in order of the keys. -/
def Sorted (key : A → K) (l : List A) : Prop := l.Pairwise fun a b => key a ≤ key b

/-- Insert `a` before the first node of a greater key. -/
def insert (key : A → K) (a : A) (l : List A) : List A := l.orderedInsert (fun a b => key a < key b) a

/-- The node behind `a`, if there is one. -/
def next (a : A) : List A → Option A
  | [] => none
  | b :: l => if b = a then l.head? else next a l

omit [DecidableEq A] in
theorem insert_perm (key : A → K) (a : A) (l : List A) : (insert key a l).Perm (a :: l) :=
  List.perm_orderedInsert _ a l

omit [DecidableEq A] in
theorem Sorted.insert (h : Sorted key l) (a : A) : Sorted key (insert key a l) := by
  induction l with
  | nil => exact List.pairwise_singleton _ a
  | cons b l ih =>
    unfold SortedList.insert
    rw [List.orderedInsert_cons]
    obtain ⟨hb, hl⟩ := List.pairwise_cons.mp h
    split
    case isTrue hlt =>
      refine List.pairwise_cons.mpr ⟨fun c hc => ?_, h⟩
      rcases List.mem_cons.mp hc with rfl | hc
      · exact hlt.le
      · exact hlt.le.trans (hb c hc)
    case isFalse hle =>
      refine List.pairwise_cons.mpr ⟨fun c hc => ?_, ih hl⟩
      rcases List.mem_cons.mp ((insert_perm key a l).mem_iff.mp hc) with rfl | hc
      · exact not_lt.mp hle
      · exact hb c hc

theorem Sorted.erase (h : Sorted key l) (a : A) : Sorted key (l.erase a) :=
  List.Pairwise.sublist (List.erase_sublist ..) h

/-- The node behind another is a node of the tree, and another one. -/
theorem mem_erase_of_next (hl : l.Nodup) (h : next a l = some b) : b ∈ l.erase a := by
  induction l with
  | nil => cases h
  | cons c l ih =>
    obtain ⟨hc, hl⟩ := List.nodup_cons.mp hl
    unfold next at h
    split at h
    case isTrue hca =>
      subst hca
      rw [List.erase_cons_head]
      exact List.mem_of_mem_head? h
    case isFalse hca =>
      rw [List.erase_cons_tail (by simpa using hca)]
      exact List.mem_cons_of_mem c (ih hl h)

theorem next_of_append (hl : (l ++ a :: b :: l').Nodup) : next a (l ++ a :: b :: l') = some b := by
  induction l with
  | nil => simp [next]
  | cons c l ih =>
    obtain ⟨hc, hl⟩ := List.nodup_cons.mp hl
    have hca : c ≠ a := by
      rintro rfl
      exact hc (by simp)
    rw [List.cons_append, next, if_neg hca]
    exact ih hl

theorem next_eq_some_iff (hl : l.Nodup) : next a l = some b ↔ ∃ pre post, l = pre ++ a :: b :: post := by
  constructor
  · intro h
    clear hl
    induction l with
    | nil => cases h
    | cons c l ih =>
      unfold next at h
      split at h
      case isTrue hca =>
        obtain ⟨post, rfl⟩ := List.head?_eq_some_iff.mp h
        exact ⟨[], post, by rw [hca]; rfl⟩
      case isFalse =>
        obtain ⟨pre, post, rfl⟩ := ih h
        exact ⟨c :: pre, post, rfl⟩
  · rintro ⟨pre, post, rfl⟩
    exact next_of_append hl

end Framework.SortedList
