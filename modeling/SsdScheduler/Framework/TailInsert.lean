import Mathlib.Data.List.Chain
import Mathlib.Data.List.DropRight
import Mathlib.Data.List.Induction
import Mathlib.Data.List.Sort
import SsdScheduler.Framework.SortedList

/-!
# Insertion from the tail of a list

A list is scanned from its tail past the elements at which the new one does not stop, and the new one is put
there. Where the scan stops at another class, at a flagged element and at one whose key is not greater, the
stretches of unflagged elements of one class stay in order of their keys.
-/

namespace Framework

section TailInsert

variable {A : Type*} {stops : A → A → Prop} [DecidableRel stops] {a x : A} {l : List A}

/-- Put `a` behind the last element of `l` at which it stops. -/
def tailInsert (stops : A → A → Prop) [DecidableRel stops] (a : A) (l : List A) : List A :=
  (l.reverse.orderedInsert stops a).reverse

@[simp] theorem tailInsert_nil : tailInsert stops a [] = [a] := rfl

theorem tailInsert_append_of_stops (h : stops a x) : tailInsert stops a (l ++ [x]) = l ++ [x, a] := by
  simp [tailInsert, h]

theorem tailInsert_append_of_not_stops (h : ¬ stops a x) :
    tailInsert stops a (l ++ [x]) = tailInsert stops a l ++ [x] := by
  simp [tailInsert, h]

theorem tailInsert_perm (stops : A → A → Prop) [DecidableRel stops] (a : A) (l : List A) :
    (tailInsert stops a l).Perm (a :: l) :=
  (List.reverse_perm _).trans ((List.perm_orderedInsert _ a _).trans ((List.reverse_perm l).cons a))

@[simp] theorem mem_tailInsert : x ∈ tailInsert stops a l ↔ x = a ∨ x ∈ l := by
  rw [(tailInsert_perm stops a l).mem_iff, List.mem_cons]

/-- Where the new element ends up: it stops at what is before it and at nothing behind it. -/
theorem tailInsert_split (stops : A → A → Prop) [DecidableRel stops] (a : A) (l : List A) :
    ∃ pre suf, l = pre ++ suf ∧ tailInsert stops a l = pre ++ a :: suf ∧ (∀ x ∈ suf, ¬ stops a x) ∧
      ∀ x ∈ pre.getLast?, stops a x := by
  induction l using List.reverseRecOn with
  | nil => exact ⟨[], [], rfl, rfl, by simp, by simp⟩
  | append_singleton l x ih =>
    by_cases h : stops a x
    · refine ⟨l ++ [x], [], by simp, ?_, by simp, ?_⟩
      · rw [tailInsert_append_of_stops h]
        simp
      · simpa using h
    · obtain ⟨pre, suf, hl, hi, hsuf, hpre⟩ := ih
      refine ⟨pre, suf ++ [x], by simp [hl], ?_, ?_, hpre⟩
      · rw [tailInsert_append_of_not_stops h, hi]
        simp
      · intro y hy
        rcases List.mem_append.mp hy with hy | hy
        · exact hsuf y hy
        · rw [List.mem_singleton.mp hy]
          exact h

theorem tailInsert_of_forall_not (h : ∀ x ∈ l, ¬ stops a x) : tailInsert stops a l = a :: l := by
  induction l using List.reverseRecOn with
  | nil => rfl
  | append_singleton l x ih =>
    rw [tailInsert_append_of_not_stops (h x (by simp)), ih fun y hy => h y (by simp [hy])]
    simp

/-- An element that stops at the end of `k` never enters it. -/
theorem tailInsert_append (k : List A) (h : ∀ x ∈ k.getLast?, stops a x) :
    tailInsert stops a (k ++ l) = k ++ tailInsert stops a l := by
  induction l using List.reverseRecOn with
  | nil =>
    induction k using List.reverseRecOn with
    | nil => rfl
    | append_singleton k y =>
      have hy : stops a y := h y (by simp)
      rw [List.append_nil, tailInsert_append_of_stops hy]
      simp
  | append_singleton l y ih =>
    rw [← List.append_assoc]
    by_cases hy : stops a y
    · rw [tailInsert_append_of_stops hy, tailInsert_append_of_stops hy, List.append_assoc]
    · rw [tailInsert_append_of_not_stops hy, tailInsert_append_of_not_stops hy, ih, List.append_assoc]

theorem tailInsert_congr {stops' : A → A → Prop} [DecidableRel stops'] (h : ∀ x ∈ l, stops a x ↔ stops' a x) :
    tailInsert stops a l = tailInsert stops' a l := by
  induction l using List.reverseRecOn with
  | nil => rfl
  | append_singleton l x ih =>
    have hl := ih fun y hy => h y (by simp [hy])
    have hx := h x (by simp)
    by_cases hs : stops a x
    · rw [tailInsert_append_of_stops hs, tailInsert_append_of_stops (hx.mp hs)]
    · rw [tailInsert_append_of_not_stops hs, tailInsert_append_of_not_stops (mt hx.mpr hs), hl]

end TailInsert

section Ends

variable {A : Type*} {p p' : A → Bool} {l : List A}

theorem rdropWhile_congr (h : ∀ x ∈ l, p x = p' x) : l.rdropWhile p = l.rdropWhile p' := by
  induction l using List.reverseRecOn with
  | nil => rfl
  | append_singleton l x ih =>
    rw [List.rdropWhile_concat, List.rdropWhile_concat, h x (by simp), ih fun y hy => h y (by simp [hy])]

theorem rtakeWhile_congr (h : ∀ x ∈ l, p x = p' x) : l.rtakeWhile p = l.rtakeWhile p' := by
  have hdrop := rdropWhile_congr h
  apply List.append_cancel_left
  rw [List.rdropWhile_append_rtakeWhile, hdrop, List.rdropWhile_append_rtakeWhile]

end Ends

section Stretches

open SortedList

variable {A C K : Type*} [DecidableEq C] [LinearOrder K] {cls : A → C} {flagged : A → Prop} [DecidablePred flagged]
  {key : A → K} {a : A} {l ds k : List A}

/-- A scan with `a` stops at another class, at a flag and at a key that is not greater. -/
def Stops (cls : A → C) (flagged : A → Prop) (key : A → K) (a x : A) : Prop :=
  cls a ≠ cls x ∨ flagged x ∨ key x ≤ key a

instance : DecidableRel (Stops cls flagged key) :=
  fun a x => inferInstanceAs (Decidable (cls a ≠ cls x ∨ flagged x ∨ key x ≤ key a))

/-- Neighbours of one class without a flag are in order of their keys. -/
def InOrder (cls : A → C) (flagged : A → Prop) (key : A → K) (l : List A) : Prop :=
  l.IsChain fun x y => cls x = cls y → ¬ flagged x → ¬ flagged y → key x ≤ key y

omit [DecidableEq C] [DecidablePred flagged] in
/-- A stretch of unflagged elements of one class is in order. -/
theorem InOrder.sorted (h : InOrder cls flagged key l) (hk : k <:+: l) (hf : ∀ x ∈ k, ¬ flagged x)
    (hc : ∀ x ∈ k, ∀ y ∈ k, cls x = cls y) : Sorted key k := by
  have hchain : k.IsChain fun x y => key x ≤ key y := by
    have hin := List.IsChain.infix h hk
    apply hin.imp_of_mem_imp
    intro x y hx hy hxy
    exact hxy (hc x hx y hy) (hf x hx) (hf y hy)
  have htrans : IsTrans A fun x y => key x ≤ key y := ⟨fun _ _ _ h h' => h.trans h'⟩
  exact List.isChain_iff_pairwise.mp hchain

theorem InOrder.tailInsert (h : InOrder cls flagged key l) (a : A) :
    InOrder cls flagged key (tailInsert (Stops cls flagged key) a l) := by
  obtain ⟨pre, suf, rfl, hi, hsuf, hpre⟩ := tailInsert_split (Stops cls flagged key) a l
  rw [hi]
  obtain ⟨hl, hr, -⟩ := List.isChain_append.mp h
  refine List.isChain_append.mpr ⟨hl, List.isChain_cons.mpr ⟨?_, hr⟩, ?_⟩
  · intro y hy _ _ _
    have hlt := hsuf y (List.mem_of_mem_head? hy)
    simp only [Stops, not_or, not_le] at hlt
    exact hlt.2.2.le
  · intro x hx y hy hxy hfx _
    obtain rfl : a = y := by simpa using hy
    rcases hpre x hx with hc | hf | hle
    · exact absurd hxy.symm hc
    · exact absurd hf hfx
    · exact hle

omit [DecidableEq C] [DecidablePred flagged] in
/-- A flagged element may be put at either end. -/
theorem InOrder.cons (h : InOrder cls flagged key l) (ha : flagged a) : InOrder cls flagged key (a :: l) :=
  List.isChain_cons.mpr ⟨fun _ _ _ hf _ => absurd ha hf, h⟩

omit [DecidableEq C] [DecidablePred flagged] in
theorem InOrder.concat (h : InOrder cls flagged key l) (ha : flagged a) : InOrder cls flagged key (l ++ [a]) := by
  refine List.isChain_append.mpr ⟨h, List.isChain_singleton a, fun x _ y hy _ _ hf => ?_⟩
  obtain rfl : a = y := by simpa using hy
  exact absurd ha hf

omit [DecidableEq C] [DecidablePred flagged] in
/-- What is in order stays so when flags are set and keys change without two elements changing places. -/
theorem InOrder.imp {cls' : A → C} {flagged' : A → Prop} {key' : A → K} (h : InOrder cls flagged key l)
    (hc : ∀ x ∈ l, cls' x = cls x) (hf : ∀ x ∈ l, flagged x → flagged' x)
    (hk : ∀ x ∈ l, ∀ y ∈ l, ¬ flagged' x → ¬ flagged' y → key x ≤ key y → key' x ≤ key' y) : InOrder cls' flagged' key' l := by
  apply List.IsChain.imp_of_mem_imp _ h
  intro x y hx hy hxy hxy' hfx hfy
  rw [hc x hx, hc y hy] at hxy'
  exact hk x hx y hy hfx hfy (hxy hxy' (mt (hf x hx) hfx) (mt (hf y hy) hfy))

/-- Within its stretch the scan is the insertion into a sorted list. -/
theorem tailInsert_eq_insert (hs : Sorted key l) (hf : ∀ x ∈ l, ¬ flagged x) (hc : ∀ x ∈ l, cls a = cls x) :
    tailInsert (Stops cls flagged key) a l = SortedList.insert key a l := by
  induction l with
  | nil => rfl
  | cons x l ih =>
    obtain ⟨hx, hl⟩ := List.pairwise_cons.mp hs
    have ihl := ih hl (fun y hy => hf y (List.mem_cons_of_mem x hy)) fun y hy => hc y (List.mem_cons_of_mem x hy)
    have hstop : Stops cls flagged key a x ↔ key x ≤ key a := by
      simp [Stops, hc x (List.mem_cons_self ..), hf x (List.mem_cons_self ..)]
    unfold SortedList.insert at ihl ⊢
    rw [List.orderedInsert_cons]
    split
    case isTrue hlt =>
      apply tailInsert_of_forall_not
      intro y hy
      have hle : key x ≤ key y := by
        rcases List.mem_cons.mp hy with rfl | hy
        · exact le_rfl
        · exact hx y hy
      simp [Stops, hc y hy, hf y hy, hlt.trans_le hle]
    case isFalse hge =>
      have happ : tailInsert (Stops cls flagged key) a ([x] ++ l) = [x] ++ tailInsert (Stops cls flagged key) a l := by
        apply tailInsert_append
        simpa using hstop.mpr (not_lt.mp hge)
      rw [← ihl]
      exact happ

/-- Elements of one class that are inserted one after another behind a list that stops them all end up sorted,
in whichever order they come. -/
theorem foldl_tailInsert (hf : ∀ x ∈ k ++ ds, ¬ flagged x) (hc : ∀ x ∈ k ++ ds, ∀ y ∈ k ++ ds, cls x = cls y)
    (hl : ∀ x ∈ l.getLast?, ∀ a ∈ ds, Stops cls flagged key a x) (hs : Sorted key k) :
    ∃ s, ds.foldl (fun l a => tailInsert (Stops cls flagged key) a l) (l ++ k) = l ++ s ∧ s.Perm (k ++ ds) ∧
      Sorted key s := by
  induction ds generalizing k with
  | nil => exact ⟨k, rfl, by simp, hs⟩
  | cons a ds ih =>
    have hin : tailInsert (Stops cls flagged key) a (l ++ k) = l ++ SortedList.insert key a k := by
      rw [tailInsert_append l fun x hx => hl x hx a (List.mem_cons_self ..)]
      rw [tailInsert_eq_insert hs (fun x hx => hf x (by simp [hx])) fun x hx => hc a (by simp) x (by simp [hx])]
    have hperm : (SortedList.insert key a k ++ ds).Perm (k ++ a :: ds) :=
      ((insert_perm key a k).append_right ds).trans List.perm_middle.symm
    rw [List.foldl_cons, hin]
    obtain ⟨s, he, hp, hsorted⟩ := ih (fun x hx => hf x (hperm.mem_iff.mp hx))
      (fun x hx y hy => hc x (hperm.mem_iff.mp hx) y (hperm.mem_iff.mp hy))
      (fun x hx b hb => hl x hx b (List.mem_cons_of_mem a hb)) (hs.insert a)
    exact ⟨s, he, hp.trans hperm, hsorted⟩

/-- Elements of the class `c` that are inserted one after another join the last stretch of this class, and only the
order of the keys decides where. -/
theorem InOrder.foldl {c : C} (h : InOrder cls flagged key l) (hf : ∀ a ∈ ds, ¬ flagged a)
    (hc : ∀ a ∈ ds, cls a = c) :
    ∃ s, ds.foldl (fun l a => Framework.tailInsert (Stops cls flagged key) a l) l =
      l.rdropWhile (fun x => decide (cls x = c ∧ ¬ flagged x)) ++ s ∧
      s.Perm (l.rtakeWhile (fun x => decide (cls x = c ∧ ¬ flagged x)) ++ ds) ∧ Sorted key s := by
  have hk : ∀ x ∈ l.rtakeWhile (fun x => decide (cls x = c ∧ ¬ flagged x)), cls x = c ∧ ¬ flagged x := by
    intro x hx
    simpa using List.mem_rtakeWhile_imp hx
  have hsorted : Sorted key (l.rtakeWhile fun x => decide (cls x = c ∧ ¬ flagged x)) := by
    apply h.sorted (List.rtakeWhile_suffix _ l).isInfix (fun x hx => (hk x hx).2)
    intro x hx y hy
    rw [(hk x hx).1, (hk y hy).1]
  have hall : ∀ x ∈ l.rtakeWhile (fun x => decide (cls x = c ∧ ¬ flagged x)) ++ ds, cls x = c ∧ ¬ flagged x := by
    intro x hx
    rcases List.mem_append.mp hx with hx | hx
    · exact hk x hx
    · exact ⟨hc x hx, hf x hx⟩
  have hlast : ∀ x ∈ (l.rdropWhile fun x => decide (cls x = c ∧ ¬ flagged x)).getLast?, ∀ a ∈ ds,
      Stops cls flagged key a x := by
    intro x hx a ha
    obtain ⟨hne, rfl⟩ := List.mem_getLast?_eq_getLast hx
    have hnot := List.rdropWhile_last_not _ l hne
    simp only [decide_eq_true_eq, not_and, not_not] at hnot
    by_cases hcls : cls (List.getLast _ hne) = c
    · exact .inr (.inl (hnot hcls))
    · left
      rw [hc a ha]
      exact fun he => hcls he.symm
  have hfold := foldl_tailInsert (fun x hx => (hall x hx).2) (fun x hx y hy => (hall x hx).1.trans (hall y hy).1.symm)
    hlast hsorted
  rwa [List.rdropWhile_append_rtakeWhile] at hfold

omit [DecidableEq C] [DecidablePred flagged] in
/-- With keys that tell the elements apart a sorted list is known from its elements. -/
theorem Sorted.eq_of_perm {s t : List A} (hs : Sorted key s) (ht : Sorted key t) (hp : s.Perm t)
    (hinj : ∀ x ∈ s, ∀ y ∈ s, key x = key y → x = y) : s = t := by
  apply hp.eq_of_pairwise _ hs ht
  intro x y hx hy hxy hyx
  exact hinj x hx y (hp.mem_iff.mpr hy) (le_antisymm hxy hyx)

end Stretches

end Framework
