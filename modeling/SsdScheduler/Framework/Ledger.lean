import Mathlib.Algebra.BigOperators.Finprod
import Mathlib.Tactic.Abel
import SsdScheduler.Framework.Machine

/-!
# Ledgers

A quantity is spread over the entries of a table, finitely many of which hold any of it. What a machine takes in
and gives out along a run is the difference between what it holds at the end and at the beginning.
-/

namespace Framework

section Tables

variable {α M : Type*} [AddCommMonoid M] {f : α → M}

/-- What one entry gains or loses, the table gains or loses. -/
theorem finsum_update [DecidableEq α] (hf : f.support.Finite) (a : α) (v : M) :
    ∑ᶠ x, Function.update f a v x + f a = ∑ᶠ x, f x + v := by
  have ha : a ∈ insert a hf.toFinset := Finset.mem_insert_self a _
  have hsub : f.support ⊆ ((insert a hf.toFinset : Finset α) : Set α) := by
    intro x hx
    simp only [Finset.coe_insert, Set.Finite.coe_toFinset]
    exact Set.mem_insert_of_mem a hx
  have hsub' : (Function.update f a v).support ⊆ ((insert a hf.toFinset : Finset α) : Set α) := by
    intro x hx
    simp only [Finset.coe_insert, Set.Finite.coe_toFinset]
    rcases eq_or_ne x a with rfl | hxa
    · exact Set.mem_insert x _
    · rw [Function.mem_support, Function.update_of_ne hxa] at hx
      exact Set.mem_insert_of_mem a hx
  rw [finsum_eq_sum_of_support_subset f hsub, finsum_eq_sum_of_support_subset _ hsub', Finset.sum_update_of_mem ha,
    Finset.sum_eq_add_sum_sdiff_singleton_of_mem ha f]
  abel

/-- A table whose entries are listed. -/
theorem finsum_eq_sum_map {l : List α} (hn : l.Nodup) (hl : ∀ x, f x ≠ 0 → x ∈ l) : ∑ᶠ x, f x = (l.map f).sum := by
  classical
  have hsub : f.support ⊆ l.toFinset := by
    intro x hx
    simpa using hl x hx
  rw [finsum_eq_sum_of_support_subset _ hsub, List.sum_toFinset f hn]

end Tables

variable {σ ι ο M : Type*} [AddCommMonoid M] {m : Machine σ ι ο}

/-- Where `I` holds a step takes in `gain` and gives out `loss`: then so does a run. -/
theorem Machine.Run.balance {I : σ → Prop} {c : σ → M} {gain loss : Event σ ι ο → M} {s u : σ}
    {tr : List (Event σ ι ο)} (h : m.Run s tr u) (hstep : ∀ e, I e.pre → m.legal e.pre e.call →
      m.step e.pre e.call = some (e.out, e.post) → I e.post ∧ c e.post + loss e = c e.pre + gain e) (hs : I s) :
    c u + (tr.map loss).sum = c s + (tr.map gain).sum := by
  induction h with
  | nil => simp
  | @cons s t u i o tr hl he _ ih =>
    obtain ⟨ht, hbalance⟩ := hstep ⟨s, i, o, t⟩ hs hl he
    have hrest := ih ht
    simp only [List.map_cons, List.sum_cons] at hrest hbalance ⊢
    calc c u + (loss ⟨s, i, o, t⟩ + (tr.map loss).sum)
        = c u + (tr.map loss).sum + loss ⟨s, i, o, t⟩ := by abel
      _ = c t + loss ⟨s, i, o, t⟩ + (tr.map gain).sum := by rw [hrest]; abel
      _ = c s + (gain ⟨s, i, o, t⟩ + (tr.map gain).sum) := by rw [hbalance]; abel

end Framework
