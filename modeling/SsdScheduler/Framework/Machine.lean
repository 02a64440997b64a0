import Mathlib.Data.List.Basic
import Mathlib.Tactic.Common

/-!
# Partial machines and their runs

A machine has calls that its environment may or may not make in a state, and a partial step
function. A step that is `none` is a call the program does not survive. Runs record every call
with the states around it, so that a property of a run is a property of its events.
-/

namespace Framework

structure Machine (σ ι ο : Type*) where
  legal : σ → ι → Prop
  step : σ → ι → Option (ο × σ)

/-- One call of a run with the states before and after it. -/
structure Event (σ ι ο : Type*) where
  pre : σ
  call : ι
  out : ο
  post : σ

namespace Machine

variable {σ ι ο : Type*} (M : Machine σ ι ο)

inductive Run : σ → List (Event σ ι ο) → σ → Prop
  | nil (s : σ) : Run s [] s
  | cons {s t u : σ} {i : ι} {o : ο} {tr : List (Event σ ι ο)} (hl : M.legal s i)
      (hs : M.step s i = some (o, t)) (rest : Run t tr u) : Run s (⟨s, i, o, t⟩ :: tr) u

def Reachable (init s : σ) : Prop := ∃ tr, M.Run init tr s

/-- The same machine in an environment that makes a call only where `C` holds as well. -/
def restrict (C : σ → ι → Prop) : Machine σ ι ο where
  legal s i := M.legal s i ∧ C s i
  step := M.step

/-- Play a list of calls, stopping with `none` at an illegal or a fatal one. -/
def play [∀ s i, Decidable (M.legal s i)] : σ → List ι → Option (List (Event σ ι ο) × σ)
  | s, [] => some ([], s)
  | s, i :: is =>
    if M.legal s i then
      match M.step s i with
      | some (o, t) => (play t is).map fun p => (⟨s, i, o, t⟩ :: p.1, p.2)
      | none => none
    else none

/-- The calls can be played, and `P` holds of what happens and of the state at the end. -/
def Plays [∀ s i, Decidable (M.legal s i)] (s : σ) (is : List ι) (P : List (Event σ ι ο) → σ → Prop) : Prop :=
  match M.play s is with
  | some (tr, u) => P tr u
  | none => False

instance [∀ s i, Decidable (M.legal s i)] (s : σ) (is : List ι) (P : List (Event σ ι ο) → σ → Prop)
    [∀ tr u, Decidable (P tr u)] : Decidable (M.Plays s is P) :=
  match h : M.play s is with
  | some (tr, u) => decidable_of_iff (P tr u) (by rw [Plays, h])
  | none => isFalse (by rw [Plays, h]; exact id)

/-- The program survives the call. -/
def Returns (s : σ) (i : ι) : Prop := ∃ o t, M.step s i = some (o, t)

/-- `P` holds of every call of a list in the state it is made in, as far as the calls before return. -/
def Each (P : σ → ι → Prop) : σ → List ι → Prop
  | _, [] => True
  | s, i :: is => P s i ∧ ∀ p ∈ M.step s i, Each P p.2 is

instance decidableEach (P : σ → ι → Prop) [∀ s i, Decidable (P s i)] : (s : σ) → (is : List ι) → Decidable (M.Each P s is)
  | _, [] => inferInstanceAs (Decidable True)
  | s, i :: is =>
    have : ∀ p : ο × σ, Decidable (M.Each P p.2 is) := fun p => decidableEach P p.2 is
    inferInstanceAs (Decidable (P s i ∧ ∀ p ∈ M.step s i, M.Each P p.2 is))

variable {M}

namespace Run

theorem single {s t : σ} {i : ι} {o : ο} (hl : M.legal s i) (hs : M.step s i = some (o, t)) :
    M.Run s [⟨s, i, o, t⟩] t :=
  .cons hl hs (.nil t)

theorem append {s t u : σ} {tr tr' : List (Event σ ι ο)} (h : M.Run s tr t) (h' : M.Run t tr' u) :
    M.Run s (tr ++ tr') u := by
  induction h with
  | nil => exact h'
  | cons hl hs _ ih => exact .cons hl hs (ih h')

/-- What every step preserves, every run preserves. -/
theorem invariant {P : σ → Prop} {s u : σ} {tr : List (Event σ ι ο)} (h : M.Run s tr u)
    (hstep : ∀ s i o t, P s → M.legal s i → M.step s i = some (o, t) → P t) (hs : P s) : P u := by
  induction h with
  | nil => exact hs
  | cons hl he _ ih => exact ih (hstep _ _ _ _ hs hl he)

/-- A run up to one of its events, the event, and the rest. -/
theorem split {s u : σ} {tr tr' : List (Event σ ι ο)} {e : Event σ ι ο} (h : M.Run s (tr ++ e :: tr') u) :
    M.Run s tr e.pre ∧ M.legal e.pre e.call ∧ M.step e.pre e.call = some (e.out, e.post) ∧
      M.Run e.post tr' u := by
  induction tr generalizing s with
  | nil =>
    cases h with
    | cons hl hs rest => exact ⟨.nil _, hl, hs, rest⟩
  | cons e' tr ih =>
    cases h with
    | cons hl hs rest =>
      obtain ⟨hr, hlast⟩ := ih rest
      exact ⟨.cons hl hs hr, hlast⟩

/-- The invariant rule with a history `x` that every event extends. -/
theorem history {γ : Type*} {g : γ → Event σ ι ο → γ} {P : σ → γ → Prop} {s u : σ} {tr : List (Event σ ι ο)} {x : γ}
    (h : M.Run s tr u) (hstep : ∀ e x, P e.pre x → M.legal e.pre e.call →
      M.step e.pre e.call = some (e.out, e.post) → P e.post (g x e)) (hs : P s x) : P u (tr.foldl g x) := by
  induction h generalizing x with
  | nil => exact hs
  | cons hl he _ ih => exact ih (hstep ⟨_, _, _, _⟩ x hs hl he)

/-- Where `I` holds a step has the property `P` exactly if it meets the condition `C`, and a step that
meets the condition keeps `I`: then all steps of a run have the property exactly if all meet the
condition. -/
theorem forall_iff {I : σ → Prop} {P C : Event σ ι ο → Prop} {s u : σ} {tr : List (Event σ ι ο)} (h : M.Run s tr u)
    (hstep : ∀ e, I e.pre → M.legal e.pre e.call → M.step e.pre e.call = some (e.out, e.post) →
      (P e ↔ C e) ∧ (C e → I e.post)) (hs : I s) : (∀ e ∈ tr, P e) ↔ ∀ e ∈ tr, C e := by
  induction h with
  | nil => simp
  | cons hl he _ ih =>
    obtain ⟨hiff, hkeep⟩ := hstep ⟨_, _, _, _⟩ hs hl he
    rw [List.forall_mem_cons, List.forall_mem_cons, hiff]
    exact and_congr_right fun hc => ih (hkeep hc)

/-- Events of a kind `K` that lower the rank `r` whenever they have the property `P`, while no other event
raises it: a stretch of them that all have the property is no longer than the rank. -/
theorem prefix_length_le {I : σ → Prop} {K : Event σ ι ο → Bool} {P : Event σ ι ο → Prop} {r : σ → Nat} {s u : σ}
    {tr l : List (Event σ ι ο)} (h : M.Run s tr u) (hstep : ∀ e, I e.pre → M.legal e.pre e.call →
      M.step e.pre e.call = some (e.out, e.post) → I e.post ∧ (K e = false → r e.post ≤ r e.pre) ∧
        (K e = true → P e → r e.post < r e.pre)) (hs : I s) (hl : l <+: tr.filter K) (hp : ∀ e ∈ l, P e) :
    l.length ≤ r s := by
  induction h generalizing l with
  | nil =>
    obtain rfl : l = [] := List.prefix_nil.mp hl
    exact Nat.zero_le _
  | @cons s t u i o tr hlegal he _ ih =>
    obtain ⟨hkeep, hother, hlower⟩ := hstep ⟨s, i, o, t⟩ hs hlegal he
    cases hk : K ⟨s, i, o, t⟩ with
    | false =>
      rw [List.filter_cons_of_neg (by simp [hk])] at hl
      exact Nat.le_trans (ih hkeep hl hp) (hother hk)
    | true =>
      rw [List.filter_cons_of_pos hk] at hl
      cases l with
      | nil => exact Nat.zero_le _
      | cons e l =>
        obtain ⟨rfl, hrest⟩ := List.cons_prefix_cons.mp hl
        have hlt := hlower hk (hp _ (List.mem_cons_self ..))
        have hle := ih hkeep hrest fun e he => hp e (List.mem_cons_of_mem _ he)
        exact Nat.succ_le_of_lt (Nat.lt_of_le_of_lt hle hlt)

theorem infix_length_le {I : σ → Prop} {K : Event σ ι ο → Bool} {P : Event σ ι ο → Prop} {r : σ → Nat} {s u : σ}
    {tr l : List (Event σ ι ο)} {n : Nat} (h : M.Run s tr u) (hstep : ∀ e, I e.pre → M.legal e.pre e.call →
      M.step e.pre e.call = some (e.out, e.post) → I e.post ∧ (K e = false → r e.post ≤ r e.pre) ∧
        (K e = true → P e → r e.post < r e.pre)) (hn : ∀ s, I s → r s ≤ n) (hs : I s) (hl : l <:+: tr.filter K)
    (hp : ∀ e ∈ l, P e) : l.length ≤ n := by
  induction h with
  | nil =>
    obtain rfl : l = [] := List.infix_nil.mp hl
    exact Nat.zero_le _
  | @cons s t u i o tr hlegal he hrest ih =>
    obtain ⟨hkeep, -, -⟩ := hstep ⟨s, i, o, t⟩ hs hlegal he
    cases hk : K ⟨s, i, o, t⟩ with
    | false =>
      rw [List.filter_cons_of_neg (by simp [hk])] at hl
      exact ih hkeep hl
    | true =>
      rw [List.filter_cons_of_pos hk, List.infix_cons_iff] at hl
      rcases hl with hl | hl
      · rw [← List.filter_cons_of_pos hk] at hl
        exact Nat.le_trans ((hrest.cons hlegal he).prefix_length_le hstep hs hl hp) (hn s hs)
      · exact ih hkeep hl

theorem of_restrict {C : σ → ι → Prop} {s u : σ} {tr : List (Event σ ι ο)}
    (h : (M.restrict C).Run s tr u) : M.Run s tr u := by
  induction h with
  | nil => exact .nil _
  | cons hl hs _ ih => exact .cons hl.1 hs ih

end Run

theorem Reachable.init {s : σ} : M.Reachable s s := ⟨[], .nil s⟩

theorem Reachable.step {init s t : σ} {i : ι} {o : ο} (h : M.Reachable init s) (hl : M.legal s i)
    (hs : M.step s i = some (o, t)) : M.Reachable init t := by
  obtain ⟨tr, hr⟩ := h
  exact ⟨_, hr.append (.single hl hs)⟩

theorem Reachable.run {init s t : σ} {tr : List (Event σ ι ο)} (h : M.Reachable init s)
    (hr : M.Run s tr t) : M.Reachable init t := by
  obtain ⟨_, h⟩ := h
  exact ⟨_, h.append hr⟩

theorem Reachable.invariant {P : σ → Prop} {init s : σ} (h : M.Reachable init s)
    (hstep : ∀ s i o t, P s → M.legal s i → M.step s i = some (o, t) → P t) (hi : P init) : P s :=
  h.elim fun _ hr => hr.invariant hstep hi

theorem Reachable.of_restrict {C : σ → ι → Prop} {init s : σ} (h : (M.restrict C).Reachable init s) :
    M.Reachable init s :=
  h.elim fun _ hr => ⟨_, hr.of_restrict⟩

/-- Where `I` holds a call has the property `P` exactly if it meets the condition `Q`, and a call that
meets the condition keeps `I`: then all calls of a list have the property exactly if all meet the
condition. -/
theorem each_iff_of_inv {I : σ → Prop} {P Q : σ → ι → Prop} {s : σ} {is : List ι} (hs : I s)
    (hlegal : M.Each M.legal s is) (h : ∀ s i, I s → M.legal s i → (P s i ↔ Q s i))
    (hkeep : ∀ s i o t, I s → M.legal s i → Q s i → M.step s i = some (o, t) → I t) :
    M.Each P s is ↔ M.Each Q s is := by
  induction is generalizing s with
  | nil => exact Iff.rfl
  | cons i is ih =>
    obtain ⟨hl, hrest⟩ := hlegal
    unfold Each
    rw [h s i hs hl]
    refine and_congr_right fun hq => forall_congr' fun p => forall_congr' fun hp => ?_
    exact ih (hkeep s i p.1 p.2 hs hl hq (Option.mem_def.mp hp)) (hrest p hp)

/-- What is equivalent for every call that may be made in a reachable state is so for lists of calls. -/
theorem each_iff {P Q : σ → ι → Prop} {init s : σ} {is : List ι} (hr : M.Reachable init s)
    (hlegal : M.Each M.legal s is) (h : ∀ s i, M.Reachable init s → M.legal s i → (P s i ↔ Q s i)) :
    M.Each P s is ↔ M.Each Q s is :=
  each_iff_of_inv hr hlegal h fun _ _ _ _ hr hl _ hs => hr.step hl hs

theorem run_of_play [∀ s i, Decidable (M.legal s i)] {is : List ι} {s u : σ}
    {tr : List (Event σ ι ο)} (h : M.play s is = some (tr, u)) :
    M.Run s tr u ∧ tr.map Event.call = is := by
  induction is generalizing s tr with
  | nil =>
    obtain ⟨rfl, rfl⟩ : [] = tr ∧ s = u := by simpa [play] using h
    exact ⟨.nil _, rfl⟩
  | cons i is ih =>
    rw [play] at h
    split at h
    case isFalse => simp at h
    case isTrue hl =>
      split at h
      case h_2 => simp at h
      case h_1 o t hs =>
        obtain ⟨⟨tr', v⟩, hp, he⟩ := Option.map_eq_some_iff.mp h
        obtain ⟨rfl, rfl⟩ : ⟨s, i, o, t⟩ :: tr' = tr ∧ v = u := by simpa using he
        obtain ⟨hr, hc⟩ := ih hp
        exact ⟨.cons hl hs hr, by simp [hc]⟩

theorem Plays.exists_run [∀ s i, Decidable (M.legal s i)] {s : σ} {is : List ι}
    {P : List (Event σ ι ο) → σ → Prop} (h : M.Plays s is P) :
    ∃ tr u, M.Run s tr u ∧ tr.map Event.call = is ∧ P tr u := by
  unfold Plays at h
  split at h
  · rename_i tr u hp
    exact ⟨tr, u, (run_of_play hp).1, (run_of_play hp).2, h⟩
  · exact h.elim

section LockSteps

variable {τ υ ο' ο'' : Type*} {N : Machine τ ι ο'} {K : Machine υ ι ο''} {R : σ → τ → Prop}
  {S : ο → ο' → Prop}

/-- Two machines in lock-step: related states allow the same calls, and every allowed call
succeeds on both sides with related outputs and related successors. -/
structure LockStep (M : Machine σ ι ο) (N : Machine τ ι ο') (R : σ → τ → Prop) (S : ο → ο' → Prop) :
    Prop where
  legal : ∀ s t i, R s t → (M.legal s i ↔ N.legal t i)
  step : ∀ s t i, R s t → M.legal s i →
    ∃ o s' o' t', M.step s i = some (o, s') ∧ N.step t i = some (o', t') ∧ S o o' ∧ R s' t'

theorem LockStep.symm (h : LockStep M N R S) : LockStep N M (fun t s => R s t) fun o' o => S o o' where
  legal t s i hr := (h.legal s t i hr).symm
  step t s i hr hl := by
    obtain ⟨o, s', o', t', hs, ht, ho, hr'⟩ := h.step s t i hr ((h.legal s t i hr).mpr hl)
    exact ⟨o', t', o, s', ht, hs, ho, hr'⟩

theorem LockStep.trans {R' : τ → υ → Prop} {S' : ο' → ο'' → Prop} (h : LockStep M N R S)
    (h' : LockStep N K R' S') :
    LockStep M K (fun s u => ∃ t, R s t ∧ R' t u) fun o o'' => ∃ o', S o o' ∧ S' o' o'' where
  legal := by
    rintro s u i ⟨t, hr, hr'⟩
    exact (h.legal s t i hr).trans (h'.legal t u i hr')
  step := by
    rintro s u i ⟨t, hr, hr'⟩ hl
    obtain ⟨o, s₁, o', t₁, hs, ht, ho, hr₁⟩ := h.step s t i hr hl
    obtain ⟨p, t₂, o'', u₁, ht', hu, ho', hr₂⟩ := h'.step t u i hr' ((h.legal s t i hr).mp hl)
    obtain ⟨rfl, rfl⟩ : o' = p ∧ t₁ = t₂ := by simpa [ht] using ht'
    exact ⟨o, s₁, o'', u₁, hs, hu, ⟨o', ho, ho'⟩, t₁, hr₁, hr₂⟩

/-- A run of one machine is matched by a run of the other, event by event. -/
theorem LockStep.run (h : LockStep M N R S) {s u : σ} {t : τ} {tr : List (Event σ ι ο)} (hr : R s t)
    (hrun : M.Run s tr u) :
    ∃ tr' v, N.Run t tr' v ∧ R u v ∧
      List.Forall₂ (fun e e' => e.call = e'.call ∧ S e.out e'.out ∧ R e.post e'.post) tr tr' := by
  induction hrun generalizing t with
  | nil => exact ⟨[], t, .nil t, hr, .nil⟩
  | @cons s s₁ u i o tr hl hs _ ih =>
    obtain ⟨o', s', p, t', hs', ht, ho, hr'⟩ := h.step s t i hr hl
    obtain ⟨rfl, rfl⟩ : o = o' ∧ s₁ = s' := by simpa [hs] using hs'
    obtain ⟨tr', v, hrun', hrel, hall⟩ := ih hr'
    exact ⟨_, v, .cons ((h.legal s t i hr).mp hl) ht hrun', hrel, .cons ⟨rfl, ho, hr'⟩ hall⟩

end LockSteps

section Images

variable {τ : Type*} {N : Machine τ ι ο} {f : τ → σ} {I : σ → Prop}

/-- `N` does to its states what `M` does to their images under `f`, where `I` holds of these. -/
structure Image (N : Machine τ ι ο) (M : Machine σ ι ο) (f : τ → σ) (I : σ → Prop) : Prop where
  legal : ∀ t i, N.legal t i ↔ M.legal (f t) i
  step : ∀ t i, I (f t) → N.legal t i → (N.step t i).map (Prod.map id f) = M.step (f t) i
  keep : ∀ s i o s', I s → M.legal s i → M.step s i = some (o, s') → I s'

theorem Image.run (h : Image N M f I) {t u : τ} {tr : List (Event τ ι ο)} (hrun : N.Run t tr u) (ht : I (f t)) :
    M.Run (f t) (tr.map fun e => ⟨f e.pre, e.call, e.out, f e.post⟩) (f u) ∧ I (f u) := by
  induction hrun with
  | nil => exact ⟨.nil _, ht⟩
  | @cons t t₁ u i o tr hl hs _ ih =>
    have himage : M.step (f t) i = some (o, f t₁) := by
      rw [← h.step t i ht hl, hs]
      rfl
    have hlegal := (h.legal t i).mp hl
    obtain ⟨hrun', hu⟩ := ih (h.keep (f t) i o (f t₁) ht hlegal himage)
    exact ⟨.cons hlegal himage hrun', hu⟩

theorem Image.returns_iff (h : Image N M f I) {t : τ} {i : ι} (ht : I (f t)) (hl : N.legal t i) :
    N.Returns t i ↔ M.Returns (f t) i := by
  unfold Returns
  rw [← h.step t i ht hl]
  cases N.step t i with
  | none => simp
  | some p => exact iff_of_true ⟨p.1, p.2, rfl⟩ ⟨p.1, f p.2, rfl⟩

end Images

end Machine
end Framework
