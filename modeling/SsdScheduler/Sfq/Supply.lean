import SsdScheduler.Sfq.HeapPath

/-! # Runs in which every allocation succeeds -/

namespace SsdScheduler.Sfq

open Framework

/-- The allocations made for a call succeed. -/
def Granted {δ π : Type} : Call SetEnv δ π → Prop
  | .setRequest _ _ env => env.requests = true ∧ env.sfqq = true ∧ env.sfqr ≠ none
  | _ => True

instance {δ π : Type} : (c : Call SetEnv δ π) → Decidable (Granted c)
  | .setRequest _ _ env =>
    inferInstanceAs (Decidable (env.requests = true ∧ env.sfqq = true ∧ env.sfqr ≠ none))
  | .addRequest _ => inferInstanceAs (Decidable True)
  | .dispatch _ => inferInstanceAs (Decidable True)
  | .completed _ => inferInstanceAs (Decidable True)
  | .putRequest _ _ => inferInstanceAs (Decidable True)

/-- The scheduler in surroundings where allocations succeed. -/
def granting {σ δ π : Type} (ops : ElevatorOps σ SetEnv δ π) : Machine (World σ) (Call SetEnv δ π) Out :=
  ops.machine.restrict fun _ => Granted

instance {σ δ π : Type} (ops : ElevatorOps σ SetEnv δ π) (w : World σ) (c : Call SetEnv δ π) :
    Decidable ((granting ops).legal w c) :=
  inferInstanceAs (Decidable (ops.legal w c ∧ Granted c))

/-- A request is set with a bio, and every allocation succeeds; its record is `a`. -/
def granted {δ π : Type} (rq : Rq) (pid : Pid) (a : Addr) : Call SetEnv δ π :=
  .setRequest rq pid ⟨true, true, true, some a⟩

/-- The request is set for a bio. -/
def HasBio {δ π : Type} : Call SetEnv δ π → Prop
  | .setRequest _ _ env => env.bio = true
  | _ => True

/-- Surroundings where, besides, every request is set for a bio. -/
def withBio {σ δ π : Type} (ops : ElevatorOps σ SetEnv δ π) : Machine (World σ) (Call SetEnv δ π) Out :=
  (granting ops).restrict fun _ => HasBio

instance {δ π : Type} : (c : Call SetEnv δ π) → Decidable (HasBio c)
  | .setRequest _ _ env => inferInstanceAs (Decidable (env.bio = true))
  | .addRequest _ => inferInstanceAs (Decidable True)
  | .dispatch _ => inferInstanceAs (Decidable True)
  | .completed _ => inferInstanceAs (Decidable True)
  | .putRequest _ _ => inferInstanceAs (Decidable True)

instance {σ δ π : Type} (ops : ElevatorOps σ SetEnv δ π) (w : World σ) (c : Call SetEnv δ π) :
    Decidable ((withBio ops).legal w c) :=
  inferInstanceAs (Decidable ((ops.legal w c ∧ Granted c) ∧ HasBio c))

/-- What such surroundings supply: the array `requests[]` as soon as a process is known, and a
record for every request that was set. -/
structure Supplied (w : World SfqData) : Prop where
  requests : w.elv.queue ≠ [] → w.elv.requests ≠ none
  records : ∀ rq, w.phase rq ≠ .idle → w.elv.priv1 rq ≠ none

theorem records_update {phase : Rq → Phase} {priv1 : Rq → Option Addr} {rq : Rq} {sfqr : Option Addr}
    {ph : Phase} (h : ∀ rq, phase rq ≠ .idle → priv1 rq ≠ none) (hs : sfqr ≠ none) :
    ∀ rq', Function.update phase rq ph rq' ≠ .idle → Function.update priv1 rq sfqr rq' ≠ none := by
  intro rq' hrq'
  rcases eq_or_ne rq' rq with rfl | hne
  · rwa [Function.update_self]
  · rw [Function.update_of_ne hne] at hrq' ⊢
    exact h rq' hrq'

theorem SfqData.grown_requests {d : SfqData} {pid : Pid} {env : SetEnv}
    (h : d.queue ≠ [] → d.requests ≠ none) (hr : env.requests = true) :
    (d.grown pid env).requests ≠ none := by
  unfold grown
  split
  · rename_i hany
    apply h
    intro hn
    simp [hn] at hany
  · simp only [growRequests, hr, if_true]
    split <;> simp

namespace Supplied

variable {w w' : World SfqData} {rq : Rq} {pid : Pid} {env : SetEnv}

/-- A step that sets no request leaves the supplies alone. -/
theorem frame (h : Supplied w) (hn : w'.elv.queue.length = w.elv.queue.length)
    (hr : w.elv.requests ≠ none → w'.elv.requests ≠ none) (hp : w'.elv.priv1 = w.elv.priv1)
    (hph : ∀ rq, w'.phase rq ≠ .idle → w.phase rq ≠ .idle) : Supplied w' where
  requests hq := by
    apply hr
    apply h.requests
    exact List.length_pos_iff.mp (hn ▸ List.length_pos_iff.mpr hq)
  records rq hrq := by
    rw [hp]
    exact h.records rq (hph rq hrq)

theorem set (h : Supplied w) (hr : env.requests = true) (hs : env.sfqr ≠ none) {k : Nat} :
    Supplied (w.onSet { w.elv.grown pid env with
      toCore := (w.elv.toCore.register pid).2.allocSfqr rq k env.sfqr } rq pid) where
  requests _ := SfqData.grown_requests h.requests hr
  records := by
    simp only [World.onSet, Core.allocSfqr_priv1, Core.register_priv1]
    exact records_update h.records hs

end Supplied

end SsdScheduler.Sfq
