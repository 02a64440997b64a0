import SsdScheduler.Sfq.Supply
import SsdScheduler.Theta.Cursor

/-! # Runs of `sfq_5.c` -/

namespace SsdScheduler.Sfq5

open Framework Framework.RoundRobin Sfq

/-- During a dispatch the list head, read as a process queue, carries the number of no process. -/
def Overlaid (w : World WrongData) : Call SetEnv DispatchEnv SfqRequest → Prop
  | .dispatch env => Apart w.elv.toCore env
  | _ => True

/-- The dispatch that sets `wrong_sfqq` finds two process queues. -/
def TwoWhenSet (w : World WrongData) : Call SetEnv DispatchEnv SfqRequest → Prop
  | .dispatch _ => w.elv.osSfqq ≠ none → w.elv.wrongSfqq = none → w.elv.queue.length = 2
  | _ => True

def overlaid (wrap : Int → Int) : Machine (World WrongData) (Call SetEnv DispatchEnv SfqRequest) Out :=
  (elevator wrap).machine.restrict Overlaid

def overlaidTwo (wrap : Int → Int) : Machine (World WrongData) (Call SetEnv DispatchEnv SfqRequest) Out :=
  (overlaid wrap).restrict TwoWhenSet

instance (w : World WrongData) : (c : Call SetEnv DispatchEnv SfqRequest) → Decidable (Overlaid w c)
  | .setRequest _ _ _ => inferInstanceAs (Decidable True)
  | .addRequest _ => inferInstanceAs (Decidable True)
  | .dispatch env => inferInstanceAs (Decidable (∀ q ∈ w.elv.queue, q.pid ≠ env.pid))
  | .completed _ => inferInstanceAs (Decidable True)
  | .putRequest _ _ => inferInstanceAs (Decidable True)

instance (w : World WrongData) : (c : Call SetEnv DispatchEnv SfqRequest) → Decidable (TwoWhenSet w c)
  | .setRequest _ _ _ => inferInstanceAs (Decidable True)
  | .addRequest _ => inferInstanceAs (Decidable True)
  | .dispatch _ =>
    inferInstanceAs (Decidable (w.elv.osSfqq ≠ none → w.elv.wrongSfqq = none → w.elv.queue.length = 2))
  | .completed _ => inferInstanceAs (Decidable True)
  | .putRequest _ _ => inferInstanceAs (Decidable True)

instance (wrap : Int → Int) (w : World WrongData) (c : Call SetEnv DispatchEnv SfqRequest) :
    Decidable ((overlaid wrap).legal w c) :=
  inferInstanceAs (Decidable ((elevator wrap).legal w c ∧ Overlaid w c))

instance (wrap : Int → Int) (w : World WrongData) (c : Call SetEnv DispatchEnv SfqRequest) :
    Decidable ((overlaidTwo wrap).legal w c) :=
  inferInstanceAs (Decidable (((elevator wrap).legal w c ∧ Overlaid w c) ∧ TwoWhenSet w c))

variable {wrap : Int → Int} {w w' : World WrongData} {o : Out} {c : Call SetEnv DispatchEnv SfqRequest}

/-- Only dispatches move the cursor. -/
theorem step_frame (hs : (elevator wrap).machine.step w c = some (o, w')) (hd : c.isDispatch = false) :
    w'.elv.osSfqq = w.elv.osSfqq ∧ w'.elv.wrongSfqq = w.elv.wrongSfqq ∧
      w.elv.queue.length ≤ w'.elv.queue.length := by
  obtain ⟨s, hc, rfl⟩ := (ElevatorOps.step_eq_some _).mp hs
  rw [World.after_elv]
  cases c with
  | setRequest rq pid env =>
    simp only [ElevatorOps.call, elevator, sfqSetRequest, Option.bind_eq_bind, Option.bind_eq_some_iff,
      Prod.exists] at hc
    obtain ⟨o', d, hset, hc⟩ := hc
    split at hc
    case isTrue => cases hc
    case isFalse =>
      obtain ⟨-, rfl⟩ := Prod.mk.inj (Option.some.inj hc)
      obtain ⟨hos, hn⟩ := SfqData.setRequest_frame hset
      exact ⟨hos, rfl, hn⟩
  | addRequest rq =>
    simp only [ElevatorOps.call, elevator, sfqAddRequest, SfqData.addRequest, Option.map_map,
      Option.map_eq_some_iff] at hc
    obtain ⟨c, hadd, hc⟩ := hc
    obtain ⟨-, rfl⟩ := Prod.mk.inj hc
    exact ⟨rfl, rfl, (Core.length_addRequest hadd).ge⟩
  | dispatch env => cases hd
  | completed rq =>
    simp only [ElevatorOps.call, elevator, sfqCompleted] at hc
    split at hc <;> obtain ⟨-, rfl⟩ := Prod.mk.inj (Option.some.inj hc) <;> exact ⟨rfl, rfl, le_rfl⟩
  | putRequest rq junk =>
    obtain ⟨-, rfl⟩ := Prod.mk.inj (Option.some.inj hc)
    exact ⟨rfl, rfl, (Core.length_put junk).ge⟩

/-- Where a dispatch that meets the condition leaves the cursor. -/
inductive Moved (s s' : WrongData) : Prop
  | empty (hos : s.osSfqq = none) (hn : s.queue.length = 0) (h : Same s s')
  | first (hos : s.osSfqq = none) (hn : 1 ≤ s.queue.length) (hos' : s'.osSfqq = some 1)
      (hwrong : s'.wrongSfqq = none) (hlen : s'.queue.length = s.queue.length)
  | turn (hos : s.osSfqq ≠ none) (hos' : s'.osSfqq = some (next s.queue.length (place s)))
      (hwrong : s'.wrongSfqq = some 0) (hlen : s'.queue.length = s.queue.length)

theorem Cursor.wrong_none {s : WrongData} (h : Cursor s) (hos : s.osSfqq = none) : s.wrongSfqq = none := by
  cases h with
  | null h1 h2 => exact h2
  | first h1 h2 => exact h2
  | settled h1 => simp [hos] at h1

theorem Cursor.length_pos {s : WrongData} (h : Cursor s) (hos : s.osSfqq ≠ none) : 1 ≤ s.queue.length := by
  cases h with
  | null h1 => exact absurd h1 hos
  | first h1 h2 hn => exact hn
  | settled h1 h2 hk hn => exact hk.trans hn

theorem dispatch_moved {env : DispatchEnv} (h : Cursor w.elv) (hl : (overlaidTwo wrap).legal w (.dispatch env))
    (hs : (overlaidTwo wrap).step w (.dispatch env) = some (o, w')) : Moved w.elv w'.elv := by
  obtain ⟨s, hd, rfl⟩ := (ElevatorOps.step_eq_some _).mp hs
  rw [World.after_elv]
  rcases sfqDispatch_cases hd with ⟨hos, hn, hsame⟩ | ⟨hos, hn, hsame⟩ | ⟨hos, t, ht, hsame⟩
  · exact .empty hos (List.length_eq_zero_iff.mpr hn) hsame
  · exact .first hos (List.length_pos_iff.mpr hn) hsame.osSfqq (hsame.wrongSfqq.trans (h.wrong_none hos)) hsame.length
  · have hc : Cursor { w.elv with idleSliceTimer := true } := h.congr rfl rfl le_rfl
    have heq := hc.nextDispatch_eq hos hl.1.2 (hl.2 hos)
    obtain rfl := Option.some.inj (heq.symm.trans ht)
    exact .turn hos hsame.osSfqq hsame.wrongSfqq hsame.length

theorem Moved.cursor {s s' : WrongData} (h : Cursor s) (hm : Moved s s') : Cursor s' := by
  cases hm with
  | empty hos hn hsame => exact h.congr hsame.osSfqq hsame.wrongSfqq hsame.length.ge
  | first hos hn hos' hwrong hlen => exact .first hos' hwrong (hlen ▸ hn)
  | turn hos hos' hwrong hlen =>
    exact .settled hos' hwrong (next_pos _ _) (hlen ▸ next_le (h.length_pos hos) _)

namespace Cursor

theorem init : Cursor (elevator wrap).init.elv := .null rfl rfl

theorem step (h : Cursor w.elv) (hl : (overlaidTwo wrap).legal w c)
    (hs : (overlaidTwo wrap).step w c = some (o, w')) : Cursor w'.elv := by
  cases hd : c.isDispatch with
  | true =>
    cases c with
    | dispatch env => exact (dispatch_moved h hl hs).cursor h
    | _ => cases hd
  | false =>
    obtain ⟨hos, hwrong, hn⟩ := step_frame hs hd
    exact h.congr hos hwrong hn

theorem of_reachable (h : (overlaidTwo wrap).Reachable (elevator wrap).init w) : Cursor w.elv := by
  apply Machine.Reachable.invariant h
  · intro w c o w' hw hl hs
    exact hw.step hl hs
  · exact .init

end Cursor

theorem length_step (h : Cursor w.elv) (hl : (overlaidTwo wrap).legal w c)
    (hs : (overlaidTwo wrap).step w c = some (o, w')) : w.elv.queue.length ≤ w'.elv.queue.length := by
  cases hd : c.isDispatch with
  | true =>
    cases c with
    | dispatch env =>
      cases dispatch_moved h hl hs with
      | empty hos hn hsame => exact hsame.length.ge
      | first hos hn hos' hwrong hlen => exact hlen.ge
      | turn hos hos' hwrong hlen => exact hlen.ge
    | _ => cases hd
  | false => exact (step_frame hs hd).2.2

theorem length_run {tr : List (Event _ _ Out)} (h : Cursor w.elv) (hr : (overlaidTwo wrap).Run w tr w') :
    w.elv.queue.length ≤ w'.elv.queue.length := by
  induction hr with
  | nil => exact le_rfl
  | cons hl hs _ ih => exact (length_step h hl hs).trans (ih (h.step hl hs))

end SsdScheduler.Sfq5
