import SsdScheduler.Deadline.Pending

/-!
# How long reads keep a write waiting in `deadline_example.c`

Reads pass a waiting write in batches: at most what is left of the present batch, and one full batch for
each time that reads may still be preferred.
-/

namespace SsdScheduler.DeadlineExample

open Framework

variable {request : Rq → Request} {x x' : Experiment} {o : Out} {c : ElevatorCall} {hz : Int}
  {tr l : List (Event Experiment ElevatorCall Out)}

/-- The number of reads that may still be dispatched ahead of a waiting write. -/
def patience (dd : DeadlineData) : Nat :=
  (if dd.nextRq .read ≠ none then dd.fifoBatch - dd.batching else 0) +
    dd.fifoBatch * (dd.writesStarved - dd.starved)

/-- A read is dispatched while a write is pending. -/
def PassesWrite (request : Rq → Request) (e : Event Experiment ElevatorCall Out) : Prop :=
  (∃ rq ∈ e.out.dispatched, (request rq).dataDir = .read) ∧ e.pre.queue.dd.fifoList .write ≠ []

instance (request : Rq → Request) (e : Event Experiment ElevatorCall Out) : Decidable (PassesWrite request e) :=
  inferInstanceAs (Decidable ((∃ rq ∈ e.out.dispatched, (request rq).dataDir = .read) ∧
    e.pre.queue.dd.fifoList .write ≠ []))

theorem patience_le {dd : DeadlineData} (h : Settings dd) : patience dd ≤ fifoBatch * (writesStarved + 1) := by
  have hbatch : dd.fifoBatch = 16 := h.fifoBatch
  have hstarved : dd.writesStarved = 2 := h.writesStarved
  have hbound : fifoBatch * (writesStarved + 1) = 48 := rfl
  unfold patience
  rw [hbatch, hstarved, hbound]
  split <;> omega

/-- Each read that passes a write uses up some of the patience. -/
theorem Route.patience_lt {q : RequestQueue} {rq : Rq} {b s : Nat} (hroute : Route q.dd rq b s)
    (h : Views request q.dd.sortList q.dd.fifoList q.dd.nextRq) (hset : Settings q.dd)
    (hread : (request rq).dataDir = .read) (hw : q.dd.fifoList .write ≠ []) :
    patience (moved request q rq b s).dd < patience q.dd := by
  have hbatch : q.dd.fifoBatch = 16 := hset.fifoBatch
  have hstarved : q.dd.writesStarved = 2 := hset.writesStarved
  have hafter : patience (moved request q rq b s).dd ≤ (16 - b) + 16 * (2 - s) := by
    simp only [patience, moved, hbatch, hstarved]
    split <;> omega
  cases hroute with
  | @batch d rq hn hb =>
    have hd : d = .read := (h.dirs d rq (h.next d rq hn)).symm.trans hread
    subst hd
    have hbefore : patience q.dd = (16 - q.dd.batching) + 16 * (2 - q.dd.starved) := by
      simp [patience, hn, hbatch, hstarved]
    omega
  | reads hb hr hleft =>
    have hless := hleft hw
    have hbefore : 16 * (2 - q.dd.starved) ≤ patience q.dd := by simp [patience, hbatch, hstarved]
    rw [if_pos hw] at hafter ⊢
    omega
  | writes hb hwrite hr =>
    have hwrong := h.dirs _ _ hwrite
    simp [hread] at hwrong

theorem patience_dispatch (h : Inv request x) (hc : c.isDispatch = true)
    (hs : (elevator request).step x c = some (o, x')) {rq : Rq} (hrq : rq ∈ o.dispatched)
    (hread : (request rq).dataDir = .read) (hw : x.queue.dd.fifoList .write ≠ []) :
    patience x'.queue.dd < patience x.queue.dd := by
  cases c with
  | addRequest jiffies rq => cases hc
  | dispatch jiffies force =>
    obtain ⟨rq', b, s, hroute, hd⟩ := h.dispatch ⟨.write, hw⟩ jiffies force
    obtain ⟨rfl, rfl⟩ := Prod.mk.inj (Option.some.inj (hd.symm.trans hs))
    obtain rfl : rq' = rq := Option.some.inj hrq
    exact hroute.patience_lt h.views h.settings hread hw

theorem patience_add (hc : c.isDispatch = false) (hs : (elevator request).step x c = some (o, x')) :
    patience x'.queue.dd = patience x.queue.dd := by
  cases c with
  | addRequest jiffies rq =>
    obtain ⟨-, rfl⟩ := Prod.mk.inj (Option.some.inj hs)
    rfl
  | dispatch jiffies force => cases hc

/-- While a write waits, no more reads are dispatched in a row than `fifo_batch * (writes_starved + 1)`. -/
theorem write_starvation_bounded (hr : (elevator request).Run (init hz) tr x)
    (hl : l <:+: tr.filter fun e => e.call.isDispatch) (hp : ∀ e ∈ l, PassesWrite request e) :
    l.length ≤ fifoBatch * (writesStarved + 1) := by
  have hinit : Inv request (init hz) := Inv.of_reachable (show Reachable request hz (init hz) from .init)
  refine hr.infix_length_le (I := Inv request) (r := fun x => patience x.queue.dd) ?_ ?_ hinit hl hp
  · intro e hinv hlegal hs
    refine ⟨hinv.step hlegal hs, fun hc => (patience_add hc hs).le, fun hc hpass => ?_⟩
    obtain ⟨⟨rq, hrq, hread⟩, hw⟩ := hpass
    exact patience_dispatch hinv hc hs hrq hread hw
  · intro x hx
    exact patience_le hx.settings

/-- Request `0` is a write, all others are reads. -/
private def zeroWrites (rq : Rq) : Request := ⟨if rq = 0 then .write else .read, rq⟩

/-- Two reads pass a write that was added before them. -/
theorem write_starvation_bounded_two :
    ∃ tr x l, (elevator zeroWrites).Run (init 250) tr x ∧ l <:+: (tr.filter fun e => e.call.isDispatch) ∧
      (∀ e ∈ l, PassesWrite zeroWrites e) ∧ l.length = 2 ∧ l.length ≤ fifoBatch * (writesStarved + 1) := by
  have hplay : (elevator zeroWrites).Plays (init 250)
      [.addRequest 0 0, .addRequest 0 1, .addRequest 0 2, .dispatch 0 false, .dispatch 0 false] fun tr _ =>
        (∀ e ∈ tr.filter fun e => e.call.isDispatch, PassesWrite zeroWrites e) ∧
        (tr.filter fun e => e.call.isDispatch).length = 2 := by decide
  obtain ⟨tr, x, hr, -, hpass, hlength⟩ := hplay.exists_run
  exact ⟨tr, x, _, hr, List.infix_refl _, hpass, hlength, write_starvation_bounded hr (List.infix_refl _) hpass⟩

end SsdScheduler.DeadlineExample
