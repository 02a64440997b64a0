import SsdScheduler.Alpha.Gated

/-! # `ssd_scheduler_alpha/sfq-shed_16_array_limit.c` -/

namespace SsdScheduler.Shed16

open Framework Framework.Heap Alpha

def stageTwo : Nat := 50000
def stageThree : Nat := 70000

def initQueue : GatedData := Gated.initQueue

/-- One record of the `STAGE_ONE` that `kmalloc` makes room for is ever used. -/
def sfqSetRequest (wrap : Int → Int) (s : GatedData) (rq : Rq) (pid : Pid) (env : SetEnv Int) :
    Option (Out × GatedData) :=
  Gated.sfqSetRequest wrap s rq pid env

/-- The number of slots that `sfq_add_request` asks for with `size` records in the heap. -/
def stage (size : Nat) : Nat :=
  if 20000 ≤ size then stageTwo
  else if 40000 < size then stageThree
  else size + 1

def grow (b : Block Addr) (size : Nat) : Block Addr := resize b (stage size)

def sfqAddRequest (s : GatedData) (rq : Rq) : Option (Out × GatedData) := Gated.sfqAddRequest grow s rq

/-- The array stays as it is. -/
def shrink (b : Block Addr) (_size : Nat) : Block Addr := b

def sfqDispatch (s : GatedData) (force : Bool) : Option (Out × GatedData) := Gated.sfqDispatch shrink s force

def sfqCompleted (s : GatedData) (rq : Rq) : Option (Out × GatedData) := Gated.sfqCompleted s rq

def sfqPutRequest (s : GatedData) (rq : Rq) (env : Unit) : Option (Out × GatedData) := Gated.sfqPutRequest s rq env

def elevator (wrap : Int → Int) : ElevatorOps GatedData (SetEnv Int) Bool Unit where
  initQueue := initQueue
  possible s env := !s.live env.sfqr
  setRequest := sfqSetRequest wrap
  addRequest := sfqAddRequest
  dispatch := sfqDispatch
  completed := sfqCompleted
  putRequest := sfqPutRequest

theorem elevator_eq (wrap : Int → Int) : elevator wrap = Gated.elevator wrap grow shrink := rfl

theorem keeps : Gated.Keeps grow := by
  intro b n hroom j hj
  rw [grow, length_resize] at hroom
  rw [grow, load_resize, if_pos (hj.trans hroom)]

theorem shrinks : Shrinks shrink where
  length _ _ h := h
  load _ _ _ _ := rfl

theorem room_iff {s : GatedData} : Gated.Room grow s ↔ s.size < stageTwo := by
  unfold Gated.Room grow
  rw [length_resize]
  unfold stage stageTwo
  split
  case isTrue => exact Iff.rfl
  case isFalse hlt =>
    rw [if_neg (by omega)]
    omega

variable {wrap : Int → Int} {w : World GatedData} {c : Call (SetEnv Int) Bool Unit}

theorem inv_of_reachable (h : (elevator wrap).Reachable w) : Gated.Inv w := Gated.Inv.of_reachable keeps shrinks h

/-- `sfq_add_request` has a slot for its record. -/
def HasRoom (w : World GatedData) : Call (SetEnv Int) Bool Unit → Prop
  | .addRequest _ => w.elv.size < stageTwo
  | _ => True

instance (w : World GatedData) : (c : Call (SetEnv Int) Bool Unit) → Decidable (HasRoom w c)
  | .addRequest _ => inferInstanceAs (Decidable (w.elv.size < stageTwo))
  | .setRequest _ _ _ => inferInstanceAs (Decidable True)
  | .dispatch _ => inferInstanceAs (Decidable True)
  | .completed _ => inferInstanceAs (Decidable True)
  | .putRequest _ _ => inferInstanceAs (Decidable True)

theorem returns_iff (h : (elevator wrap).Reachable w) (hl : (elevator wrap).machine.legal w c) :
    (elevator wrap).machine.Returns w c ↔ HasRoom w c := by
  have hinv : Gated.Inv w := inv_of_reachable h
  constructor
  · rintro ⟨o, w', hs⟩
    cases c with
    | addRequest rq =>
      by_contra hfull
      have hnone : (elevator wrap).machine.step w (.addRequest rq) = none :=
        Gated.step_full hinv hl (mt room_iff.mp hfull)
      cases hnone.symm.trans hs
    | _ => trivial
  · intro hroom
    apply Gated.exists_step hinv keeps shrinks hl
    rintro rq rfl
    exact room_iff.mpr hroom

/-- All accesses of a sequence of calls stay within the block, exactly if no `sfq_add_request` is made
with 50000 records or more in the heap. -/
theorem accesses_in_bounds_iff {cs : List (Call (SetEnv Int) Bool Unit)}
    (hlegal : (elevator wrap).machine.Each (elevator wrap).machine.legal (elevator wrap).init cs) :
    (elevator wrap).machine.Each (elevator wrap).machine.Returns (elevator wrap).init cs ↔
      (elevator wrap).machine.Each HasRoom (elevator wrap).init cs :=
  Machine.each_iff .init hlegal fun _ _ hr hl => returns_iff hr hl

theorem accesses_in_bounds_iff_two :
    (elevator id).machine.Each (elevator id).machine.Returns (elevator id).init
      [.setRequest 1 7 ⟨0, ⟨-5, 3, 0, some 9, 0⟩⟩, .addRequest 1, .setRequest 2 8 ⟨1, ⟨0, 0, 0, none, 0⟩⟩,
        .addRequest 2, .dispatch false, .completed 1, .putRequest 1 (), .dispatch true] :=
  (accesses_in_bounds_iff (by decide)).mpr (by decide)

section Filling

/-- The heap holds the records `0, ..., n - 1`, and nothing else has happened. -/
structure Filled (w : World GatedData) (n : Nat) : Prop where
  reachable : (elevator id).Reachable w
  size : w.elv.size = n
  idle : ∀ rq, n ≤ rq → w.phase rq = .idle
  free : ∀ a, n ≤ a → w.elv.live a = false

theorem Filled.set {n : Nat} (h : Filled w n) :
    ∃ w', (elevator id).Reachable w' ∧ w'.elv.size = n ∧ w'.phase n = .set ∧
      (∀ rq, n + 1 ≤ rq → w'.phase rq = .idle) ∧ ∀ a, n + 1 ≤ a → w'.elv.live a = false := by
  have hl : (elevator id).machine.legal w (.setRequest n 7 ⟨n, ⟨0, 0, 0, none, 0⟩⟩) :=
    ⟨h.idle n le_rfl, by simp [elevator, h.free n le_rfl]⟩
  obtain ⟨o, w', hs⟩ := (returns_iff h.reachable hl).mpr trivial
  obtain ⟨f, hf⟩ := (inv_of_reachable h.reachable).heap
  refine ⟨w', h.reachable.step hl hs, ?_⟩
  cases Gated.step_cases hf keeps shrinks hl hs with
  | set hi hfree hle =>
    refine ⟨h.size, Function.update_self .., ?_, ?_⟩
    · intro rq hrq
      exact (Function.update_of_ne (Nat.ne_of_gt hrq) _ _).trans (h.idle rq (Nat.le_of_succ_le hrq))
    · intro a ha
      exact (Function.update_of_ne (Nat.ne_of_gt ha) _ _).trans (h.free a (Nat.le_of_succ_le ha))

theorem exists_filled {n : Nat} (hn : n ≤ stageTwo) : ∃ w, Filled w n := by
  induction n with
  | zero => exact ⟨_, .init, rfl, fun _ _ => rfl, fun _ _ => rfl⟩
  | succ n ih =>
    obtain ⟨w, h⟩ := ih (Nat.le_of_succ_le hn)
    obtain ⟨w₁, hreach, hsize, hset, hidle, hfree⟩ := h.set
    have hl : (elevator id).machine.legal w₁ (.addRequest n) := hset
    obtain ⟨o, w₂, hs⟩ := (returns_iff hreach hl).mpr (hsize.trans_lt hn)
    obtain ⟨f, hf⟩ := (inv_of_reachable hreach).heap
    have hreach₂ : (elevator id).Reachable w₂ := hreach.step hl hs
    refine ⟨w₂, ?_⟩
    cases Gated.step_cases hf keeps shrinks hl hs with
    | @add rq a h' f' _ ha hi =>
      refine ⟨hreach₂, hi.size.trans (congrArg (· + 1) hsize), ?_, ?_⟩
      · intro rq hrq
        exact (Function.update_of_ne (Nat.ne_of_gt hrq) _ _).trans (hidle rq hrq)
      · intro b hb
        change h'.live b = false
        rw [hi.live]
        exact hfree b hb

end Filling

/-- With 50000 records in the heap, another one has no slot. -/
theorem add_out_of_bounds :
    ∃ w rq, (elevator id).Reachable w ∧ w.elv.size = stageTwo ∧ (elevator id).machine.legal w (.addRequest rq) ∧
      (elevator id).machine.step w (.addRequest rq) = none := by
  obtain ⟨w, h⟩ := exists_filled le_rfl
  obtain ⟨w', hreach, hsize, hset, -⟩ := h.set
  refine ⟨w', stageTwo, hreach, hsize, hset, ?_⟩
  exact Gated.step_full (inv_of_reachable hreach) hset (mt room_iff.mp (by omega))

end SsdScheduler.Shed16
