import SsdScheduler.Elevator.QueueSteps
import SsdScheduler.Framework.Ledger

/-!
# References on scheduler modules

A module is referenced by itself, by the queues that use its scheduler, and by those that are about to. A change that
fails before the new scheduler has a queue of its own leaves a reference behind for good; an init function that fails
later in `elevator_init` takes one too many away.
-/

namespace SsdScheduler.Registry

open Framework

/-- The references that all queues have on `t`. -/
noncomputable def Schedulers.claims (s : Schedulers) (t : Ty) : Nat := ∑ᶠ q, (s.queues q).claims t

variable {c : Config} {s s' : Schedulers} {q : QueueId} {e t : Ty} {leaks : Ty → Nat}

section Counting

/-- The reference on `t` that the call leaves behind. -/
def leaked (t : Ty) (ev : Event Schedulers Act Out) : Nat :=
  match ev.call with
  | .switch _ .early _ _ => if ev.out.initialized = some t then 1 else 0
  | _ => 0

structure Inv (c : Config) (leaks : Ty → Nat) (s : Schedulers) : Prop where
  names : (s.elvList.map c.elevatorName).Nodup
  finite : ∀ t, (Function.support fun q => (s.queues q).claims t).Finite
  fits : ∀ q, (s.queues q).Fits
  counted : ∀ t ∈ s.elvList, c.builtin t = false → s.going t = false → s.refcnt t = 1 + s.claims t + leaks t
  going : ∀ t, s.going t = true → t ∈ s.elvList ∧ c.builtin t = false ∧ s.claims t = 0 ∧ leaks t = 0
  absent : ∀ t, t ∉ s.elvList → s.claims t = 0 ∧ leaks t = 0

theorem Inv.init (c : Config) : Inv c (fun _ => 0) init := by
  have hclaims (t : Ty) : (fun q => (Registry.init.queues q).claims t) = fun _ => 0 := rfl
  have hnone (t : Ty) : Registry.init.claims t = 0 := by
    rw [Schedulers.claims, hclaims, finsum_zero]
  refine ⟨List.nodup_nil, fun t => ?_, fun _ => trivial, ?_, ?_, fun t _ => ⟨hnone t, rfl⟩⟩
  · rw [hclaims, Function.support_fun_zero]
    exact Set.finite_empty
  · intro t ht
    cases ht
  · intro t ht
    cases ht

theorem Inv.claims_le (h : Inv c leaks s) (q : QueueId) (t : Ty) : (s.queues q).claims t ≤ s.claims t :=
  single_le_finsum q (h.finite t) fun _ => Nat.zero_le _

/-- What a queue uses, or is about to use, is registered and there to stay. -/
theorem Inv.live (h : Inv c leaks s) (ht : (s.queues q).claims t ≠ 0) : t ∈ s.elvList ∧ s.going t = false := by
  have hle := h.claims_le q t
  constructor
  · by_contra hnot
    have := (h.absent t hnot).1
    omega
  · cases hg : s.going t with
    | false => rfl
    | true =>
      have := (h.going t hg).2.2.1
      omega

theorem Inv.pos (h : Inv c leaks s) (t : Ty) (ht : (s.queues q).claims t ≠ 0) : c.builtin t = true ∨ 1 < s.refcnt t := by
  cases hb : c.builtin t with
  | true => exact .inl rfl
  | false =>
    obtain ⟨hin, hg⟩ := h.live ht
    have hcount := h.counted t hin hb hg
    have hle := h.claims_le q t
    right
    omega

theorem claims_of_others (h : Inv c leaks s) (ho : ∀ x, x ≠ q → s'.queues x = s.queues x) (t : Ty) :
    (Function.support fun q => (s'.queues q).claims t).Finite ∧
      s'.claims t + (s.queues q).claims t = s.claims t + (s'.queues q).claims t := by
  have heq : (fun x => (s'.queues x).claims t) =
      Function.update (fun x => (s.queues x).claims t) q ((s'.queues q).claims t) := by
    funext x
    rcases eq_or_ne x q with rfl | hx
    · rw [Function.update_self]
    · rw [Function.update_of_ne hx, ho x hx]
  constructor
  · apply ((h.finite t).insert q).subset
    intro x hx
    rcases eq_or_ne x q with rfl | hxq
    · exact Set.mem_insert x _
    · right
      rwa [Function.mem_support, ho x hxq] at hx
  · unfold Schedulers.claims
    rw [heq]
    exact finsum_update (h.finite t) q _

theorem Inv.queueStep (h : Inv c leaks s) (gone : Ty → Nat) (hs : QueueStep c q (fun t => gone t) s s')
    (hgone : ∀ t, gone t ≠ 0 → (s.queues q).claims t ≠ 0) : Inv c (fun t => leaks t + gone t) s' := by
  have hclaims := claims_of_others h hs.others
  have hnothing (t : Ty) (hnone : s.claims t = 0)
      (hnot : ¬ (t ∈ s.elvList ∧ (c.builtin t = false → s.going t = false))) : s'.claims t = 0 ∧ gone t = 0 := by
    have hzero : (s.queues q).claims t = 0 := Nat.eq_zero_of_le_zero (hnone ▸ h.claims_le q t)
    have hzero' : (s'.queues q).claims t = 0 := by
      by_contra hne
      exact (hs.uses t hne).elim (· hzero) hnot
    have hkeep : gone t = 0 := by
      by_contra hne
      exact hgone t hne hzero
    have htotal := (hclaims t).2
    exact ⟨by omega, hkeep⟩
  refine ⟨hs.list ▸ h.names, fun t => (hclaims t).1, fun x => ?_, fun t ht hb hg => ?_, fun t hg => ?_, fun t ht => ?_⟩
  · rcases eq_or_ne x q with rfl | hx
    · exact hs.fits
    · rw [hs.others x hx]
      exact h.fits x
  · rw [hs.list] at ht
    rw [hs.going] at hg
    have hcount := h.counted t ht hb hg
    have hdrift := hs.count t hb
    have htotal := (hclaims t).2
    omega
  · rw [hs.going] at hg
    obtain ⟨hin, hb, hnone, hleaks⟩ := h.going t hg
    obtain ⟨hnone', hkeep⟩ := hnothing t hnone fun hlive => by simp [hlive.2 hb] at hg
    exact ⟨hs.list ▸ hin, hb, hnone', by rw [hleaks, hkeep]⟩
  · rw [hs.list] at ht
    obtain ⟨hnone, hleaks⟩ := h.absent t ht
    obtain ⟨hnone', hkeep⟩ := hnothing t hnone fun hlive => ht hlive.1
    exact ⟨hnone', by rw [hleaks, hkeep]⟩

theorem Inv.insmod (h : Inv c leaks s) (hl : e ∉ s.elvList) (hnew : s.elevatorFind c (c.elevatorName e) = none) :
    Inv c leaks { s with elvList := s.elvList ++ [e], refcnt := Function.update s.refcnt e 1 } := by
  have hnames : ∀ x ∈ s.elvList, c.elevatorName x ≠ c.elevatorName e := by simpa [Schedulers.elevatorFind] using hnew
  obtain ⟨hnone, hleaks⟩ := h.absent e hl
  refine ⟨?_, h.finite, h.fits, fun t ht hb hg => ?_, fun t hg => ?_, fun t ht => ?_⟩
  · rw [List.map_append, List.nodup_append]
    refine ⟨h.names, List.nodup_singleton _, ?_⟩
    simpa using hnames
  · show Function.update s.refcnt e 1 t = 1 + s.claims t + leaks t
    rcases eq_or_ne t e with rfl | hne
    · rw [Function.update_self, hnone, hleaks]
    · rw [Function.update_of_ne hne]
      exact h.counted t ((List.mem_append.mp ht).resolve_right (by simpa using hne)) hb hg
  · obtain ⟨hin, hrest⟩ := h.going t hg
    exact ⟨List.mem_append_left _ hin, hrest⟩
  · exact h.absent t fun hin => ht (List.mem_append_left _ hin)

theorem Inv.stop (h : Inv c leaks s) (hl : s.legal c (.stop e)) :
    Inv c leaks { s with refcnt := Function.update s.refcnt e 0, going := Function.update s.going e true } := by
  obtain ⟨hin, hb, hg, hone⟩ := hl
  have hcount := h.counted e hin hb hg
  refine ⟨h.names, h.finite, h.fits, fun t ht hbt hgt => ?_, fun t hgt => ?_, h.absent⟩
  · have hne : t ≠ e := by
      rintro rfl
      simp at hgt
    simp only [Function.update_of_ne hne] at hgt ⊢
    exact h.counted t ht hbt hgt
  · show t ∈ s.elvList ∧ c.builtin t = false ∧ s.claims t = 0 ∧ leaks t = 0
    rcases eq_or_ne t e with rfl | hne
    · exact ⟨hin, hb, by omega, by omega⟩
    · simp only [Function.update_of_ne hne] at hgt
      exact h.going t hgt

theorem Inv.exit (h : Inv c leaks s) (hl : s.legal c (.exit e)) :
    Inv c leaks { s.elvUnregister e with going := Function.update s.going e false } := by
  obtain ⟨hin, hg⟩ := hl
  have hnodup : s.elvList.Nodup := h.names.of_map
  refine ⟨h.names.sublist ((List.erase_sublist ..).map _), h.finite, h.fits, fun t ht hb hgt => ?_, fun t hgt => ?_,
    fun t ht => ?_⟩
  · obtain ⟨hne, hmem⟩ := hnodup.mem_erase_iff.mp ht
    simp only [Function.update_of_ne hne] at hgt
    exact h.counted t hmem hb hgt
  · have hne : t ≠ e := by
      rintro rfl
      simp at hgt
    simp only [Function.update_of_ne hne] at hgt
    obtain ⟨hmem, hrest⟩ := h.going t hgt
    exact ⟨hnodup.mem_erase_iff.mpr ⟨hne, hmem⟩, hrest⟩
  · rcases eq_or_ne t e with rfl | hne
    · exact (h.going t hg).2.2
    · exact h.absent t fun hmem => ht (hnodup.mem_erase_iff.mpr ⟨hne, hmem⟩)

theorem Inv.quietStep (h : Inv c leaks s) (hs : QueueStep c q (fun _ => 0) s s') : Inv c leaks s' :=
  h.queueStep (fun _ => 0) hs fun _ hne => absurd rfl hne

theorem Inv.step {act : Act} {o : Out} (h : Inv c leaks s) (hl : s.legal c act) (hsafe : ∀ q, act ≠ .initFn q .late)
    (hs : s.step c act = some (o, s')) : Inv c (fun t => leaks t + leaked t ⟨s, act, o, s'⟩) s' := by
  have hidle (q : QueueId) (hpc : (s.queues q).pc = .idle) (t : Ty) : (s.queues q).pc.claims t = 0 := by rw [hpc]; rfl
  cases act with
  | insmod e =>
    simp only [Schedulers.step, Schedulers.elvRegister] at hs
    cases hnew : s.elevatorFind c (c.elevatorName e) with
    | some _ =>
      simp only [hnew] at hs
      cases hs
      exact h
    | none =>
      simp only [hnew] at hs
      cases hs
      exact h.insmod hl hnew
  | stop e =>
    cases hs
    exact h.stop hl
  | exit e =>
    cases hs
    exact h.exit hl
  | elevatorInit q name =>
    have hpc : (s.queues q).pc = .idle := hl
    simp only [Schedulers.step] at hs
    split at hs
    case isTrue =>
      cases hs
      exact h
    case isFalse hel =>
      have hnone : (s.queues q).elevator = none := by simpa using hel
      cases name with
      | some name =>
        have hstep : QueueStep c q (fun _ => 0) s (s.getLoading c q name .init).2 := getLoading_step (hidle q hpc) hnone
        rw [Option.some.inj hs] at hstep
        exact h.quietStep hstep
      | none =>
        simp only [Option.bind_eq_bind, Option.bind_eq_some_iff, Option.some.injEq, Prod.mk.injEq, Prod.exists] at hs
        obtain ⟨e, s₁, hdefault, -, rfl⟩ := hs
        obtain ⟨name, hget⟩ := elevatorDefault_spec hdefault
        exact h.quietStep (took_step (hidle q hpc) hnone hget)
  | elevatorChange q name =>
    have hpc : (s.queues q).pc = .idle := hl
    simp only [Schedulers.step] at hs
    split at hs
    case isTrue =>
      cases hs
      exact h
    case isFalse hel =>
      have hsome : (s.queues q).elevator.isSome = true := by simpa [Option.isSome_iff_ne_none] using hel
      have hstep (str : List Char) : QueueStep c q (fun _ => 0) s (s.getLoading c q (skipSpaces str) (.change str)).2 :=
        getLoading_step (hidle q hpc) hsome
      have hloading := hstep (stripTail (name.take (elvNameMax - 1)))
      rw [Option.some.inj hs] at hloading
      exact h.quietStep hloading
  | loaded q =>
    obtain ⟨name, caller, hpc⟩ := Pc.isLoading_iff.mp hl
    have hfits : Queue.Fits { s.queues q with pc := .loading name caller } := hpc ▸ h.fits q
    simp only [Schedulers.step, hpc] at hs
    have hstep : QueueStep c q (fun _ => 0) s (s.got c q name caller).2 := got_step (fun t => by rw [hpc]; rfl) hfits
    rw [Option.some.inj hs] at hstep
    exact h.quietStep hstep
  | initFn q r =>
    obtain ⟨e, hpc⟩ := Pc.isInitializing_iff.mp hl
    have hnone : (s.queues q).elevator = none := by
      have hfits := h.fits q
      rwa [Queue.Fits, hpc] at hfits
    have hq : s.queues q = ⟨none, .holding e .init⟩ := by rw [← hnone, ← hpc]
    have hstep := initFn_step hq h.pos (fun hr => hsafe q (by rw [hr]))
      (Prod.mk.eta (p := (s.setQueue q ⟨none, .idle⟩).elevatorInitFn c q e r)).symm
    simp only [Schedulers.step, hq] at hs
    cases hs
    exact h.quietStep hstep
  | switch q r reg rereg =>
    obtain ⟨e, name, hpc⟩ := Pc.isChanging_iff.mp hl
    obtain ⟨old, hold⟩ : ∃ old, (s.queues q).elevator = some old := by
      have hfits := h.fits q
      rw [Queue.Fits, hpc] at hfits
      exact Option.isSome_iff_exists.mp hfits
    have hq : s.queues q = ⟨some old, .holding e (.change name)⟩ := by rw [← hold, ← hpc]
    simp only [Schedulers.step, hpc] at hs
    have hswitched := switchTo_cases hold hs
    have hleak (t : Ty) : leaked t ⟨s, .switch q r reg rereg, o, s'⟩ =
        if r = .early ∧ o.initialized = some t then 1 else 0 := by
      cases r <;> simp [leaked]
    simp only [hleak]
    apply h.queueStep _ (hswitched.step hq h.pos)
    intro t hne
    obtain rfl : t = e := by
      split at hne
      case isTrue hcond => exact hswitched.initialized hcond.2
      case isFalse => exact absurd rfl hne
    simp [hq, Queue.claims]
  | registerQueue q reg =>
    cases hs
    exact h.quietStep (registerQueue_step (h.fits q))
  | unregisterQueue q =>
    cases hs
    exact h.quietStep (unregisterQueue_step (h.fits q))
  | elevatorExit q =>
    obtain ⟨hpc, hsome⟩ := hl
    obtain ⟨old, hold⟩ := Option.isSome_iff_exists.mp hsome
    have hq : s.queues q = ⟨some old, .idle⟩ := by rw [← hold, ← hpc]
    simp only [Schedulers.step, hold] at hs
    cases hs
    apply h.quietStep
    apply QueueStep.move (.idle _)
    · exact (h.pos (q := q) old.type (by simp [hq, Queue.claims])).imp_right Nat.lt_of_succ_lt
    · intro t
      simp only [hq, Queue.claims, Pc.claims_idle, Option.map_some, Option.map_none, reduceCtorEq, if_false,
        Option.some.injEq]
      split_ifs <;> omega
    · intro t
      simp [Queue.claims]

/-- Every call but an init function that fails late under `elevator_init`. -/
def Act.balanced : Act → Bool
  | .initFn _ .late => false
  | _ => true

def careful (c : Config) : Machine Schedulers Act Out := (machine c).restrict fun _ act => act.balanced = true

instance (act : Act) : Decidable ((careful c).legal s act) :=
  inferInstanceAs (Decidable (s.legal c act ∧ act.balanced = true))

theorem Inv.run {tr : List (Event Schedulers Act Out)} (hrun : (careful c).Run s tr s') (h : Inv c leaks s) :
    Inv c (fun t => leaks t + (tr.map (leaked t)).sum) s' := by
  induction hrun generalizing leaks with
  | nil => simpa using h
  | @cons s u s' act o tr hl hs _ ih =>
    have hsafe (q : QueueId) : act ≠ .initFn q .late := by
      rintro rfl
      cases hl.2
    simpa [add_assoc] using ih (h.step hl.1 hsafe hs)

theorem Inv.of_run {tr : List (Event Schedulers Act Out)} (h : (careful c).Run Registry.init tr s) :
    Inv c (fun t => (tr.map (leaked t)).sum) s := by
  simpa using (Inv.init c).run h

/-- The module of every registered scheduler has a reference for itself, one for each queue that has the scheduler or
is about to get it, and one for each change to it that failed early. So it can be unloaded if and only if there are
none but the first, and the scheduler of a queue is there as long as the queue has it. -/
theorem references_counted {tr : List (Event Schedulers Act Out)} (h : (careful c).Run Registry.init tr s) :
    (∀ t ∈ s.elvList, c.builtin t = false → s.going t = false →
      s.refcnt t = 1 + s.claims t + (tr.map (leaked t)).sum) ∧
    (∀ q e, (s.queues q).elevator = some e → e.type ∈ s.elvList ∧ s.going e.type = false) ∧
    ∀ t ∈ s.elvList, c.builtin t = false → s.going t = false →
      (s.legal c (.stop t) ↔ s.claims t = 0 ∧ (tr.map (leaked t)).sum = 0) := by
  have hinv := Inv.of_run h
  refine ⟨hinv.counted, fun q e he => hinv.live (q := q) (by simp [Queue.claims, he]), fun t ht hb hg => ?_⟩
  have hcount := hinv.counted t ht hb hg
  constructor
  · rintro ⟨-, -, -, hone⟩
    exact ⟨by omega, by omega⟩
  · rintro ⟨hclaims, hleaks⟩
    exact ⟨ht, hb, hg, by rw [hcount, hclaims, hleaks]⟩

/-- `noop` is built in and the default, `sfq` is a module. -/
def kernel : Config where
  elevatorName e := if e = 0 then ['n', 'o', 'o', 'p'] else ['s', 'f', 'q']
  builtin e := e == 0
  bootParam := []
  defaultIosched := ['n', 'o', 'o', 'p']

/-- After a failed change and a successful one `sfq` has a reference more than its queue accounts for. -/
theorem references_counted_sfq :
    ∃ tr u, (careful kernel).Run init tr u ∧ u.elvList = [0, 1] ∧ (u.queues 0).elevator = some ⟨1, true⟩ ∧
      (tr.map (leaked 1)).sum = 1 ∧ (u.legal kernel (.stop 1) ↔ u.claims 1 = 0 ∧ (tr.map (leaked 1)).sum = 0) := by
  have hplays : (careful kernel).Plays init
      [.insmod 0, .insmod 1, .elevatorInit 0 none, .initFn 0 .ok, .registerQueue 0 0,
        .elevatorChange 0 ['s', 'f', 'q', '\n'], .switch 0 .early 0 0, .elevatorChange 0 ['s', 'f', 'q', '\n'],
        .switch 0 .ok 0 0]
      (fun tr u => u.elvList = [0, 1] ∧ (u.queues 0).elevator = some ⟨1, true⟩ ∧ (tr.map (leaked 1)).sum = 1 ∧
        u.going 1 = false) := by decide
  obtain ⟨tr, u, hr, -, hlist, hel, hleaked, hgoing⟩ := hplays.exists_run
  exact ⟨tr, u, hr, hlist, hel, hleaked, (references_counted hr).2.2 1 (by simp [hlist]) rfl hgoing⟩

/-- An init function that fails late under `elevator_init` takes away a reference of somebody else: a module that one
other queue uses can be unloaded. -/
theorem late_failure_undercounts {tr : List (Event Schedulers Act Out)} {o : Out}
    (h : (careful c).Run Registry.init tr s) (hl : s.legal c (.initFn q .late))
    (hs : s.step c (.initFn q .late) = some (o, s')) :
    ∃ e, o = ⟨some enomem, some e⟩ ∧
      (c.builtin e = false → s'.refcnt e = s'.claims e + (tr.map (leaked e)).sum) ∧
      (c.builtin e = false → s'.claims e = 1 → (tr.map (leaked e)).sum = 0 → s'.legal c (.stop e)) := by
  have hinv := Inv.of_run h
  obtain ⟨e, hpc⟩ := Pc.isInitializing_iff.mp hl
  have hnone : (s.queues q).elevator = none := by
    have hfits := hinv.fits q
    rwa [Queue.Fits, hpc] at hfits
  have hq : s.queues q = ⟨none, .holding e .init⟩ := by rw [← hnone, ← hpc]
  have hclaim : (s.queues q).claims e ≠ 0 := by simp [hq, Queue.claims]
  obtain ⟨hin, hg⟩ := hinv.live hclaim
  -- `elevator_release` gives the reference back, and `elevator_init` does so again
  obtain ⟨rfl, hs'⟩ : o = ⟨some enomem, some e⟩ ∧ s' = ((s.setQueue q ⟨none, .idle⟩).elevatorPut c e).elevatorPut c e := by
    simp only [Schedulers.step, hq] at hs
    cases hs
    exact ⟨rfl, rfl⟩
  have hqueue : s'.queues q = ⟨none, .idle⟩ := by rw [hs', elevatorPut_queues, elevatorPut_queues, setQueue_self]
  have hdrift (hb : c.builtin e = false) : Drifts c q
      (fun t => (((s.queues q).claims t : Int) - Queue.claims ⟨none, .idle⟩ t + if t = e then -1 else 0) +
        if t = e then -1 else 0) s s' := by
    have hpos : 1 < s.refcnt e := (hinv.pos e hclaim).resolve_left (by simp [hb])
    rw [hs']
    apply ((Drifts.setQueue _).trans (.put (.inr (Nat.lt_of_succ_lt hpos)))).trans (.put (.inr _))
    simpa [Schedulers.elevatorPut, Schedulers.setQueue, hb] using hpos
  have hcount (hb : c.builtin e = false) : s'.refcnt e = s'.claims e + (tr.map (leaked e)).sum := by
    have hbefore := hinv.counted e hin hb hg
    have hdiff := (hdrift hb).count e hb
    have htotal := (claims_of_others hinv (hdrift hb).others e).2
    simp only [hqueue, hq, Queue.claims, Pc.claims_holding, Pc.claims_idle, Option.map_none, reduceCtorEq, if_false,
      if_true] at hdiff htotal
    omega
  refine ⟨e, rfl, hcount, fun hb hone hleaks => ⟨?_, hb, ?_, ?_⟩⟩
  · exact (hdrift hb).list ▸ hin
  · exact (congrFun (hdrift hb).going e).trans hg
  · rw [hcount hb, hone, hleaks]

/-- `sfq` can be unloaded while queue 0 uses it. -/
theorem late_failure_undercounts_sfq :
    ∃ tr u v o, (careful kernel).Run init tr u ∧ u.step kernel (.initFn 1 .late) = some (o, v) ∧
      (v.queues 0).elevator = some ⟨1, false⟩ ∧ v.legal kernel (.stop 1) ∧
      ∃ e, o = ⟨some enomem, some e⟩ ∧
        (kernel.builtin e = false → v.refcnt e = v.claims e + (tr.map (leaked e)).sum) ∧
        (kernel.builtin e = false → v.claims e = 1 → (tr.map (leaked e)).sum = 0 → v.legal kernel (.stop e)) := by
  have hplays : (careful kernel).Plays init
      [.insmod 0, .insmod 1, .elevatorInit 0 (some ['s', 'f', 'q']), .initFn 0 .ok, .elevatorInit 1 (some ['s', 'f', 'q'])]
      (fun _ u => u.legal kernel (.initFn 1 .late) ∧ ∃ r ∈ u.step kernel (.initFn 1 .late),
        (r.2.queues 0).elevator = some ⟨1, false⟩ ∧ r.2.legal kernel (.stop 1)) := by decide
  obtain ⟨tr, u, hr, -, hl, ⟨o, v⟩, hs, hel, hstop⟩ := hplays.exists_run
  exact ⟨tr, u, v, o, hr, hs, hel, hstop, late_failure_undercounts hr hl hs⟩

end Counting

end SsdScheduler.Registry
