import Mathlib.Data.List.Infix
import SsdScheduler.Alpha.Sched9

/-!
# The requests of one process in `sfq-sched_9_complete.c`

The heap hands out equal start tags in any order. `sfq_set_request` reads the latest finish tag from
the last slot, which need not hold the greatest one, so a process can get a tag that one of its
pending requests already has; without such ties its requests leave in the order in which they came.
-/

namespace SsdScheduler.Alpha

open Framework Framework.Heap

variable {X : Type} {s s' : HeapArray X} {f f' : Nat → Addr}

/-- The next request of `pid` will get the tag of a pending one: some pending request of `pid` has the
virtual time as its start tag, and the finish tag in the last slot does not move the virtual time. -/
def Tied (s : HeapArray X) (pid : Pid) : Prop :=
  (∃ a ∈ load s.requests (s.size - 1), (s.pool a).finishTag ≤ s.virtualTime) ∧
    ∃ j < s.size, ∃ a ∈ load s.requests j, (s.pool a).pid = pid ∧ (s.pool a).startTag = s.virtualTime

instance (s : HeapArray X) (pid : Pid) : Decidable (Tied s pid) :=
  inferInstanceAs (Decidable ((∃ a ∈ load s.requests (s.size - 1), (s.pool a).finishTag ≤ s.virtualTime) ∧
    ∃ j < s.size, ∃ a ∈ load s.requests j, (s.pool a).pid = pid ∧ (s.pool a).startTag = s.virtualTime))

theorem latestVirtualTime_eq (h : HeapState s f) (hpos : 0 < s.size) (hroot : 0 ≤ (s.pool (f 0)).startTag) :
    latestVirtualTime s = some (max s.virtualTime (s.pool (f (s.size - 1))).finishTag) := by
  simp only [latestVirtualTime, if_pos hpos, h.load_lt hpos, h.load_lt (Nat.sub_lt hpos Nat.one_pos), if_pos hroot,
    Option.bind_eq_bind, Option.bind_some]
  split
  case isTrue hlt => rw [max_eq_right hlt.le]
  case isFalse hle => rw [max_eq_left (not_lt.mp hle)]

/-- Without a tie the virtual time moves past the start tags of the process's pending requests. -/
theorem lt_latestVirtualTime (h : HeapState s f) {pid : Pid} (htied : ¬ Tied s pid) {vt : Int}
    (hlatest : latestVirtualTime s = some vt)
    (htags : ∀ r ∈ contents f s.size s.pool, 0 ≤ r.startTag ∧ r.startTag ≤ s.virtualTime) :
    ∀ r ∈ contents f s.size s.pool, r.pid = pid → r.startTag < vt := by
  intro r hr hpid
  obtain ⟨p, hp, rfl⟩ := mem_contents.mp hr
  obtain ⟨j, hj, rfl⟩ := mem_pointers.mp hp
  have hpos : 0 < s.size := Nat.zero_lt_of_lt hj
  have hlast : s.size - 1 < s.size := Nat.sub_lt hpos Nat.one_pos
  have hroot : 0 ≤ (s.pool (f 0)).startTag := (htags _ (mem_contents.mpr ⟨f 0, mem_pointers.mpr ⟨0, hpos, rfl⟩, rfl⟩)).1
  obtain rfl := Option.some.inj ((latestVirtualTime_eq h hpos hroot).symm.trans hlatest)
  rcases lt_or_eq_of_le (htags _ hr).2 with hlt | heq
  · exact hlt.trans_le (le_max_left _ _)
  · rw [heq]
    apply lt_max_of_lt_right
    by_contra hle
    exact htied ⟨⟨f (s.size - 1), h.load_lt hlast, not_lt.mp hle⟩, j, hj, f j, h.load_lt hj, hpid, heq⟩

/-- The records of process `p`. -/
def line (c : Multiset (SfqRequest X)) (p : Pid) : Multiset (SfqRequest X) := c.filter fun r => r.pid = p

section Line

variable {c : Multiset (SfqRequest X)} {p : Pid} {r : SfqRequest X}

theorem mem_line : r ∈ line c p ↔ r ∈ c ∧ r.pid = p := Multiset.mem_filter

theorem line_cons_of_pos (h : r.pid = p) : line (r ::ₘ c) p = r ::ₘ line c p := by simp [line, h]

theorem line_cons_of_neg (h : r.pid ≠ p) : line (r ::ₘ c) p = line c p := by simp [line, h]

theorem line_append {l : List (SfqRequest X)} (h : r.pid = p) (hl : line c p = l) : line (r ::ₘ c) p = ↑(l ++ [r]) := by
  rw [line_cons_of_pos h, hl, Multiset.cons_coe]
  exact Multiset.coe_eq_coe.mpr (List.perm_append_singleton r l).symm

end Line

/-- Of distinct start tags in increasing order the least stands first. -/
theorem exists_tail_of_least {c : Multiset (SfqRequest X)} {r : SfqRequest X} {l : List (SfqRequest X)}
    (hl : r ::ₘ c = l) (hsorted : l.Pairwise fun r r' => r.startTag < r'.startTag)
    (hleast : ∀ r' ∈ c, r.startTag ≤ r'.startTag) : ∃ l' : List (SfqRequest X), l = r :: l' ∧ c = l' := by
  cases l with
  | nil => cases Multiset.cons_ne_zero hl
  | cons r' l =>
    have hin : r ∈ r' :: l := by
      rw [← Multiset.mem_coe, ← hl]
      exact Multiset.mem_cons_self r c
    have hfirst : r' ∈ r ::ₘ c := by
      rw [hl]
      exact Multiset.mem_coe.mpr (List.mem_cons_self ..)
    have hle : r.startTag ≤ r'.startTag := by
      rcases Multiset.mem_cons.mp hfirst with rfl | hr'
      · exact le_rfl
      · exact hleast r' hr'
    have hhead : r = r' := by
      rcases List.mem_cons.mp hin with he | hin
      · exact he
      · exact absurd (List.rel_of_pairwise_cons hsorted hin) (not_lt.mpr hle)
    subst hhead
    rw [← Multiset.cons_coe] at hl
    exact ⟨l, rfl, (Multiset.cons_inj_right r).mp hl⟩

/-- The pending records of each process, in the order in which its requests were added, have increasing
start tags, and they are what is left of the requests the process has added. -/
structure InOrder (w : World (HeapArray X)) (f : Nat → Addr) : Prop where
  tags : ∀ r ∈ contents f w.elv.size w.elv.pool, 0 ≤ r.startTag ∧ r.startTag ≤ w.elv.virtualTime
  owners : ∀ r ∈ contents f w.elv.size w.elv.pool, ∀ rq, r.rq = some rq → w.owner rq = r.pid
  lines : ∀ p, ∃ l : List (SfqRequest X), line (contents f w.elv.size w.elv.pool) p = l ∧
    l.Pairwise (fun r r' => r.startTag < r'.startTag) ∧ w.addedBy p = w.dispatchedBy p ++ l.filterMap SfqRequest.rq

namespace InOrder

variable {w : World (HeapArray X)} {rq : Rq} {pid : Pid}

theorem init (own : X) : InOrder ⟨.initial own, fun _ => .idle, fun _ => 0, [], []⟩ fun _ => 0 where
  tags r hr := by simp [contents, pointers, HeapArray.initial] at hr
  owners r hr := by simp [contents, pointers, HeapArray.initial] at hr
  lines p := ⟨[], by simp [line, contents, pointers, HeapArray.initial], .nil, rfl⟩

/-- A request is set and added. -/
theorem issue (ho : InOrder w f) (h : HeapInv w f) {wrap : Int → Int} {own : X} {env : SetEnv X} {vt : Int}
    (hi : w.phase rq = .idle) (hfree : w.elv.live env.sfqr = false) (hlatest : latestVirtualTime w.elv = some vt)
    (hle : w.elv.virtualTime ≤ vt) (htied : ¬ Tied w.elv pid)
    (hadd : Inserted (prepared wrap own w.elv rq pid env vt) s' f f' rq env.sfqr) :
    InOrder ((w.onSet (prepared wrap own w.elv rq pid env vt) rq pid).onAdd s' rq) f' := by
  have hout : env.sfqr ∉ pointers f w.elv.size := h.fresh hfree
  obtain ⟨r, hr, htag, hpid, hrq⟩ : ∃ r : SfqRequest X,
      { (prepared wrap own w.elv rq pid env vt).pool env.sfqr with rq := some rq } = r ∧ r.startTag = vt ∧
        r.pid = pid ∧ r.rq = some rq := ⟨_, rfl, by simp [prepared]⟩
  have hcontents : contents f' s'.size s'.pool = r ::ₘ contents f w.elv.size w.elv.pool := by
    rw [contents_inserted hadd hout, hr]
    exact congrArg _ (contents_prepared hout)
  have htime : s'.virtualTime = vt := hadd.virtualTime
  have hlater := lt_latestVirtualTime h.state htied hlatest ho.tags
  constructor
  case tags =>
    change ∀ r ∈ contents f' s'.size s'.pool, 0 ≤ r.startTag ∧ r.startTag ≤ s'.virtualTime
    rw [hcontents, htime]
    intro r' hr'
    rcases Multiset.mem_cons.mp hr' with rfl | hr'
    · exact ⟨htag ▸ h.time.trans hle, htag.le⟩
    · exact ⟨(ho.tags r' hr').1, (ho.tags r' hr').2.trans hle⟩
  case owners =>
    change ∀ r ∈ contents f' s'.size s'.pool, ∀ q, r.rq = some q → Function.update w.owner rq pid q = r.pid
    rw [hcontents]
    intro r' hr' q hq
    rcases Multiset.mem_cons.mp hr' with rfl | hr'
    · obtain rfl : rq = q := Option.some.inj (hrq.symm.trans hq)
      rw [Function.update_self, hpid]
    · have hne : q ≠ rq := by
        rintro rfl
        have hqueued : some q ∈ queued w.elv f := hq ▸ Multiset.mem_map_of_mem _ hr'
        simp [(h.phases q).mpr hqueued] at hi
      rw [Function.update_of_ne hne]
      exact ho.owners r' hr' q hq
  case lines =>
    intro p
    obtain ⟨l, hl, hsorted, hadded⟩ := ho.lines p
    have howner : (w.onSet (prepared wrap own w.elv rq pid env vt) rq pid).owner rq = pid := Function.update_self ..
    change ∃ l : List (SfqRequest X), line (contents f' s'.size s'.pool) p = l ∧ _ ∧ _
    rw [World.addedBy_onAdd, howner, hcontents]
    by_cases hp : pid = p
    · have hrp : r.pid = p := hpid.trans hp
      refine ⟨l ++ [r], ?_, ?_, ?_⟩
      · exact line_append hrp hl
      · rw [List.pairwise_append]
        refine ⟨hsorted, List.pairwise_singleton _ _, ?_⟩
        intro r' hr' r'' hr''
        obtain rfl := List.mem_singleton.mp hr''
        have hline : r' ∈ line (contents f w.elv.size w.elv.pool) p := hl ▸ hr'
        obtain ⟨hmem, hr'p⟩ := mem_line.mp hline
        rw [htag]
        exact hlater r' hmem (hr'p.trans hp.symm)
      · rw [if_pos hp, List.filterMap_append, ← List.append_assoc]
        congr 1
        simp [hrq]
    · have hrp : ¬ r.pid = p := fun he => hp (hpid.symm.trans he)
      refine ⟨l, ?_, hsorted, ?_⟩
      · rw [line_cons_of_neg hrp, hl]
      · rw [if_neg hp, List.append_nil]
        exact hadded

/-- The root is removed: it is the first in line of its process. -/
theorem remove (ho : InOrder w f) (h : HeapInv w f) (hpos : 0 < w.elv.size) (hr : Removed w.elv s' f f')
    (hrq : (w.elv.pool (f 0)).rq = some rq) : InOrder (w.onDispatch s' (some rq)) f' := by
  have hroot : w.elv.pool (f 0) ∈ contents f w.elv.size w.elv.pool :=
    mem_contents.mpr ⟨f 0, HeapInv.root_mem hpos, rfl⟩
  have hmem {r : SfqRequest X} (hr' : r ∈ contents f' s'.size s'.pool) : r ∈ contents f w.elv.size w.elv.pool := by
    rw [hr.contents]
    exact Multiset.mem_cons_of_mem hr'
  have hleast : ∀ r ∈ contents f w.elv.size w.elv.pool, (w.elv.pool (f 0)).startTag ≤ r.startTag := by
    intro r hr
    obtain ⟨q, hq, rfl⟩ := mem_contents.mp hr
    obtain ⟨j, hj, rfl⟩ := mem_pointers.mp hq
    exact h.state.heap.root_le hj
  have howner : w.owner rq = (w.elv.pool (f 0)).pid := ho.owners _ hroot rq hrq
  constructor
  case tags =>
    intro r hr'
    obtain ⟨hnonneg, hle⟩ := ho.tags r (hmem hr')
    exact ⟨hnonneg, hle.trans_eq hr.virtualTime.symm⟩
  case owners => exact fun r hr' => ho.owners r (hmem hr')
  case lines =>
    intro p
    obtain ⟨l, hl, hsorted, hadded⟩ := ho.lines p
    rw [hr.contents] at hl
    change ∃ l : List (SfqRequest X), line (contents f' s'.size s'.pool) p = l ∧ _ ∧ w.addedBy p = _ ++ _
    rw [World.dispatchedBy_onDispatch, howner]
    by_cases hp : (w.elv.pool (f 0)).pid = p
    · rw [line_cons_of_pos hp] at hl
      obtain ⟨l, rfl, hrest⟩ := exists_tail_of_least hl hsorted fun r hr => hleast r (hmem (mem_line.mp hr).1)
      refine ⟨l, hrest, hsorted.of_cons, ?_⟩
      rw [if_pos hp, hadded, List.filterMap_cons_some hrq, List.append_assoc]
      rfl
    · rw [line_cons_of_neg hp] at hl
      refine ⟨l, hl, hsorted, ?_⟩
      rw [if_neg hp, List.append_nil]
      exact hadded

end InOrder
end SsdScheduler.Alpha

namespace SsdScheduler.Sched9

open Framework Framework.Heap Alpha

/-- The block layer adds every request as soon as it is set. -/
def paired (wrap : Int → Int) : Machine (World SfqData) (Call (SetEnv Int) Bool Unit) Out where
  legal w
    | .addRequest _ => False
    | c => (elevator wrap).machine.legal w c
  step w
    | .setRequest rq pid env => do
      let (_, w) ← (elevator wrap).machine.step w (.setRequest rq pid env)
      (elevator wrap).machine.step w (.addRequest rq)
    | c => (elevator wrap).machine.step w c

instance (wrap : Int → Int) (w : World SfqData) : (c : Call (SetEnv Int) Bool Unit) → Decidable ((paired wrap).legal w c)
  | .setRequest rq pid env => inferInstanceAs (Decidable ((elevator wrap).machine.legal w (.setRequest rq pid env)))
  | .addRequest _ => inferInstanceAs (Decidable False)
  | .dispatch _ => inferInstanceAs (Decidable True)
  | .completed rq => inferInstanceAs (Decidable ((elevator wrap).machine.legal w (.completed rq)))
  | .putRequest rq env => inferInstanceAs (Decidable ((elevator wrap).machine.legal w (.putRequest rq env)))

/-- A request is set only while its process is not tied. -/
def Untied (w : World SfqData) : Call (SetEnv Int) Bool Unit → Prop
  | .setRequest _ pid _ => ¬ Tied w.elv.toHeapArray pid
  | _ => True

instance (w : World SfqData) : (c : Call (SetEnv Int) Bool Unit) → Decidable (Untied w c)
  | .setRequest _ pid _ => inferInstanceAs (Decidable (¬ Tied w.elv.toHeapArray pid))
  | .addRequest _ => inferInstanceAs (Decidable True)
  | .dispatch _ => inferInstanceAs (Decidable True)
  | .completed _ => inferInstanceAs (Decidable True)
  | .putRequest _ _ => inferInstanceAs (Decidable True)

def pairedUntied (wrap : Int → Int) : Machine (World SfqData) (Call (SetEnv Int) Bool Unit) Out :=
  (paired wrap).restrict Untied

instance (wrap : Int → Int) (w : World SfqData) (c : Call (SetEnv Int) Bool Unit) :
    Decidable ((pairedUntied wrap).legal w c) :=
  inferInstanceAs (Decidable ((paired wrap).legal w c ∧ Untied w c))

variable {wrap : Int → Int} {w w' : World SfqData} {o : Out} {c : Call (SetEnv Int) Bool Unit} {f : Nat → Addr}

/-- A request is set and added at once. -/
theorem issue_inOrder {rq : Rq} {pid : Pid} {env : SetEnv Int} (h : HeapInv (arrayWorld w) f) (ho : InOrder (arrayWorld w) f)
    (hl : (pairedUntied wrap).legal w (.setRequest rq pid env))
    (hs : (pairedUntied wrap).step w (.setRequest rq pid env) = some (o, w')) :
    ∃ f', HeapInv (arrayWorld w') f' ∧ InOrder (arrayWorld w') f' := by
  obtain ⟨hlegal, htied⟩ := hl
  obtain ⟨⟨o₁, w₁⟩, hs₁, hs₂⟩ := Option.bind_eq_some_iff.mp hs
  have ht₁ : Step wrap w f (.setRequest rq pid env) o₁ w₁ := step_cases h hlegal hs₁
  cases ht₁ with
  | @set _ _ _ vt hi hfree hlatest hle =>
    have hinv : HeapInv (arrayWorld (w.onSet
        { w.elv with toHeapArray := prepared wrap 1 w.elv.toHeapArray rq pid env vt } rq pid)) f := h.set hi hfree hle
    have hpriv : (prepared wrap 1 w.elv.toHeapArray rq pid env vt).priv0 rq = some env.sfqr := Function.update_self ..
    have hset : (w.onSet { w.elv with toHeapArray := prepared wrap 1 w.elv.toHeapArray rq pid env vt } rq pid).phase rq =
        .set := Function.update_self ..
    have ht₂ : Step wrap _ f (.addRequest rq) o w' := step_cases hinv hset hs₂
    cases ht₂ with
    | @add _ a s f' _ ha hadd =>
      obtain rfl : env.sfqr = a := Option.some.inj (hpriv.symm.trans ha.priv0)
      exact ⟨f', hinv.add hset ha hadd, ho.issue h hi hfree hlatest hle htied hadd⟩

theorem inOrder_step (h : HeapInv (arrayWorld w) f) (ho : InOrder (arrayWorld w) f) (hl : (pairedUntied wrap).legal w c)
    (hs : (pairedUntied wrap).step w c = some (o, w')) :
    ∃ f', HeapInv (arrayWorld w') f' ∧ InOrder (arrayWorld w') f' := by
  cases c with
  | setRequest rq pid env => exact issue_inOrder h ho hl hs
  | addRequest rq => exact hl.1.elim
  | dispatch force =>
    have ht : Step wrap w f (.dispatch force) o w' := step_cases h hl.1 hs
    cases ht with
    | empty => exact ⟨f, h, ho⟩
    | remove hpos hrq hr => exact ⟨_, h.remove hr hrq, ho.remove h hpos hr hrq⟩
  | completed rq =>
    have ht : Step wrap w f (.completed rq) o w' := step_cases h hl.1 hs
    cases ht with
    | complete hp => exact ⟨f, inv_completed h hp, ho.tags, ho.owners, ho.lines⟩
  | putRequest rq env =>
    have ht : Step wrap w f (.putRequest rq env) o w' := step_cases h hl.1 hs
    cases ht with
    | put hp => exact ⟨f, inv_put h hp, ho.tags, ho.owners, ho.lines⟩

/-- In runs that tie no process, each process's requests are dispatched in the order in which they
were added, none left out. -/
theorem arrival_order (h : (pairedUntied wrap).Reachable (elevator wrap).init w) (p : Pid) :
    w.dispatchedBy p <+: w.addedBy p := by
  obtain ⟨f, -, ho⟩ : ∃ f, HeapInv (arrayWorld w) f ∧ InOrder (arrayWorld w) f := by
    apply Machine.Reachable.invariant h
    · rintro w c o w' ⟨f, hinv, ho⟩ hl hs
      exact inOrder_step hinv ho hl hs
    · exact ⟨_, HeapInv.init 0, .init 0⟩
  obtain ⟨l, -, -, hadded⟩ := ho.lines p
  exact ⟨_, hadded.symm⟩

/-- A set-and-add of a request of process 7. -/
private def issued (rq : Rq) : Call (SetEnv Int) Bool Unit := .setRequest rq 7 ⟨rq, ⟨0, 0, 0, none, 0⟩⟩

theorem arrival_order_three :
    ∃ w, (pairedUntied id).Reachable (elevator id).init w ∧ w.dispatchedBy 7 = [1, 2] ∧ w.addedBy 7 = [1, 2, 3] ∧
      w.dispatchedBy 7 <+: w.addedBy 7 := by
  have hplay : (pairedUntied id).Plays (elevator id).init
      [issued 1, issued 2, issued 3, .dispatch false, .dispatch false] fun _ w =>
        w.dispatchedBy 7 = [1, 2] ∧ w.addedBy 7 = [1, 2, 3] := by decide
  obtain ⟨tr, w, hr, -, hd, ha⟩ := hplay.exists_run
  exact ⟨w, ⟨tr, hr⟩, hd, ha, arrival_order ⟨tr, hr⟩ 7⟩

/-- After four requests and a dispatch the last slot holds the third, whose finish tag is the virtual
time: the fifth request gets the start tag of the fourth, and leaves before it. -/
theorem arrival_order_broken :
    ∃ w, (paired id).Reachable (elevator id).init w ∧ w.addedBy 7 = [1, 2, 3, 4, 5] ∧
      w.dispatchedBy 7 = [1, 2, 3, 5, 4] := by
  have hplay : (paired id).Plays (elevator id).init
      [issued 1, issued 2, issued 3, issued 4, .dispatch false, issued 5, .dispatch false, .dispatch false,
        .dispatch false, .dispatch false] fun _ w =>
        w.addedBy 7 = [1, 2, 3, 4, 5] ∧ w.dispatchedBy 7 = [1, 2, 3, 5, 4] := by decide
  obtain ⟨tr, w, hr, -, hw⟩ := hplay.exists_run
  exact ⟨w, ⟨tr, hr⟩, hw⟩

end SsdScheduler.Sched9
