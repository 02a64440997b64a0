import SsdScheduler.LinkedHeap.Passes

/-!
# The order that the linked heap keeps

Inserting keeps the heap order. Taking out does not: `heapify_downward` skips a left child of value `0` and
stops at a right one. What is kept is an order with excuses, under which the root is still a least value.
-/

namespace SsdScheduler.LinkedHeap

open Framework.Heap

variable {d d' : Nat → Int} {n i j : Nat} {r r' : Prop}

/-- A positive left child may be smaller than its parent where its sibling is `0`, or has been taken out by a
value for which `r` holds. -/
structure Excused (d : Nat → Int) (n j : Nat) (r : Prop) : Prop where
  pos : 0 < d j
  left : j % 2 = 1
  sibling : j + 1 ≤ n → d (j + 1) = 0
  last : j = n → r

/-- The order between the value of `j` and that of `k` above it. -/
def Above (d : Nat → Int) (n k j : Nat) (r : Prop) : Prop := d j = 0 ∨ d k ≤ d j ∨ Excused d n j r

/-- The order of the tree between two operations. -/
structure LooseHeap (d : Nat → Int) (n : Nat) : Prop where
  edges : ∀ j, 0 < j → j ≤ n → Above d n (parent j) j (d 0 ≤ 0)
  zero : ∀ j, 0 < j → j ≤ n → d j = 0 → d 0 ≤ 0

/-- The order of the tree at a call of `heapify_downward` for `i`. -/
structure Sifting (d : Nat → Int) (n i : Nat) : Prop where
  root_le : d 0 ≤ d i
  edges : ∀ j, 0 < j → j ≤ n → parent j ≠ i → Above d n (parent j) j (d i ≤ 0)
  sibling : ∀ j, j + 1 = i → Excused d n j (d i ≤ 0) → d (parent j) ≤ d j
  around : ∀ j, 0 < j → j ≤ n → parent j = i → 0 < i → Above d n (parent i) j (d i ≤ 0)

section Order

theorem LooseHeap.of_ordered (h : Ordered d (n + 1)) : LooseHeap d n where
  edges j hj hjn := .inr (.inl (h j hj (Nat.lt_succ_of_le hjn)))
  zero _ _ hjn hz := hz ▸ h.root_le (Nat.lt_succ_of_le hjn)

/-- The root is a least value. -/
theorem LooseHeap.root_le (h : LooseHeap d n) (hj : j ≤ n) : d 0 ≤ d j := by
  induction j using Nat.strong_induction_on with
  | _ j ih =>
    rcases Nat.eq_zero_or_pos j with rfl | hpos
    · exact le_rfl
    · rcases h.edges j hpos hj with hz | hle | hex
      · rw [hz]
        exact h.zero j hpos hj hz
      · have hlt := parent_lt hpos
        exact (ih _ hlt (by omega)).trans hle
      · refine le_trans ?_ hex.pos.le
        rcases Nat.lt_or_eq_of_le hj with hlt | rfl
        · exact h.zero (j + 1) (Nat.succ_pos j) hlt (hex.sibling hlt)
        · exact hex.last rfl

/-- Without its clause on zeros the order still puts a negative value at the root if there is one. -/
theorem root_neg (h : ∀ j, 0 < j → j ≤ n → Above d n (parent j) j r) (hj : j ≤ n) (hneg : d j < 0) : d 0 < 0 := by
  induction j using Nat.strong_induction_on with
  | _ j ih =>
    rcases Nat.eq_zero_or_pos j with rfl | hpos
    · exact hneg
    · rcases h j hpos hj with hz | hle | hex
      · omega
      · have hlt := parent_lt hpos
        exact ih _ hlt (by omega) (hle.trans_lt hneg)
      · exact absurd hex.pos (not_lt.mpr hneg.le)

end Order

section Sinking

/-- The child `heapify_downward` exchanges `i` with is no greater than the other one, unless that is `0`. -/
theorem sinkTo_le_sibling (hs : sinkTo d n i ≠ i) (hj : 0 < j) (hjn : j ≤ n) (hp : parent j = i)
    (hne : j ≠ sinkTo d n i) : d j = 0 ∨ d (sinkTo d n i) ≤ d j := by
  unfold sinkTo at hs hne ⊢
  by_cases hl : 2 * i + 1 ≤ n ∧ d (2 * i + 1) ≠ 0 ∧ d (2 * i + 1) ≤ d i
  · by_cases hr : 2 * i + 2 ≤ n ∧ d (2 * i + 2) ≤ d (2 * i + 1)
    · simp only [if_pos hl, if_pos hr] at hne ⊢
      rcases (parent_eq_iff hj).mp hp with rfl | rfl
      · exact .inr hr.2
      · exact absurd rfl hne
    · simp only [if_pos hl, if_neg hr] at hne ⊢
      rcases (parent_eq_iff hj).mp hp with rfl | rfl
      · exact absurd rfl hne
      · exact .inr (not_le.mp fun hle => hr ⟨hjn, hle⟩).le
  · by_cases hr : 2 * i + 2 ≤ n ∧ d (2 * i + 2) ≤ d i
    · simp only [if_neg hl, if_pos hr] at hne ⊢
      rcases (parent_eq_iff hj).mp hp with rfl | rfl
      · by_cases hz : d (2 * i + 1) = 0
        · exact .inl hz
        · exact .inr (hr.2.trans (not_le.mp fun hle => hl ⟨hjn, hz, hle⟩).le)
      · exact absurd rfl hne
    · simp only [if_neg hl, if_neg hr] at hs
      exact absurd rfl hs

/-- The left child is taken only if the right one is greater. -/
theorem sinkTo_lt_right (hs : sinkTo d n i = 2 * i + 1) (hn : 2 * i + 2 ≤ n) : d (2 * i + 1) < d (2 * i + 2) := by
  unfold sinkTo at hs
  by_cases hl : 2 * i + 1 ≤ n ∧ d (2 * i + 1) ≠ 0 ∧ d (2 * i + 1) ≤ d i
  · by_cases hr : 2 * i + 2 ≤ n ∧ d (2 * i + 2) ≤ d (2 * i + 1)
    · simp only [if_pos hl, if_pos hr] at hs
      omega
    · exact not_le.mp fun hle => hr ⟨hn, hle⟩
  · simp only [if_neg hl] at hs
    split at hs <;> omega

/-- Where `heapify_downward` stops the children are in order, or excused. -/
theorem above_of_stop (hs : d (sinkTo d n i) = 0 ∨ d (sinkTo d n i) = d i) (hj : 0 < j) (hjn : j ≤ n)
    (hp : parent j = i) : Above d n i j r := by
  unfold sinkTo at hs
  by_cases hl : 2 * i + 1 ≤ n ∧ d (2 * i + 1) ≠ 0 ∧ d (2 * i + 1) ≤ d i
  · by_cases hr : 2 * i + 2 ≤ n ∧ d (2 * i + 2) ≤ d (2 * i + 1)
    · simp only [if_pos hl, if_pos hr] at hs
      rcases (parent_eq_iff hj).mp hp with rfl | rfl
      · rcases hs with hz | heq
        · have hpos : 0 < d (2 * i + 1) := lt_of_le_of_ne (hz ▸ hr.2) hl.2.1.symm
          exact .inr (.inr ⟨hpos, by omega, fun _ => hz, fun hlast => by omega⟩)
        · exact .inr (.inl (heq ▸ hr.2))
      · rcases hs with hz | heq
        · exact .inl hz
        · exact .inr (.inl heq.ge)
    · simp only [if_pos hl, if_neg hr] at hs
      have heq : d (2 * i + 1) = d i := hs.resolve_left hl.2.1
      rcases (parent_eq_iff hj).mp hp with rfl | rfl
      · exact .inr (.inl heq.ge)
      · exact .inr (.inl (heq ▸ (not_le.mp fun hle => hr ⟨hjn, hle⟩).le))
  · have hleft : 2 * i + 1 ≤ n → d (2 * i + 1) = 0 ∨ d i ≤ d (2 * i + 1) := fun hn => by
      by_contra hno
      exact hl ⟨hn, by omega, by omega⟩
    by_cases hr : 2 * i + 2 ≤ n ∧ d (2 * i + 2) ≤ d i
    · simp only [if_neg hl, if_pos hr] at hs
      rcases (parent_eq_iff hj).mp hp with rfl | rfl
      · exact (hleft hjn).imp_right .inl
      · exact hs.imp_right fun heq => .inl heq.ge
    · rcases (parent_eq_iff hj).mp hp with rfl | rfl
      · exact (hleft hjn).imp_right .inl
      · exact .inr (.inl (not_le.mp fun hle => hr ⟨hjn, hle⟩).le)

theorem Excused.congr (h : Excused d n j r) (hj : d' j = d j) (hnext : d' (j + 1) = d (j + 1)) (hr : r → r') :
    Excused d' n j r' where
  pos := hj ▸ h.pos
  left := h.left
  sibling hn := hnext.trans (h.sibling hn)
  last hn := hr (h.last hn)

theorem Above.congr {k : Nat} (h : Above d n k j r) (hk : d' k = d k) (hj : d' j = d j) (hnext : d' (j + 1) = d (j + 1))
    (hr : r → r') : Above d' n k j r' := by
  rcases h with hz | hle | hex
  · exact .inl (hj.trans hz)
  · exact .inr (.inl (by rw [hk, hj]; exact hle))
  · exact .inr (.inr (hex.congr hj hnext hr))

/-- An excused child is not taken: its sibling would be, or it is greater than a value that is not positive. -/
theorem not_excused_sinkTo (hlt : d (sinkTo d n i) < d i) : ¬ Excused d n (sinkTo d n i) (d i ≤ 0) := by
  intro hex
  have hs : sinkTo d n i ≠ i := fun heq => hlt.ne (congrArg d heq)
  obtain ⟨-, hsn, hps, -⟩ := (sinkTo_cases d n i).resolve_left hs
  have hpos := hex.pos
  rcases Nat.lt_or_eq_of_le hsn with hsn' | hlast
  · have hodd := hex.left
    have hzero := hex.sibling hsn'
    have hleft : sinkTo d n i = 2 * i + 1 := by
      rcases (parent_eq_iff (by omega)).mp hps with h1 | h2 <;> omega
    have hright := sinkTo_lt_right hleft (by omega)
    rw [hleft] at hzero hpos
    exact absurd hright (not_lt.mpr (hzero ▸ hpos.le))
  · have hnonpos := hex.last hlast
    omega

section Exchange

variable {s : Nat}

theorem swap_apply_of_ne (hjs : j ≠ s) (hji : j ≠ i) : (d ∘ Equiv.swap s i) j = d j :=
  congrArg d (Equiv.swap_apply_of_ne_of_ne hjs hji)

theorem swap_apply_child : (d ∘ Equiv.swap s i) s = d i := congrArg d (Equiv.swap_apply_left s i)

theorem swap_apply_parent : (d ∘ Equiv.swap s i) i = d s := congrArg d (Equiv.swap_apply_right s i)

/-- The exchange of `i` with its child `s` leaves the edges away from the two as they were. -/
theorem Sifting.edges_swap (h : Sifting d n i) (hps : parent s = i) (hj : 0 < j) (hjn : j ≤ n) (hji : j ≠ i)
    (hjs : j ≠ s) (hpi : parent j ≠ i) (hpj : parent j ≠ s) :
    Above (d ∘ Equiv.swap s i) n (parent j) j (d i ≤ 0) := by
  have hat := swap_apply_of_ne (d := d) hjs hji
  have hpar := swap_apply_of_ne (d := d) hpj hpi
  rcases h.edges j hj hjn hpi with hz | hedge | hex
  · exact .inl (hat.trans hz)
  · right; left
    rw [hpar, hat]
    exact hedge
  · rcases eq_or_ne (j + 1) i with hnext | hnext
    · right; left
      rw [hpar, hat]
      exact h.sibling j hnext hex
    · have hnext' : j + 1 ≠ s := by
        intro heq
        have hodd := hex.left
        unfold parent at hps hpi
        omega
      exact .inr (.inr (hex.congr hat (swap_apply_of_ne hnext' hnext) id))

end Exchange

theorem Sifting.swap (h : Sifting d n i) (h0 : d (sinkTo d n i) ≠ 0) (hne : d (sinkTo d n i) ≠ d i) :
    Sifting (d ∘ Equiv.swap (sinkTo d n i) i) n (sinkTo d n i) := by
  have hs : sinkTo d n i ≠ i := fun heq => hne (congrArg d heq)
  obtain ⟨hlt, hsn, hps, hle⟩ := (sinkTo_cases d n i).resolve_left hs
  have hsibling := fun j => sinkTo_le_sibling (j := j) hs
  have hexcused := not_excused_sinkTo (lt_of_le_of_ne hle hne)
  generalize sinkTo d n i = s at *
  have hlt' : d s < d i := lt_of_le_of_ne hle hne
  constructor
  · rw [swap_apply_child]
    rcases Nat.eq_zero_or_pos i with rfl | hpos
    · rw [swap_apply_parent]
      exact hle
    · rw [swap_apply_of_ne (by omega) hpos.ne]
      exact h.root_le
  · intro j hj hjn hjs
    have hpj := parent_lt hj
    rw [swap_apply_child]
    by_cases hne_s : j = s
    · -- the edge between the two
      subst hne_s
      right; left
      rw [hps, swap_apply_parent, swap_apply_child]
      exact hle
    · by_cases hpi : parent j = i
      · -- the edge to the other child
        have hat := swap_apply_of_ne (d := d) (i := i) hne_s (by omega)
        rcases hsibling j hj hjn hpi hne_s with hz | hsj
        · exact .inl (hat.trans hz)
        · right; left
          rw [hpi, swap_apply_parent, hat]
          exact hsj
      · by_cases hne_i : j = i
        · -- the edge above the two
          subst hne_i
          right; left
          rw [swap_apply_of_ne hjs hpi, swap_apply_parent]
          rcases h.around s (by omega) hsn hps hj with hz | hedge | hex
          · exact absurd hz h0
          · exact hedge
          · exact absurd hex hexcused
        · exact h.edges_swap hps hj hjn hne_i hne_s hpi hjs
  · intro j hnext hex
    have hodd := hex.left
    have hpi : parent j = i := by
      unfold parent at hps ⊢
      omega
    have hne_i : j ≠ i := by
      have hpj := parent_lt (i := j) (by omega)
      omega
    have hat := swap_apply_of_ne (d := d) (s := s) (by omega) hne_i
    have hpos := hex.pos
    rw [hat] at hpos
    rw [hpi, swap_apply_parent, hat]
    exact (hsibling j (by omega) (by omega) hpi (by omega)).resolve_left hpos.ne'
  · intro j hj hjn hpj _
    have hlt_j := parent_lt hj
    have hedge := h.edges j hj hjn (by omega)
    have hat := swap_apply_of_ne (d := d) (s := s) (i := i) (j := j) (by omega) (by omega)
    have hnext := swap_apply_of_ne (d := d) (s := s) (i := i) (j := j + 1) (by omega) (by omega)
    rw [hpj] at hedge
    rw [hps, swap_apply_child]
    rcases hedge with hz | hsj | hex
    · exact .inl (hat.trans hz)
    · right; left
      rw [swap_apply_parent, hat]
      exact hsj
    · exact .inr (.inr (hex.congr hat hnext id))

theorem Sifting.stop (h : Sifting d n i) (hs : d (sinkTo d n i) = 0 ∨ d (sinkTo d n i) = d i) (hj : 0 < j)
    (hjn : j ≤ n) : Above d n (parent j) j (d 0 ≤ 0) := by
  by_cases hp : parent j = i
  · rw [hp]
    exact above_of_stop hs hj hjn hp
  · exact (h.edges j hj hjn hp).congr rfl rfl rfl h.root_le.trans

theorem Sinks.above (h : Sinks n d i d') (hd : Sifting d n i) :
    (∀ j, 0 < j → j ≤ n → Above d' n (parent j) j (d' 0 ≤ 0)) ∧ d' 0 ≤ d i := by
  induction h with
  | stop hs => exact ⟨fun j hj hjn => hd.stop hs hj hjn, hd.root_le⟩
  | @swap d d' i h0 hne _ ih =>
    obtain ⟨habove, hroot⟩ := ih (hd.swap h0 hne)
    exact ⟨habove, by simpa using hroot⟩

end Sinking

section TakingOut

/-- Under an excused order without negative values below the root, a zero there is left behind by a positive last
value. -/
structure Blocked (d : Nat → Int) (n : Nat) : Prop where
  zero : ∃ j, 0 < j ∧ j ≤ n ∧ d j = 0
  nonneg : ∀ j, 0 < j → j ≤ n → 0 ≤ d j
  last : 0 < d n

/-- The root's value taken out and the last one put in its place. -/
abbrev taken (d : Nat → Int) (n : Nat) : Nat → Int := Function.update d 0 (d (n + 1))

theorem LooseHeap.sifting (h : LooseHeap d (n + 1)) : Sifting (taken d n) n 0 where
  root_le := le_rfl
  edges j hj hjn hp := by
    have hat {k : Nat} (hk : k ≠ 0) : taken d n k = d k := Function.update_of_ne hk _ _
    rcases h.edges j hj (by omega) with hz | hle | hex
    · exact .inl ((hat hj.ne').trans hz)
    · right; left
      rw [hat hp, hat hj.ne']
      exact hle
    · refine .inr (.inr ⟨(hat hj.ne').symm ▸ hex.pos, hex.left, fun hn => ?_, fun hn => ?_⟩)
      · rw [hat (Nat.succ_ne_zero j)]
        exact hex.sibling (by omega)
      · subst hn
        exact (hex.sibling le_rfl).le
  sibling j hj := absurd hj (Nat.succ_ne_zero j)
  around j _ _ _ h0 := absurd h0 (Nat.lt_irrefl 0)

theorem taken_of_pos (hj : 0 < j) : taken d n j = d j := Function.update_of_ne hj.ne' _ _

theorem taken_zero : taken d n 0 = d (n + 1) := Function.update_self ..

/-- A value of the tree below the root is still there afterwards, unless it was the last one. -/
theorem Sinks.value_kept (hs : Sinks n (taken d n) 0 d') (hj : 0 < j) (hjn : j ≤ n) : ∃ k ≤ n, d' k = d j := by
  have hmem : taken d n j ∈ values d' n := by
    rw [hs.values_eq (Nat.zero_le n)]
    exact mem_values.mpr ⟨j, hjn, rfl⟩
  rw [taken_of_pos hj] at hmem
  exact mem_values.mp hmem

theorem LooseHeap.takeOut (h : LooseHeap d (n + 1)) (hb : ¬ Blocked d (n + 1)) (hs : Sinks n (taken d n) 0 d') :
    LooseHeap d' n := by
  obtain ⟨habove, hroot⟩ := hs.above h.sifting
  rw [taken_zero] at hroot
  refine ⟨habove, fun j hj hjn hz => ?_⟩
  by_cases hlast : 0 < d (n + 1)
  · obtain ⟨k, hk, hzero⟩ : ∃ k ≤ n, taken d n k = 0 := by
      rw [← mem_values, ← hs.values_eq (Nat.zero_le n)]
      exact mem_values.mpr ⟨j, hjn, hz⟩
    have hkpos : 0 < k := by
      by_contra h0
      obtain rfl : k = 0 := by omega
      rw [taken_zero] at hzero
      omega
    rw [taken_of_pos hkpos] at hzero
    obtain ⟨m, hm, hmn, hneg⟩ : ∃ m, 0 < m ∧ m ≤ n + 1 ∧ d m < 0 := by
      by_contra hno
      refine hb ⟨⟨k, hkpos, by omega, hzero⟩, fun m hm hmn => ?_, hlast⟩
      exact not_lt.mp fun hneg => hno ⟨m, hm, hmn, hneg⟩
    have hmn' : m ≠ n + 1 := by
      rintro rfl
      omega
    obtain ⟨m', hm', heq⟩ := hs.value_kept hm (by omega)
    exact (root_neg habove hm' (by omega)).le
  · omega

/-- With a zero left behind the new root is positive. -/
theorem Blocked.takeOut (hb : Blocked d (n + 1)) (hs : Sinks n (taken d n) 0 d') : 0 < d' 0 ∧ ∃ k ≤ n, d' k = 0 := by
  obtain ⟨j, hj, hjn, hz⟩ := hb.zero
  have hlast := hb.last
  have hjn' : j ≠ n + 1 := by
    rintro rfl
    omega
  obtain ⟨k, hk, hzero⟩ := hs.value_kept hj (by omega)
  refine ⟨?_, k, hk, hzero.trans hz⟩
  cases hs with
  | stop =>
    rw [taken_zero]
    exact hlast
  | swap h0 hne rest =>
    obtain ⟨hpos, hsn, -, -⟩ := (sinkTo_cases (taken d n) n 0).resolve_left fun heq => hne (congrArg _ heq)
    have hnonneg := hb.nonneg _ hpos (by omega)
    rw [rest.apply_of_lt hpos, Function.comp_apply, Equiv.swap_apply_right]
    rw [taken_of_pos hpos] at h0 ⊢
    omega

end TakingOut

section Climbing

theorem climbFrom_eq_self (h : climbFrom d n i = i) (hj : 0 < j) (hjn : j ≤ n) (hp : parent j = i) : d i ≤ d j := by
  unfold climbFrom at h
  by_contra hlt
  rw [not_le] at hlt
  rcases (parent_eq_iff hj).mp hp with rfl | rfl
  · by_cases hr : 2 * i + 2 ≤ n ∧ d (2 * i + 2) < d i
    · rw [if_pos hr] at h
      omega
    · rw [if_neg hr, if_pos ⟨hjn, hlt⟩] at h
      omega
  · rw [if_pos ⟨hjn, hlt⟩] at h
    omega

theorem Climbs.ordered (h : Climbs n d i d') (hi : i ≤ n) (hd : UpReady d (n + 1) i) : Ordered d' (n + 1) := by
  induction h with
  | @stop d i hs =>
    refine hd.stop ?_
    rcases Nat.eq_zero_or_pos i with h0 | hpos
    · exact .inl h0
    · exact .inr (climbFrom_eq_self hs hpos hi rfl)
  | @swap d d' i hs _ ih =>
    obtain ⟨hlt, hsn, hps, hv⟩ := (climbFrom_cases d n (parent i)).resolve_left hs
    have heq : climbFrom d n (parent i) = i := by
      by_contra hne
      have hedge := hd.edges _ (by omega) (Nat.lt_succ_of_le hsn) hne
      rw [hps] at hedge
      omega
    rw [heq] at ih hv hlt
    exact ih ((parent_le i).trans hi) (hd.swap (by omega) (Nat.lt_succ_of_le hi) hv)

/-- A new last value is the only one that may be out of order. -/
theorem upReady_update (h : Ordered d (n + 1)) (x : Int) : UpReady (Function.update d (n + 1) x) (n + 2) (n + 1) where
  edges j hj hjn hne := by
    have hp := parent_lt hj
    rw [Function.update_of_ne hne, Function.update_of_ne (by omega)]
    exact h j hj (by omega)
  around j hj hjn hp _ := by
    have hlt := parent_lt hj
    omega

end Climbing

end SsdScheduler.LinkedHeap
