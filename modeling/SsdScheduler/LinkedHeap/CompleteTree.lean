import SsdScheduler.LinkedHeap.Shape

/-!
# The linked heap stays a complete tree

The tree is what can be reached from the root through the children. It has the indices `0, ..., total_nodes`
after every operation, with whatever data.
-/

namespace SsdScheduler.LinkedHeap

open Framework Framework.Heap

/-- `p` is the node of index `i`. -/
inductive At (mem : Memory) (root : Addr) : Nat → Addr → Prop
  | root : At mem root 0 root
  | left {i : Nat} {p q : Addr} {nd : Node} (h : At mem root i p) (hp : mem p = some nd) (hq : nd.left = some q) :
      At mem root (2 * i + 1) q
  | right {i : Nat} {p q : Addr} {nd : Node} (h : At mem root i p) (hp : mem p = some nd) (hq : nd.right = some q) :
      At mem root (2 * i + 2) q

/-- The nodes reachable from the root form the complete tree of the indices `0, ..., n`, and every node but the
root has its actual parent as `parent`. -/
structure Complete (mem : Memory) (root : Addr) (n : Nat) : Prop where
  indices : ∀ i, (∃ p, At mem root i p) ↔ i ≤ n
  unique : ∀ i j p, At mem root i p → At mem root j p → i = j
  allocated : ∀ i p, At mem root i p → ∃ nd, mem p = some nd
  parents : ∀ i p q nd, At mem root i p → mem p = some nd → nd.left = some q ∨ nd.right = some q →
    ∃ nd', mem q = some nd' ∧ nd'.parent = some p

variable {mem : Memory} {root p : Addr} {f : Nat → Addr} {d : Nat → Int} {n i : Nat} {s t : State} {data : Int}
  {c : Call} {o : Option Int} {tr : List (Event State Call (Option Int))}

theorem Shape.left_eq (i : Nat) {q : Addr} (hq : (nodeAt f d n i).left = some q) : 2 * i + 1 ≤ n ∧ f (2 * i + 1) = q := by
  simpa [nodeAt] using hq

theorem Shape.right_eq (i : Nat) {q : Addr} (hq : (nodeAt f d n i).right = some q) :
    2 * i + 2 ≤ n ∧ f (2 * i + 2) = q := by
  simpa [nodeAt] using hq

/-- The tree has the nodes of its shape, and no others. -/
theorem Shape.at_iff (h : Shape mem root f d n) : At mem root i p ↔ i ≤ n ∧ p = f i := by
  constructor
  · intro hat
    induction hat with
    | root => exact ⟨Nat.zero_le n, h.root_eq.symm⟩
    | left _ hp hq ih =>
      obtain ⟨hi, rfl⟩ := ih
      obtain rfl := Option.some.inj ((h.nodes _ hi).symm.trans hp)
      obtain ⟨hle, rfl⟩ := Shape.left_eq _ hq
      exact ⟨hle, rfl⟩
    | right _ hp hq ih =>
      obtain ⟨hi, rfl⟩ := ih
      obtain rfl := Option.some.inj ((h.nodes _ hi).symm.trans hp)
      obtain ⟨hle, rfl⟩ := Shape.right_eq _ hq
      exact ⟨hle, rfl⟩
  · intro ⟨hi, hp⟩
    subst hp
    induction i using Nat.strong_induction_on with
    | _ i ih =>
      rcases Nat.eq_zero_or_pos i with rfl | hpos
      · rw [h.root_eq]
        exact .root
      · have hlt := parent_lt hpos
        have hup := ih _ hlt (by omega)
        have hnode := h.nodes (parent i) (by omega)
        rcases (parent_eq_iff hpos).mp rfl with hleft | hright
        · rw [hleft]
          exact .left hup hnode (if_pos (hleft ▸ hi) : (nodeAt f d n (parent i)).left = _)
        · rw [hright]
          exact .right hup hnode (if_pos (hright ▸ hi) : (nodeAt f d n (parent i)).right = _)

theorem Shape.eq_nodeAt {nd : Node} (h : Shape mem root f d n) (hat : At mem root i p) (hp : mem p = some nd) :
    i ≤ n ∧ p = f i ∧ nd = nodeAt f d n i := by
  obtain ⟨hi, rfl⟩ := h.at_iff.mp hat
  exact ⟨hi, rfl, Option.some.inj (hp.symm.trans (h.nodes i hi))⟩

theorem Shape.complete (h : Shape mem root f d n) : Complete mem root n where
  indices i := ⟨fun ⟨_, hat⟩ => (h.at_iff.mp hat).1, fun hi => ⟨f i, h.at_iff.mpr ⟨hi, rfl⟩⟩⟩
  unique i j p hati hatj := by
    obtain ⟨hi, hpi⟩ := h.at_iff.mp hati
    obtain ⟨hj, hpj⟩ := h.at_iff.mp hatj
    exact h.inj hi hj (hpi.symm.trans hpj)
  allocated i p hat := by
    obtain ⟨hi, rfl⟩ := h.at_iff.mp hat
    exact ⟨_, h.nodes i hi⟩
  parents i p q nd hat hp hq := by
    obtain ⟨hi, rfl, rfl⟩ := h.eq_nodeAt hat hp
    obtain ⟨k, hk, rfl, hparent⟩ : ∃ k ≤ n, f k = q ∧ (nodeAt f d n k).parent = some (f i) := by
      rcases hq with hq | hq
      · obtain ⟨hle, hq⟩ := Shape.left_eq i hq
        have hpar : parent (2 * i + 1) = i := (parent_eq_iff (by omega)).mpr (.inl rfl)
        exact ⟨_, hle, hq, by simp [nodeAt, hpar]⟩
      · obtain ⟨hle, hq⟩ := Shape.right_eq i hq
        have hpar : parent (2 * i + 2) = i := (parent_eq_iff (by omega)).mpr (.inr rfl)
        exact ⟨_, hle, hq, by simp [nodeAt, hpar]⟩
    exact ⟨_, h.nodes k hk, hparent⟩

theorem HeapState.initial (root : Addr) (data : Int) :
    HeapState (start root data) root (fun _ => root) (fun _ => data) 0 where
  shape := by
    refine ⟨rfl, fun i hi j hj _ => ?_, fun i hi => ?_⟩
    · exact (Nat.le_zero.mp hi).trans (Nat.le_zero.mp hj).symm
    · obtain rfl := Nat.le_zero.mp hi
      simp [start, getNewNode, nodeAt]
  total := rfl
  latest h0 := absurd h0 (Nat.lt_irrefl 0)

/-- Every operation that may be called returns, keeps the shape and finds the last node. -/
theorem HeapState.step_eq (h : HeapState s root f d n) (hl : (heapMachine root).legal s c) :
    ∃ o t f' d' n', (heapMachine root).step s c = some (o, t) ∧ HeapState t root f' d' n' ∧
      t.latestNode = some (f' n') := by
  cases c with
  | insertNode a x =>
    obtain ⟨t, d', hinsert, hstate, hlatest, -⟩ := h.insertNode_eq hl x
    refine ⟨none, t, _, d', n + 1, by simp [heapMachine, hinsert], hstate, ?_⟩
    rw [hlatest, Function.update_self]
  | takeOut =>
    obtain ⟨m, rfl⟩ : ∃ m, n = m + 1 := by
      have hpos : 1 ≤ s.totalNodes := hl
      rw [h.total] at hpos
      exact Nat.exists_eq_succ_of_ne_zero (by omega)
    obtain ⟨t, d', htake, hstate, hlatest, -⟩ := h.takeOut_eq
    exact ⟨some (d 0), t, f, d', m, by simp [heapMachine, htake], hstate, hlatest⟩

theorem HeapState.of_run (hr : (heapMachine root).Run (start root data) tr s) :
    ∃ f d n, HeapState s root f d n ∧ (tr ≠ [] → s.latestNode = some (f n)) := by
  have hinv : ∃ f d n, HeapState s root f d n ∧
      (tr.foldl (fun _ _ => true) false = true → s.latestNode = some (f n)) := by
    refine hr.history (g := fun _ _ => true) (P := fun s b => ∃ f d n, HeapState s root f d n ∧
      (b = true → s.latestNode = some (f n))) ?_ ⟨_, _, 0, .initial root data, nofun⟩
    rintro e b ⟨f, d, n, h, -⟩ hl he
    obtain ⟨o, t, f', d', n', hs, hstate, hlatest⟩ := h.step_eq hl
    obtain ⟨rfl, rfl⟩ : e.out = o ∧ e.post = t := by simpa [he] using hs
    exact ⟨f', d', n', hstate, fun _ => hlatest⟩
  obtain ⟨f, d, n, h, hlatest⟩ := hinv
  refine ⟨f, d, n, h, fun hne => hlatest ?_⟩
  obtain ⟨tr', e, rfl⟩ := List.eq_nil_or_concat tr |>.resolve_left hne
  simp

/-- After every run the tree is the complete one of the indices `0, ..., total_nodes`, `latest_node` is the node
of index `total_nodes`, and the next operation returns. -/
theorem complete_tree_kept (hr : (heapMachine root).Run (start root data) tr s) :
    ∃ n : Nat, s.totalNodes = n ∧ Complete s.mem root n ∧
      (tr ≠ [] → ∃ p, s.latestNode = some p ∧ At s.mem root n p) ∧
      ∀ c, (heapMachine root).legal s c → (heapMachine root).Returns s c := by
  obtain ⟨f, d, n, h, hlatest⟩ := HeapState.of_run hr
  refine ⟨n, h.total, h.shape.complete, fun hne => ⟨f n, hlatest hne, h.shape.at_iff.mpr ⟨le_rfl, rfl⟩⟩, ?_⟩
  intro c hl
  obtain ⟨o, t, -, -, -, hs, -⟩ := h.step_eq hl
  exact ⟨o, t, hs⟩

/-- Three nodes, of which one is taken out. -/
theorem complete_tree_kept_three : ∃ s : State, s.totalNodes = 1 ∧ Complete s.mem 0 1 ∧
    ∃ p, s.latestNode = some p ∧ At s.mem 0 1 p := by
  have hplay : (heapMachine 0).Plays (start 0 3) [.insertNode 1 1, .insertNode 2 2, .takeOut]
      fun tr s => tr ≠ [] ∧ s.totalNodes = 1 := by decide
  obtain ⟨tr, s, hr, -, hne, htotal⟩ := hplay.exists_run
  obtain ⟨n, hn, hcomplete, hlatest, -⟩ := complete_tree_kept hr
  obtain rfl : n = 1 := by omega
  exact ⟨s, htotal, hcomplete, hlatest hne⟩

end SsdScheduler.LinkedHeap
