import SsdScheduler.SearchTree.Spine

/-!
# When the insertions build a search tree

A spine in which no node is shared and of which none was lost has its nodes in the order they came in, and
is the tree that insertion into a search tree builds.
-/

namespace SsdScheduler.SearchTree

open Framework

variable {mem : Memory} {s : Spine} {l rest : List (Addr × Int)} {p : Addr × Int} {newNode : Addr} {x : Int}
  {fuel : Nat}

namespace Spine

section Values

theorem nodes_leaf (right : Option (Addr × Int)) : OrderedTree.nodes (leaf right) = right.toList := by
  cases right <;> rfl

theorem Plain.nodes_toTree (h : s.Plain) : OrderedTree.nodes s.toTree = s.nodes := by
  induction s with
  | last a data right => simp [toTree, nodes, nodes_leaf]
  | cons a data right rest ih =>
    simp only [toTree, nodes, OrderedTree.nodes_node, nodes_leaf, ih h, ← Multiset.cons_coe, ← Multiset.coe_add]
    rw [Multiset.add_comm]
  | shared a data rest ih => cases h

theorem mem_toTree (s : Spine) : ∃ q ∈ OrderedTree.nodes s.toTree, q.1 = s.head := by
  cases s <;> simp [toTree, head]

/-- The tree of a shared node has the same values on the left and on the right. -/
theorem plain_of_ordered (h : OrderedTree.Ordered Prod.snd s.toTree) : s.Plain := by
  induction s with
  | last a data right => trivial
  | cons a data right rest ih => exact ih h.2.2.1
  | shared a data rest ih =>
    obtain ⟨q, hq, -⟩ := rest.mem_toTree
    exact absurd (h.1 q hq) (not_le.mpr (h.2.1 q hq))

end Values

section Acceptance

theorem plain_insert_iff (newNode : Addr) (x : Int) (s : Spine) :
    (s.insert newNode x).Plain ∧ s.nodes.length < (s.insert newNode x).nodes.length ↔ s.Accepts x := by
  induction s with
  | last a data right =>
    by_cases hx : x ≤ data
    · simp [insert, hx, Plain, nodes, Accepts]
    · cases right <;> simp [insert, hx, Plain, nodes, Accepts]
  | cons a data right rest ih =>
    by_cases hx : x ≤ data
    · simp [insert, hx, Plain, nodes, Accepts, ← ih]
    · simp [insert, hx, Plain, Accepts]
  | shared a data rest ih => simp [insert, Plain, Accepts]

theorem Accepts.plain (h : s.Accepts x) : s.Plain := by
  induction s with
  | last a data right => trivial
  | cons a data right rest ih => exact ih h.2
  | shared a data rest ih => exact h

/-- Where the spine accepts a value `Insert` is the insertion into a search tree. -/
theorem Accepts.toTree_insert (h : s.Accepts x) (newNode : Addr) :
    (s.insert newNode x).toTree = OrderedTree.insert Prod.snd (newNode, x) s.toTree := by
  induction s with
  | last a data right =>
    by_cases hx : x ≤ data
    · simp [insert, hx, toTree, OrderedTree.insert, leaf]
    · obtain rfl : right = none := h.resolve_left hx
      simp [insert, hx, toTree, OrderedTree.insert, leaf]
  | cons a data right rest ih => simp [insert, h.1, toTree, OrderedTree.insert, ih h.2]
  | shared a data rest ih => cases h

/-- In a tree in order every value but that of the last node is at least the one accepted. -/
theorem accepts_iff (h : OrderedTree.Ordered Prod.snd s.toTree) :
    s.Accepts x ↔ ∀ q ∈ s.nodes.dropLast, x ≤ q.2 := by
  induction s with
  | last a data right => cases right <;> simp [Accepts, nodes]
  | cons a data right rest ih =>
    obtain ⟨-, hright, hrest, -⟩ := h
    have hgreater (hx : x ≤ data) : ∀ q ∈ right, x ≤ q.2 := by
      intro q hq
      apply hx.trans (hright q _).le
      simpa [nodes_leaf] using hq
    rw [nodes, List.dropLast_cons_of_ne_nil (by simp [rest.ne_nil]), List.dropLast_append_of_ne_nil rest.ne_nil]
    simp only [Accepts, ih hrest, List.forall_mem_cons, List.forall_mem_append, Option.mem_toList]
    constructor
    · intro haccepts
      exact ⟨haccepts.1, hgreater haccepts.1, haccepts.2⟩
    · intro hall
      exact ⟨hall.1, hall.2.2⟩
  | shared a data rest ih => exact (plain_of_ordered h).elim

end Acceptance

/-- No node is shared, and all of a list are there. -/
structure Keeps (s : Spine) (l : List (Addr × Int)) : Prop where
  plain : s.Plain
  nodes_eq : s.nodes = l

theorem insert_keeps_iff (h : s.nodes.Sublist l) :
    (s.insert newNode x).Keeps (l ++ [(newNode, x)]) ↔ s.Keeps l ∧ s.Accepts x := by
  have hsub := nodes_insert_sublist newNode x s
  have hle := hsub.length_le
  rw [List.length_append, List.length_singleton] at hle
  constructor
  · intro hk
    have hlength : (s.insert newNode x).nodes.length = l.length + 1 := by simp [hk.nodes_eq]
    have heq : s.nodes = l := h.eq_of_length_le (by omega)
    have haccepts : s.Accepts x := (plain_insert_iff newNode x s).mp ⟨hk.plain, by rw [hlength, heq]; omega⟩
    exact ⟨⟨haccepts.plain, heq⟩, haccepts⟩
  · intro ⟨hk, haccepts⟩
    obtain ⟨hplain, hlt⟩ := (plain_insert_iff newNode x s).mpr haccepts
    refine ⟨hplain, ?_⟩
    rw [← hk.nodes_eq]
    exact hsub.eq_of_length_le (by simp; omega)

/-- The spine after a first node and others. -/
def ofList (p : Addr × Int) (rest : List (Addr × Int)) : Spine :=
  rest.foldl (fun s q => s.insert q.1 q.2) (last p.1 p.2 none)

section Building

theorem ofList_append (p q : Addr × Int) (rest : List (Addr × Int)) :
    ofList p (rest ++ [q]) = (ofList p rest).insert q.1 q.2 := by
  simp [ofList]

theorem nodes_ofList_sublist (p : Addr × Int) (rest : List (Addr × Int)) :
    (ofList p rest).nodes.Sublist (p :: rest) := by
  induction rest using List.reverseRecOn with
  | nil => exact List.Sublist.refl _
  | append_singleton rest q ih =>
    rw [ofList_append]
    exact (nodes_insert_sublist ..).trans (ih.append_right [q])

theorem ofList_append_keeps_iff (p q : Addr × Int) (rest : List (Addr × Int)) :
    (ofList p (rest ++ [q])).Keeps (p :: (rest ++ [q])) ↔
      (ofList p rest).Keeps (p :: rest) ∧ (ofList p rest).Accepts q.2 := by
  rw [ofList_append, ← List.cons_append]
  exact insert_keeps_iff (nodes_ofList_sublist p rest)

theorem Keeps.toTree_eq (h : (ofList p rest).Keeps (p :: rest)) :
    (ofList p rest).toTree = OrderedTree.build Prod.snd (p :: rest) := by
  induction rest using List.reverseRecOn with
  | nil => rfl
  | append_singleton rest q ih =>
    obtain ⟨hk, haccepts⟩ := (ofList_append_keeps_iff p q rest).mp h
    rw [ofList_append, haccepts.toTree_insert, ih hk, ← List.cons_append, OrderedTree.build_append]

theorem stepsDown_append (values : List Int) (x : Int) :
    StepsDown (values ++ [x]) ↔ StepsDown values ∧ ∀ y ∈ values.dropLast, x ≤ y := by
  induction values with
  | nil => simp [StepsDown]
  | cons y values ih =>
    cases values with
    | nil => simp [StepsDown]
    | cons z values =>
      simp only [List.cons_append, StepsDown, List.tail_cons, List.forall_mem_append, List.dropLast_cons_cons,
        List.forall_mem_cons] at ih ⊢
      rw [ih]
      constructor
      · intro ⟨⟨hy, hxy, _⟩, hz, hlast⟩
        exact ⟨⟨hy, hz⟩, hxy, hlast⟩
      · intro ⟨⟨hy, hz⟩, hxy, hlast⟩
        exact ⟨⟨hy, hxy, List.forall_mem_nil _⟩, hz, hlast⟩

/-- All nodes are kept exactly if the values step down. -/
theorem ofList_keeps_iff (p : Addr × Int) (rest : List (Addr × Int)) :
    (ofList p rest).Keeps (p :: rest) ↔ StepsDown ((p :: rest).map Prod.snd) := by
  induction rest using List.reverseRecOn with
  | nil => exact iff_of_true ⟨trivial, rfl⟩ ⟨by simp, trivial⟩
  | append_singleton rest q ih =>
    rw [ofList_append_keeps_iff, ih, ← List.cons_append, List.map_append, List.map_singleton, stepsDown_append]
    apply and_congr_right
    intro hdown
    have hk := ih.mpr hdown
    have hordered : OrderedTree.Ordered Prod.snd (ofList p rest).toTree := by
      rw [hk.toTree_eq]
      exact OrderedTree.ordered_build ..
    rw [accepts_iff hordered, hk.nodes_eq, ← List.map_dropLast, List.forall_mem_map]

end Building

section Runs

/-- The calls of a run all return. -/
theorem Lies.insertAll_eq (h : s.Lies mem) (hnodup : (s.nodes.map Prod.fst).Nodup) (hrest : (rest.map Prod.fst).Nodup)
    (hnew : ∀ q ∈ rest, mem q.1 = none) (hfuel : s.nodes.length + rest.length < fuel + 1) :
    ∃ s' mem', s' = rest.foldl (fun s q => s.insert q.1 q.2) s ∧
      insertAll fuel mem (some s.head) rest = some (mem', some s'.head) ∧ s'.Lies mem' := by
  induction rest generalizing mem s with
  | nil => exact ⟨s, mem, rfl, rfl, h⟩
  | cons q rest ih =>
    obtain ⟨hq, hnew⟩ := List.forall_mem_cons.mp hnew
    obtain ⟨hqrest, hrest⟩ := List.nodup_cons.mp hrest
    rw [List.length_cons] at hfuel
    have hout {b : Addr} (hb : mem b = none) : b ∉ s.nodes.map Prod.fst := by
      intro hmem
      obtain ⟨r, hr, rfl⟩ := List.mem_map.mp hmem
      exact h.mem_ne_none r hr hb
    obtain ⟨mem₁, hcall, hlies, hframe⟩ := h.insert hnodup hq (by omega : s.nodes.length < fuel) q.2
    have hsub := nodes_insert_sublist q.1 q.2 s
    have hnodup₁ : ((s.insert q.1 q.2).nodes.map Prod.fst).Nodup := by
      apply (hsub.map Prod.fst).nodup
      rw [List.map_append]
      exact hnodup.append (List.nodup_singleton _) (List.disjoint_singleton.mpr (hout hq))
    have hnew₁ : ∀ r ∈ rest, mem₁ r.1 = none := by
      intro r hr
      have hne : r.1 ≠ q.1 := ne_of_mem_of_not_mem (List.mem_map_of_mem hr) hqrest
      rw [hframe r.1 (hout (hnew r hr)) hne]
      exact hnew r hr
    have hle := hsub.length_le
    rw [List.length_append, List.length_singleton] at hle
    obtain ⟨s', mem', hs', hall, hlies'⟩ := ih hlies hnodup₁ hrest hnew₁ (by omega)
    rw [head_insert] at hall
    refine ⟨s', mem', hs', ?_, hlies'⟩
    simpa [insertAll, hcall] using hall

theorem insertAll_eq (hl : ((p :: rest).map Prod.fst).Nodup) (hfuel : (p :: rest).length < fuel) :
    ∃ mem, insertAll fuel (fun _ => none) none (p :: rest) = some (mem, some (ofList p rest).head) ∧
      (ofList p rest).Lies mem := by
  obtain ⟨fuel, rfl⟩ := Nat.exists_eq_succ_of_ne_zero (by omega : fuel ≠ 0)
  obtain ⟨hp, hrest⟩ := List.nodup_cons.mp hl
  have hlies : (last p.1 p.2 none).Lies (Function.update (fun _ => none) p.1 (some ⟨p.2, none, none⟩)) := by
    simp [Lies]
  have hnew : ∀ q ∈ rest, Function.update (fun _ => none) p.1 (some (⟨p.2, none, none⟩ : BstNode)) q.1 = none :=
    fun q hq => Function.update_of_ne (ne_of_mem_of_not_mem (List.mem_map_of_mem hq) hp) _ _
  have hlength : (last p.1 p.2 none).nodes.length + rest.length < fuel + 1 + 1 := by
    rw [List.length_cons] at hfuel
    simp only [nodes, Option.toList_none, List.length_singleton]
    omega
  obtain ⟨_, mem, rfl, hall, hlies⟩ := hlies.insertAll_eq (List.nodup_singleton _) hrest hnew hlength
  exact ⟨mem, hall, hlies⟩

/-- The nodes that can be reached are a search tree of the values exactly if the spine keeps all nodes. -/
theorem Lies.isSearchTree_iff (h : (ofList p rest).Lies mem) (hnodup : ((p :: rest).map Prod.fst).Nodup) :
    IsSearchTree mem (some (ofList p rest).head) ((p :: rest).map Prod.snd) ↔ (ofList p rest).Keeps (p :: rest) := by
  constructor
  · intro htree
    obtain ⟨t, hholds, -, hordered, hvalues⟩ := htree.tree
    obtain rfl := hholds.unique h.holds
    have hplain := plain_of_ordered hordered
    refine ⟨hplain, (nodes_ofList_sublist p rest).eq_of_length ?_⟩
    have hcard := congrArg Multiset.card hvalues
    simpa [hplain.nodes_toTree] using hcard
  · intro hk
    have hnodes : OrderedTree.nodes (ofList p rest).toTree = ↑(p :: rest) := by
      rw [hk.toTree_eq]
      exact OrderedTree.nodes_build ..
    apply IsSearchTree.of_ordered h.holds
    · rw [hnodes, Multiset.map_coe, Multiset.coe_nodup]
      exact hnodup
    · rw [hk.toTree_eq]
      exact OrderedTree.ordered_build ..
    · rw [hnodes, Multiset.map_coe]

end Runs

end Spine

/-- Inserting the values of a list one after the other builds a search tree of them exactly if they step down. -/
theorem inserts_search_tree_iff (hl : (l.map Prod.fst).Nodup) (hfuel : l.length < fuel) :
    ∃ mem root, insertAll fuel (fun _ => none) none l = some (mem, root) ∧
      (IsSearchTree mem root (l.map Prod.snd) ↔ StepsDown (l.map Prod.snd)) := by
  cases l with
  | nil =>
    refine ⟨_, _, rfl, iff_of_true ?_ trivial⟩
    exact IsSearchTree.of_ordered .null Multiset.nodup_zero trivial rfl
  | cons p rest =>
    obtain ⟨mem, hall, hlies⟩ := Spine.insertAll_eq hl hfuel
    exact ⟨mem, _, hall, (hlies.isSearchTree_iff hl).trans (Spine.ofList_keeps_iff p rest)⟩

/-- The values `2`, `3` and `1` step down. -/
theorem inserts_search_tree_iff_three :
    ∃ mem root, insertAll 4 (fun _ => none) none [(0, 2), (1, 3), (2, 1)] = some (mem, root) ∧
      IsSearchTree mem root [2, 3, 1] := by
  have hfuel : [(0, (2 : Int)), (1, 3), (2, 1)].length < 4 := by decide
  obtain ⟨mem, root, hall, htree⟩ := inserts_search_tree_iff (by decide) hfuel
  exact ⟨mem, root, hall, htree.mpr (by decide)⟩

/-- The node of `3` takes the place of that of `2`. -/
theorem second_value_lost :
    ∃ mem root, insertAll 4 (fun _ => none) none [(0, 1), (1, 2), (2, 3)] = some (mem, root) ∧
      search 2 4 mem root = some none ∧ ¬ IsSearchTree mem root [1, 2, 3] := by
  refine ⟨_, _, rfl, by decide, fun htree => ?_⟩
  obtain ⟨a, nd, hfinds, -⟩ := htree.found 2 (by decide)
  cases hfinds 4 (by decide)

end SsdScheduler.SearchTree
