import TaskFarm.Proofs.Expr.Tree

/-!
# The shape of a tree

A tree in an arena is fixed by its shape alone: operators, operands and numbers without the indices,
because the indices of a tree are all indices in post-order.  The leaves of the tree are the numbers
in the arena.
-/

namespace TaskFarm.Expr

def Node.isOperator : Node → Bool
  | .number _ => false
  | .binary _ _ _ => true

namespace OpTree

variable {α β : Type}

/-- The leaves with their labels, from left to right. -/
def leaves : OpTree α → List (α × Float)
  | leaf i v => [(i, v)]
  | branch _ _ l r => l.leaves ++ r.leaves

theorem length_leaves (t : OpTree α) : t.leaves.length = t.operators.length + 1 := by
  induction t with
  | leaf i v => rfl
  | branch i op l r ihl ihr =>
      simp only [leaves, operators, List.length_append, List.length_singleton]
      omega

theorem mem_postOrder_of_mem_leaves {t : OpTree α} {i : α} {v : Float} (h : (i, v) ∈ t.leaves) :
    i ∈ t.postOrder := by
  induction t with
  | leaf j w =>
      obtain ⟨rfl, rfl⟩ := Prod.mk.inj (List.mem_singleton.mp h)
      exact List.mem_singleton_self _
  | branch j op l r ihl ihr =>
      simp only [postOrder, List.mem_append]
      exact .inl ((List.mem_append.mp h).imp ihl ihr)

/-- If no label occurs twice, an operator has no leaf for its label. -/
theorem ne_of_mem_leaves {i : α} {op : Operator} {l r : OpTree α}
    (honce : (branch i op l r).postOrder.Nodup) {j : α} {v : Float}
    (h : (j, v) ∈ (branch i op l r).leaves) : j ≠ i := by
  rintro rfl
  have hbelow : j ∈ l.postOrder ++ r.postOrder :=
    List.mem_append.mpr
      ((List.mem_append.mp h).imp mem_postOrder_of_mem_leaves mem_postOrder_of_mem_leaves)
  exact (List.nodup_append.mp honce).2.2 j hbelow j (List.mem_singleton_self j) rfl

theorem LiesIn.node_of_mem_leaves {entries : Array Entry} {t : OpTree Nat} (h : t.LiesIn entries)
    {i : Nat} {v : Float} (hi : (i, v) ∈ t.leaves) :
    entries[i]?.map Entry.node = some (.number v) := by
  induction t with
  | leaf j w =>
      obtain ⟨rfl, rfl⟩ := Prod.mk.inj (List.mem_singleton.mp hi)
      exact h
  | branch j op l r ihl ihr =>
      exact (List.mem_append.mp hi).elim (ihl h.2.1) (ihr h.2.2)

theorem LiesIn.mem_leaves_of_node {entries : Array Entry} {t : OpTree Nat} (h : t.LiesIn entries)
    {i : Nat} {v : Float} (hi : i ∈ t.postOrder)
    (hnode : entries[i]?.map Entry.node = some (.number v)) : (i, v) ∈ t.leaves := by
  induction t with
  | leaf j w =>
      obtain rfl := List.mem_singleton.mp hi
      cases hnode.symm.trans h
      exact List.mem_singleton_self _
  | branch j op l r ihl ihr =>
      simp only [postOrder, List.mem_append, List.mem_singleton] at hi
      rcases hi with (hi | hi) | rfl
      · exact List.mem_append_left _ (ihl h.2.1 hi)
      · exact List.mem_append_right _ (ihr h.2.2 hi)
      · cases hnode.symm.trans h.1

/-- Two arrays in which one tree lies agree on its nodes. -/
theorem LiesIn.node_eq {entries entries' : Array Entry} {t : OpTree Nat} (h : t.LiesIn entries)
    (h' : t.LiesIn entries') {i : Nat} (hi : i ∈ t.postOrder) :
    entries[i]?.map Entry.node = entries'[i]?.map Entry.node := by
  induction t with
  | leaf j v =>
      obtain rfl := List.mem_singleton.mp hi
      exact Eq.trans h (Eq.symm h')
  | branch j op l r ihl ihr =>
      simp only [postOrder, List.mem_append, List.mem_singleton] at hi
      rcases hi with (hi | hi) | rfl
      · exact ihl h.2.1 h'.2.1 hi
      · exact ihr h.2.2 h'.2.2 hi
      · exact h.1.trans h'.1.symm

/-! ## Nodes -/

/-- The nodes of the tree in post-order, where the operands are named by their labels. -/
def nodes : OpTree Nat → List Node
  | leaf _ v => [.number v]
  | branch _ op l r => l.nodes ++ r.nodes ++ [.binary op l.label r.label]

theorem LiesIn.map_node {entries : Array Entry} {t : OpTree Nat} (h : t.LiesIn entries) :
    t.postOrder.map (fun i => entries[i]?.map Entry.node) = t.nodes.map some := by
  induction t with
  | leaf i v => exact congrArg (fun node => [node]) h
  | branch i op l r ihl ihr =>
      simp only [postOrder, nodes, List.map_append, ihl h.2.1, ihr h.2.2, List.map_singleton, h.1]

theorem countP_nodes (t : OpTree Nat) : t.nodes.countP Node.isOperator = t.operators.length := by
  induction t with
  | leaf i v => rfl
  | branch i op l r ihl ihr => simp [nodes, operators, ihl, ihr, Node.isOperator]

/-! ## Shapes -/

theorem length_postOrder_bare (t : OpTree α) : t.bare.postOrder.length = t.postOrder.length := by
  induction t with
  | leaf i v => rfl
  | branch i op l r ihl ihr => simp [bare, postOrder, ihl, ihr]

theorem length_postOrder_of_bare {t : OpTree α} {u : OpTree β} (h : t.bare = u.bare) :
    t.postOrder.length = u.postOrder.length := by
  rw [← length_postOrder_bare t, h, length_postOrder_bare]

/-- The shape of a tree and the labels in post-order are all of it. -/
theorem eq_of_bare {t u : OpTree α} (hbare : t.bare = u.bare)
    (hpost : t.postOrder = u.postOrder) : t = u := by
  induction t generalizing u with
  | leaf i v =>
      cases u with
      | leaf j w =>
          cases hbare
          cases hpost
          rfl
      | branch j op l r => cases hbare
  | branch i op l r ihl ihr =>
      cases u with
      | leaf j w => cases hbare
      | branch j op' l' r' =>
          obtain ⟨-, rfl, hl, hr⟩ := OpTree.branch.inj hbare
          obtain ⟨hparts, hlast⟩ := List.append_inj' hpost rfl
          obtain ⟨hpostL, hpostR⟩ := List.append_inj hparts (length_postOrder_of_bare hl)
          rw [ihl hl hpostL, ihr hr hpostR, List.singleton_inj.mp hlast]

end OpTree

namespace Arena.Shows

variable {a b : Arena} {t u : OpTree Nat}

theorem size_eq (h : a.Shows t) : a.size = t.postOrder.length := by
  rw [h.postOrder_eq, List.length_range]

/-- The nodes of the arena are those of its tree in post-order. -/
theorem map_node_eq (h : a.Shows t) : a.entries.toList.map Entry.node = t.nodes := by
  have hnodes := h.liesIn.map_node
  rw [h.postOrder_eq] at hnodes
  have hsome : (a.entries.toList.map Entry.node).map some = t.nodes.map some := by
    rw [← hnodes]
    refine List.ext_getElem? fun i => ?_
    by_cases hi : i < a.entries.size
    · simp [size, hi]
    · simp [size, hi]
  exact List.map_injective_iff.mpr (fun _ _ => Option.some.inj) hsome

theorem operatorCount_eq (h : a.Shows t) : a.operatorCount = t.operators.length := by
  have hentry : (Node.isOperator ∘ Entry.node) = Entry.isOperator := by
    funext e
    cases hnode : e.node <;> simp [Entry.isOperator, Node.isOperator, hnode]
  rw [← OpTree.countP_nodes, ← h.map_node_eq, List.countP_map, hentry, operatorCount,
    Array.countP_toList]

theorem mem_leaves_iff (h : a.Shows t) {i : Nat} {v : Float} :
    (i, v) ∈ t.leaves ↔ a.node? i = some (.number v) := by
  constructor
  · exact h.liesIn.node_of_mem_leaves
  · intro hnode
    obtain ⟨entry, hentry, -⟩ := Option.map_eq_some_iff.mp hnode
    have hlt : i < a.size := (Array.getElem?_eq_some_iff.mp hentry).1
    exact h.liesIn.mem_leaves_of_node (h.postOrder_eq ▸ List.mem_range.mpr hlt) hnode

/-- Arenas that show trees of one shape have the same nodes and the same root. -/
theorem nodes_eq (ha : a.Shows t) (hb : b.Shows u) (hbare : t.bare = u.bare) :
    b.entries.map Entry.node = a.entries.map Entry.node ∧ b.root = a.root := by
  have hsize : a.size = b.size := by
    rw [ha.size_eq, hb.size_eq, OpTree.length_postOrder_of_bare hbare]
  obtain rfl : t = u :=
    OpTree.eq_of_bare hbare (by rw [ha.postOrder_eq, hb.postOrder_eq, hsize])
  refine ⟨Array.ext_getElem? fun i => ?_, hb.root_eq.symm.trans ha.root_eq⟩
  rw [Array.getElem?_map, Array.getElem?_map]
  by_cases hi : i < a.size
  · exact hb.liesIn.node_eq ha.liesIn (ha.postOrder_eq ▸ List.mem_range.mpr hi)
  · have hle : a.entries.size ≤ i := Nat.le_of_not_lt hi
    have hle' : b.entries.size ≤ i := hsize.ge.trans hle
    rw [Array.getElem?_eq_none hle, Array.getElem?_eq_none hle']

end Arena.Shows

end TaskFarm.Expr
