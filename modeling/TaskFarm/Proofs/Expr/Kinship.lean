import Mathlib.Logic.Relation
import TaskFarm.Proofs.Expr.Shape

/-!
# Parents and children

An operator of an arena names its operands, which are its children.  Along the tree that the arena
shows, every node but the root is the child of one node, and the nodes below a node are those of the
subtree that begins there: they stand next to each other in the array and the node is the last one.
-/

namespace TaskFarm.Expr

namespace Arena

/-- The second node is an operand of the first one. -/
def IsChild (a : Arena) (parent child : Nat) : Prop :=
  ∃ op left right, a.node? parent = some (.binary op left right) ∧ (child = left ∨ child = right)

def IsOperator (a : Arena) (i : Nat) : Prop :=
  ∃ op left right, a.node? i = some (.binary op left right)

/-- The second node is the first one, or it is reached from there over operands. -/
def Below (a : Arena) : Nat → Nat → Prop :=
  Relation.ReflTransGen a.IsChild

end Arena

namespace OpTree

variable {α : Type} {a : Arena} {t : OpTree Nat}

/-! ## Links -/

/-- Every operator with each of its operands. -/
def links : OpTree α → List (α × α)
  | leaf _ _ => []
  | branch i _ l r => l.links ++ r.links ++ [(i, l.label), (i, r.label)]

/-- The root and the ends of all links are all nodes, each of them once. -/
theorem links_perm (t : OpTree α) : (t.label :: t.links.map Prod.snd).Perm t.postOrder := by
  induction t with
  | leaf i v => exact List.Perm.refl _
  | branch i op l r ihl ihr =>
      have hends : ((l.links ++ r.links ++ [(i, l.label), (i, r.label)]).map Prod.snd).Perm
          (l.postOrder ++ r.postOrder) := by
        refine (List.perm_append_comm.map Prod.snd).trans ?_
        simp only [List.cons_append, List.nil_append, List.map_cons, List.map_append]
        exact (List.perm_middle.symm.cons l.label).trans (ihl.append ihr)
      exact (hends.cons i).trans (List.perm_append_singleton i _).symm

theorem LiesIn.mem_links_iff (h : t.LiesIn a.entries) {i j : Nat} :
    (i, j) ∈ t.links ↔ i ∈ t.postOrder ∧ a.IsChild i j := by
  induction t with
  | leaf k v =>
      simp only [links, List.not_mem_nil, postOrder, List.mem_singleton, false_iff, not_and]
      rintro rfl ⟨op, left, right, hnode, -⟩
      cases hnode.symm.trans h
  | branch k op l r ihl ihr =>
      simp only [links, postOrder, List.mem_append, List.mem_cons, List.not_mem_nil, or_false,
        ihl h.2.1, ihr h.2.2, Prod.mk.injEq]
      constructor
      · rintro ((⟨hi, hchild⟩ | ⟨hi, hchild⟩) | ⟨rfl, rfl⟩ | ⟨rfl, rfl⟩)
        · exact ⟨.inl (.inl hi), hchild⟩
        · exact ⟨.inl (.inr hi), hchild⟩
        · exact ⟨.inr rfl, op, _, _, h.1, .inl rfl⟩
        · exact ⟨.inr rfl, op, _, _, h.1, .inr rfl⟩
      · rintro ⟨(hi | hi) | rfl, hchild⟩
        · exact .inl (.inl ⟨hi, hchild⟩)
        · exact .inl (.inr ⟨hi, hchild⟩)
        · obtain ⟨op', left, right, hnode, hj⟩ := hchild
          cases hnode.symm.trans h.1
          exact .inr (hj.imp (⟨rfl, ·⟩) (⟨rfl, ·⟩))

/-! ## Subtrees -/

/-- All subtrees, those of the operands before that of their operator. -/
def subtrees : OpTree α → List (OpTree α)
  | leaf i v => [leaf i v]
  | branch i op l r => l.subtrees ++ r.subtrees ++ [branch i op l r]

theorem map_label_subtrees (t : OpTree α) : t.subtrees.map label = t.postOrder := by
  induction t with
  | leaf i v => rfl
  | branch i op l r ihl ihr => simp only [subtrees, postOrder, List.map_append, ihl, ihr]; rfl

theorem postOrder_infix {t u : OpTree α} (h : u ∈ t.subtrees) : u.postOrder <:+: t.postOrder := by
  induction t with
  | leaf i v =>
      obtain rfl := List.mem_singleton.mp h
      exact List.infix_rfl
  | branch i op l r ihl ihr =>
      simp only [subtrees, List.mem_append, List.mem_singleton] at h
      rcases h with (h | h) | rfl
      · exact (ihl h).trans ((List.prefix_append _ _).trans (List.prefix_append _ _)).isInfix
      · exact (ihr h).trans (List.infix_append _ _ _)
      · exact List.infix_rfl

theorem LiesIn.of_mem_subtrees {entries : Array Entry} (h : t.LiesIn entries) {u : OpTree Nat}
    (hu : u ∈ t.subtrees) : u.LiesIn entries := by
  induction t with
  | leaf i v =>
      rw [List.mem_singleton.mp hu]
      exact h
  | branch i op l r ihl ihr =>
      simp only [subtrees, List.mem_append, List.mem_singleton] at hu
      rcases hu with (hu | hu) | rfl
      · exact ihl h.2.1 hu
      · exact ihr h.2.2 hu
      · exact h

theorem getLast?_postOrder (t : OpTree α) : t.postOrder.getLast? = some t.label := by
  cases t with
  | leaf i v => rfl
  | branch i op l r => exact List.getLast?_concat

/-- The nodes below the root of a tree are those of the tree. -/
theorem LiesIn.below_iff (h : t.LiesIn a.entries) {j : Nat} :
    a.Below t.label j ↔ j ∈ t.postOrder := by
  induction t with
  | leaf i v =>
      rw [postOrder, List.mem_singleton]
      constructor
      · intro hbelow
        rcases Relation.ReflTransGen.cases_head hbelow with rfl | ⟨k, ⟨op, l, r, hnode, -⟩, -⟩
        · rfl
        · cases hnode.symm.trans h
      · rintro rfl
        exact .refl
  | branch i op l r ihl ihr =>
      simp only [postOrder, List.mem_append, List.mem_singleton, ← ihl h.2.1, ← ihr h.2.2]
      constructor
      · intro hbelow
        rcases Relation.ReflTransGen.cases_head hbelow with rfl | ⟨k, ⟨_, _, _, hnode, hk⟩, hrest⟩
        · exact .inr rfl
        · cases hnode.symm.trans h.1
          rcases hk with rfl | rfl
          · exact .inl (.inl hrest)
          · exact .inl (.inr hrest)
      · rintro ((hbelow | hbelow) | rfl)
        · exact .head ⟨op, _, _, h.1, .inl rfl⟩ hbelow
        · exact .head ⟨op, _, _, h.1, .inr rfl⟩ hbelow
        · exact .refl

theorem LiesIn.isOperator (h : t.LiesIn a.entries) {i : Nat} (hi : i ∈ t.operators) :
    a.IsOperator i := by
  induction t with
  | leaf j v => cases hi
  | branch j op l r ihl ihr =>
      simp only [operators, List.mem_append, List.mem_singleton] at hi
      rcases hi with (hi | hi) | rfl
      · exact ihl h.2.1 hi
      · exact ihr h.2.2 hi
      · exact ⟨op, l.label, r.label, h.1⟩

theorem length_postOrder (t : OpTree α) : t.postOrder.length = 2 * t.operators.length + 1 := by
  induction t with
  | leaf i v => rfl
  | branch i op l r ihl ihr =>
      simp only [postOrder, operators, List.length_append, List.length_singleton, ihl, ihr]
      omega

end OpTree

/-! ## Nodes of an arena -/

namespace Arena.Shows

variable {a : Arena} {t : OpTree Nat}

/-- Every node is the root of a subtree. -/
theorem exists_subtree (h : a.Shows t) {i : Nat} (hi : i < a.size) :
    ∃ u ∈ t.subtrees, u.label = i := by
  rw [← List.mem_map, t.map_label_subtrees, h.postOrder_eq]
  exact List.mem_range.mpr hi

/-- The operators of the tree are those of the arena. -/
theorem mem_operators_iff (h : a.Shows t) {i : Nat} : i ∈ t.operators ↔ a.IsOperator i := by
  refine ⟨h.liesIn.isOperator, ?_⟩
  rintro ⟨op, left, right, hnode⟩
  exact h.mem_operators hnode

/-- Every operator joins two subtrees. -/
theorem exists_branch (h : a.Shows t) {i left right : Nat} {op : Operator}
    (hnode : a.node? i = some (.binary op left right)) :
    ∃ l r, OpTree.branch i op l r ∈ t.subtrees ∧ l.label = left ∧ r.label = right := by
  obtain ⟨u, hu, hlabel⟩ := h.exists_subtree (h.lt_size (h.mem_operators hnode))
  have hlies := h.liesIn.of_mem_subtrees hu
  cases u with
  | leaf j v =>
      obtain rfl : j = i := hlabel
      cases hnode.symm.trans hlies
  | branch j op' l r =>
      obtain rfl : j = i := hlabel
      cases hnode.symm.trans hlies.1
      exact ⟨l, r, hu, rfl, rfl⟩

/-- The operands of an operator come before it, the left one first. -/
theorem children_lt (h : a.Shows t) {i left right : Nat} {op : Operator}
    (hnode : a.node? i = some (.binary op left right)) : left < right ∧ right < i := by
  obtain ⟨l, r, hbranch, rfl, rfl⟩ := h.exists_branch hnode
  have hsorted := h.postOrder_sorted.sublist (OpTree.postOrder_infix hbranch).sublist
  obtain ⟨hoperands, -, hlast⟩ := List.pairwise_append.mp hsorted
  have hright := List.mem_append_right l.postOrder r.label_mem_postOrder
  exact ⟨(List.pairwise_append.mp hoperands).2.2 _ l.label_mem_postOrder _ r.label_mem_postOrder,
    hlast _ hright _ (List.mem_singleton_self i)⟩

/-- The root is the last node. -/
theorem root_add_one (h : a.Shows t) : a.root + 1 = a.size := by
  have hlast := t.getLast?_postOrder
  rw [h.postOrder_eq, List.getLast?_range, h.root_eq] at hlast
  split at hlast
  · cases hlast
  · have := Option.some.inj hlast
    omega

/-- Every node but the root is the child of exactly one node. -/
theorem existsUnique_parent (h : a.Shows t) {i : Nat} (hi : i < a.size) (hroot : i ≠ a.root) :
    ∃! parent, a.IsChild parent i := by
  have hperm := t.links_perm
  have hmem : i ∈ t.label :: t.links.map Prod.snd :=
    hperm.mem_iff.mpr (h.postOrder_eq ▸ List.mem_range.mpr hi)
  have hnodup : (t.links.map Prod.snd).Nodup :=
    (hperm.nodup_iff.mpr (h.postOrder_sorted.imp Nat.ne_of_lt)).of_cons
  rcases List.mem_cons.mp hmem with hlabel | hmem
  · exact absurd (hlabel.trans h.root_eq) hroot
  obtain ⟨⟨parent, child⟩, hlink, rfl⟩ := List.mem_map.mp hmem
  refine ⟨parent, (h.liesIn.mem_links_iff.mp hlink).2, fun other hother => ?_⟩
  obtain ⟨op, left, right, hnode, -⟩ := id hother
  have hbound : other ∈ t.postOrder :=
    t.operators_sublist_postOrder.subset (h.mem_operators hnode)
  have hlink' := h.liesIn.mem_links_iff.mpr ⟨hbound, hother⟩
  -- two links to one child are the same link
  exact congrArg Prod.fst (List.inj_on_of_nodup_map hnodup hlink' hlink rfl)

/-- The nodes of a subtree stand next to each other. -/
theorem exists_postOrder_eq_range' (h : a.Shows t) {u : OpTree Nat} (hu : u ∈ t.subtrees) :
    ∃ first count, u.postOrder = List.range' first count := by
  obtain ⟨before, after, hsplit⟩ := OpTree.postOrder_infix hu
  rw [h.postOrder_eq, List.range_eq_range', eq_comm] at hsplit
  obtain ⟨stop, -, hfront, -⟩ := List.range'_eq_append_iff.mp hsplit
  obtain ⟨first, -, -, hnodes⟩ := List.range'_eq_append_iff.mp hfront.symm
  exact ⟨_, _, hnodes⟩

/-- The nodes below a node stand next to each other, and the node is the last one of them. -/
theorem exists_below_iff (h : a.Shows t) {i : Nat} (hi : i < a.size) :
    ∃ first ≤ i, ∀ j, a.Below i j ↔ first ≤ j ∧ j ≤ i := by
  obtain ⟨u, hu, rfl⟩ := h.exists_subtree hi
  obtain ⟨first, count, hnodes⟩ := h.exists_postOrder_eq_range' hu
  -- the nodes of the subtree are a range, whose last element is the label
  have hmem : ∀ j, j ∈ u.postOrder ↔ first ≤ j ∧ j < first + count := by
    intro j
    rw [hnodes, List.mem_range'_1]
  have hlast : first + count = u.label + 1 := by
    have hlabel := u.getLast?_postOrder
    rw [hnodes, List.getLast?_range'] at hlabel
    split at hlabel
    · cases hlabel
    · have := Option.some.inj hlabel
      omega
  refine ⟨first, ?_, fun j => ?_⟩
  · exact ((hmem _).mp u.label_mem_postOrder).1
  · rw [(h.liesIn.of_mem_subtrees hu).below_iff, hmem, hlast, Nat.lt_succ_iff]

end Arena.Shows

end TaskFarm.Expr
