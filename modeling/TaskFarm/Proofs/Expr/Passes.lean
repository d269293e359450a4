import Mathlib.Data.Set.Card
import TaskFarm.Proofs.Expr.Height
import TaskFarm.Proofs.Expr.Printing

/-!
# Passes over an arena

The writer of an arena works through a stack of pieces, the heights of its nodes are found one after
the other, and its operators are counted entry by entry: none of these passes follows the tree by
recursion.  The tree that the arena shows says by recursion what each of them comes to.
-/

namespace TaskFarm.Expr

namespace Arena

variable {a : Arena} {t : OpTree Nat}

/-- The operators that are reached from the root are as many as the arena counts. -/
theorem Shows.encard_operators (h : a.Shows t) :
    {i | a.Below a.root i ∧ a.IsOperator i}.encard = a.operatorCount := by
  have hset : {i | a.Below a.root i ∧ a.IsOperator i} = (t.operators.toFinset : Set Nat) := by
    ext i
    rw [Set.mem_ofPred_eq, List.coe_toFinset, Set.mem_ofPred_eq, ← h.mem_operators_iff, ← h.root_eq,
      h.liesIn.below_iff]
    exact and_iff_right_of_imp fun hi => t.operators_sublist_postOrder.subset hi
  rw [hset, Set.encard_coe_eq_coe_finsetCard, List.toFinset_card_of_nodup h.operators_nodup,
    h.operatorCount_eq]

/-- The passes over an arena come to what its tree says by recursion. -/
structure PassesAlong (a : Arena) (t : OpTree Nat) : Prop where
  /-- The writer comes to the end of its stack, after one piece for each node and two more for each
  operator, and has written the text of the tree by then. -/
  writes : a.Writes (a.size + 2 * a.operatorCount) [.node a.root] t.text
  text_eq : a.text = String.ofList t.text
  /-- When the pass for the heights comes to an operator, it has found both heights that it looks
  up: they are those of the two subtrees. -/
  looksUp : ∀ i op left right, a.node? i = some (.binary op left right) →
    ∃ l r, .branch i op l r ∈ t.subtrees ∧ l.label = left ∧ r.label = right ∧
      (heightsOf (a.entries.toList.take i))[left]? = some l.height ∧
      (heightsOf (a.entries.toList.take i))[right]? = some r.height
  depth_eq : a.depth = t.height
  /-- The operators that are counted are those that are reached from the root. -/
  operatorCount_eq : {i | a.Below a.root i ∧ a.IsOperator i}.encard = a.operatorCount

theorem Shows.passesAlong (h : a.Shows t) : a.PassesAlong t where
  writes := h.writes
  text_eq := h.text_eq
  looksUp := by
    intro i op left right hnode
    obtain ⟨l, r, hbranch, rfl, rfl⟩ := h.exists_branch hnode
    obtain ⟨-, hl, hr⟩ := h.liesIn.of_mem_subtrees hbranch
    obtain ⟨hltL, hltR⟩ := h.child_lt hnode
    have hi : i ≤ a.size := Nat.le_of_lt (h.lt_size (h.mem_operators hnode))
    exact ⟨l, r, hbranch, rfl, rfl, h.getElem?_heightsOf hi hl hltL, h.getElem?_heightsOf hi hr hltR⟩
  depth_eq := h.depth_eq
  operatorCount_eq := h.encard_operators

/-- The passes over every arena that is built from a listing agree with its tree. -/
theorem ofPostOrder_passesAlong {tokens : List Token} (h : ofPostOrder tokens = .ok a) :
    ∃ t, a.Shows t ∧ a.PassesAlong t := by
  obtain ⟨t, ht⟩ := exists_shows_of_ofPostOrder h
  exact ⟨t, ht, ht.passesAlong⟩

/-- The passes over `1 2 + 3 4 5 + * -`, where the right operand is the higher one. -/
theorem ofPostOrder_passesAlong_nested :
    ∃ tokens a, ofPostOrder tokens = .ok a ∧ tokens.length = 9 ∧ a.depth = 4 ∧
      a.operatorCount = 4 ∧ ∃ t, a.Shows t ∧ a.PassesAlong t := by
  have htokens : ofPostOrder
      [⟨.numeral "1", ⟨0, 1⟩⟩, ⟨.numeral "2", ⟨2, 3⟩⟩, ⟨.operator .add, ⟨1, 2⟩⟩,
        ⟨.numeral "3", ⟨4, 5⟩⟩, ⟨.numeral "4", ⟨6, 7⟩⟩, ⟨.numeral "5", ⟨8, 9⟩⟩,
        ⟨.operator .add, ⟨7, 8⟩⟩, ⟨.operator .mul, ⟨5, 6⟩⟩, ⟨.operator .sub, ⟨3, 4⟩⟩] = .ok _ := rfl
  exact ⟨_, _, htokens, rfl, by decide +kernel, by decide +kernel, ofPostOrder_passesAlong htokens⟩

end Arena

end TaskFarm.Expr
