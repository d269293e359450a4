import TaskFarm.Proofs.Expr.Kinship

/-!
# The height of a tree

The heights of all nodes of an arena are found in one pass from the first node to the last.  A node
comes after its operands, so that whenever the pass comes to an operator it has found the heights of
both of them: what it has found for a node is the height of the subtree that begins there.
-/

namespace TaskFarm.Expr

/-- The height of a tree; a single number has height one. -/
def OpTree.height {α : Type} : OpTree α → Nat
  | leaf _ _ => 1
  | branch _ _ l r => 1 + max l.height r.height

namespace Arena

/-- The heights that are found in a pass over some entries. -/
def heightsOf (entries : List Entry) : Array Nat :=
  entries.foldl (fun found e => found.push (heightAfter found e)) #[]

theorem heights_eq (a : Arena) : a.heights = heightsOf a.entries.toList :=
  (Array.foldl_toList _).symm

theorem heightsOf_concat (entries : List Entry) (e : Entry) :
    heightsOf (entries ++ [e]) =
      (heightsOf entries).push (heightAfter (heightsOf entries) e) := by
  simp [heightsOf]

theorem size_heightsOf (entries : List Entry) : (heightsOf entries).size = entries.length := by
  induction entries using List.reverseRecOn with
  | nil => rfl
  | append_singleton entries e ih => simp [heightsOf_concat, ih]

theorem getD_push_of_lt {found : Array Nat} {i : Nat} (hlt : i < found.size) (height : Nat) :
    (found.push height).getD i 0 = found.getD i 0 := by
  simp [Array.getD_eq_getD_getElem?, Array.getElem?_push, Nat.ne_of_lt hlt]

theorem getD_push_size (found : Array Nat) (height : Nat) :
    (found.push height).getD found.size 0 = height := by
  simp [Array.getD_eq_getD_getElem?]

variable {a : Arena} {t u : OpTree Nat}

/-- The heights that were found are those of all trees that begin before an index. -/
def FoundBefore (a : Arena) (k : Nat) (found : Array Nat) : Prop :=
  ∀ u : OpTree Nat, u.LiesIn a.entries → u.label < k → found.getD u.label 0 = u.height

/-- The height of a node follows from those of its operands, which have been found before. -/
theorem Shows.heightAfter_eq (h : a.Shows t) (hu : u.LiesIn a.entries) {e : Entry}
    (hentry : a.entries[u.label]? = some e) {found : Array Nat}
    (hfound : a.FoundBefore u.label found) : heightAfter found e = u.height := by
  cases u with
  | leaf i v =>
      have hnode : a.node? i = some (.number v) := hu
      simp only [OpTree.label] at hentry
      rw [node?, hentry] at hnode
      simp [heightAfter, Option.some.inj hnode, OpTree.height]
  | branch i op l r =>
      obtain ⟨hnode, hl, hr⟩ := hu
      obtain ⟨hltL, hltR⟩ := h.child_lt hnode
      simp only [OpTree.label] at hentry
      rw [hentry] at hnode
      simp only [heightAfter, Option.some.inj hnode, OpTree.height]
      rw [hfound l hl hltL, hfound r hr hltR]

/-- When the pass comes to a node, it has found one height for each node before it. -/
theorem size_heightsOf_take {k : Nat} (hk : k ≤ a.size) :
    (heightsOf (a.entries.toList.take k)).size = k := by
  rw [size_heightsOf, List.length_take_of_le]
  rw [Array.length_toList]
  exact hk

theorem Shows.foundBefore (h : a.Shows t) {k : Nat} (hk : k ≤ a.size) :
    a.FoundBefore k (heightsOf (a.entries.toList.take k)) := by
  induction k with
  | zero => exact fun u _ hlt => absurd hlt (Nat.not_lt_zero _)
  | succ k ih =>
      intro u hu hlt
      have hin : k < a.entries.toList.length := by
        rw [Array.length_toList]
        exact hk
      have hsize := size_heightsOf_take (Nat.le_of_succ_le hk)
      have hfound := ih (Nat.le_of_succ_le hk)
      rw [← List.take_append_getElem hin, heightsOf_concat]
      generalize heightsOf (a.entries.toList.take k) = found at hsize hfound
      subst hsize
      rcases Nat.lt_succ_iff_lt_or_eq.mp hlt with hlt | hlast
      · rw [getD_push_of_lt hlt]
        exact hfound u hu hlt
      · have hentry : a.entries[u.label]? = some a.entries.toList[found.size] := by
          rw [hlast, ← Array.getElem?_toList, List.getElem?_eq_getElem hin]
        rw [hlast, getD_push_size]
        exact h.heightAfter_eq hu hentry (hlast ▸ hfound)

/-- The height of a tree that begins before a node is there when the pass comes to the node. -/
theorem Shows.getElem?_heightsOf (h : a.Shows t) {k : Nat} (hk : k ≤ a.size)
    (hu : u.LiesIn a.entries) (hlt : u.label < k) :
    (heightsOf (a.entries.toList.take k))[u.label]? = some u.height := by
  have hfound := h.foundBefore hk u hu hlt
  have hin : u.label < (heightsOf (a.entries.toList.take k)).size := by
    rw [size_heightsOf_take hk]
    exact hlt
  rw [Array.getD_eq_getD_getElem?, Array.getElem?_eq_getElem hin, Option.getD_some] at hfound
  rw [Array.getElem?_eq_getElem hin, hfound]

/-- The depth of an arena is the height of its tree. -/
theorem Shows.depth_eq (h : a.Shows t) : a.depth = t.height := by
  have hroot : t.label < a.size := by
    rw [h.root_eq, ← h.root_add_one]
    exact Nat.lt_succ_self _
  have hwhole : a.entries.toList.take a.size = a.entries.toList :=
    List.take_of_length_le (Nat.le_of_eq Array.length_toList)
  rw [depth, heights_eq, ← h.root_eq, ← hwhole]
  exact h.foundBefore (Nat.le_refl _) t h.liesIn hroot

end Arena

end TaskFarm.Expr
