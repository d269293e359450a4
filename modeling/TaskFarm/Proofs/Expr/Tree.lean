import TaskFarm.Expr.Parse
import Mathlib.Data.List.Nodup
import Mathlib.Data.List.Range

/-!
# The tree in an arena

An arena names children by their index.  A labelled tree says the same by its shape, so that facts
about all nodes can be proved along the shape.  This module relates the two: while the forest grows
along a post-order listing, it always shows a list of trees whose indices, read in post-order, are
all indices in order.  Hence every arena that is built shows one tree, and each of its nodes stands
at exactly one place of that tree.
-/

namespace TaskFarm.Expr

/-- A tree of operators over numbers, each of whose nodes carries a label. -/
inductive OpTree (α : Type) where
  | leaf (label : α) (value : Float)
  | branch (label : α) (op : Operator) (left right : OpTree α)

namespace OpTree

variable {α : Type}

/-- The label of the root. -/
def label : OpTree α → α
  | leaf i _ => i
  | branch i _ _ _ => i

/-- The labels of all nodes, those of the operands before that of their operator. -/
def postOrder : OpTree α → List α
  | leaf i _ => [i]
  | branch i _ l r => l.postOrder ++ r.postOrder ++ [i]

/-- The labels of the operators, in post-order. -/
def operators : OpTree α → List α
  | leaf _ _ => []
  | branch i _ l r => l.operators ++ r.operators ++ [i]

/-- The tree without its labels: operators, operands and numbers. -/
def bare : OpTree α → OpTree Unit
  | leaf _ v => leaf () v
  | branch _ op l r => branch () op l.bare r.bare

/-- The nodes of the tree lie in an array at the indices that label them. -/
def LiesIn (entries : Array Entry) : OpTree Nat → Prop
  | leaf i v => entries[i]?.map Entry.node = some (.number v)
  | branch i op l r =>
    entries[i]?.map Entry.node = some (.binary op l.label r.label) ∧
      l.LiesIn entries ∧ r.LiesIn entries

theorem operators_sublist_postOrder (t : OpTree α) :
    t.operators.Sublist t.postOrder := by
  induction t with
  | leaf i v => exact List.nil_sublist _
  | branch i op l r ihl ihr =>
      exact (ihl.append ihr).append (List.Sublist.refl [i])

theorem label_mem_postOrder (t : OpTree α) : t.label ∈ t.postOrder := by
  cases t <;> simp [label, postOrder]

theorem LiesIn.mem_operators {entries : Array Entry} {t : OpTree Nat} (h : t.LiesIn entries)
    {i left right : Nat} {op : Operator} (hi : i ∈ t.postOrder)
    (hnode : entries[i]?.map Entry.node = some (.binary op left right)) : i ∈ t.operators := by
  induction t with
  | leaf j v =>
      cases List.mem_singleton.mp hi
      cases hnode.symm.trans h
  | branch j o l r ihl ihr =>
      simp only [postOrder, List.mem_append, List.mem_singleton] at hi
      simp only [operators, List.mem_append, List.mem_singleton]
      rcases hi with (hi | hi) | hi
      · exact .inl (.inl (ihl h.2.1 hi))
      · exact .inl (.inr (ihr h.2.2 hi))
      · exact .inr hi

theorem LiesIn.child_lt {entries : Array Entry} {t : OpTree Nat} (h : t.LiesIn entries)
    (hsorted : t.postOrder.Pairwise (· < ·)) {i left right : Nat} {op : Operator}
    (hi : i ∈ t.operators)
    (hnode : entries[i]?.map Entry.node = some (.binary op left right)) :
    left < i ∧ right < i := by
  induction t with
  | leaf j v => cases hi
  | branch j o l r ihl ihr =>
      obtain ⟨hparts, -, hbefore⟩ := List.pairwise_append.mp hsorted
      obtain ⟨hl, hr, -⟩ := List.pairwise_append.mp hparts
      simp only [operators, List.mem_append, List.mem_singleton] at hi
      rcases hi with (hi | hi) | rfl
      · exact ihl h.2.1 hl hi
      · exact ihr h.2.2 hr hi
      · cases hnode.symm.trans h.1
        have hleft := hbefore _ (List.mem_append_left _ l.label_mem_postOrder) i (by simp)
        have hright := hbefore _ (List.mem_append_right _ r.label_mem_postOrder) i (by simp)
        exact ⟨hleft, hright⟩

theorem LiesIn.push {entries : Array Entry} {t : OpTree Nat}
    (h : t.LiesIn entries) (e : Entry) : t.LiesIn (entries.push e) := by
  have hold : ∀ {i : Nat} {node : Node}, entries[i]?.map Entry.node = some node →
      (entries.push e)[i]?.map Entry.node = some node := by
    intro i node hi
    obtain ⟨entry, hentry, hnode⟩ := Option.map_eq_some_iff.mp hi
    have hlt : i < entries.size := (Array.getElem?_eq_some_iff.mp hentry).1
    rw [Array.getElem?_push_lt hlt, ← Array.getElem?_eq_getElem hlt, hentry]
    exact congrArg some hnode
  induction t with
  | leaf i v => exact hold h
  | branch i op l r ihl ihr =>
      exact ⟨hold h.1, ihl h.2.1, ihr h.2.2⟩

/-- The nodes of an array below an index form one tree at most. -/
theorem LiesIn.eq_of_label {entries : Array Entry} {t u : OpTree Nat} (ht : t.LiesIn entries)
    (hu : u.LiesIn entries) (hlabel : t.label = u.label) : t = u := by
  induction t generalizing u with
  | leaf i v =>
      cases u with
      | leaf j v' =>
          cases hlabel
          cases ht.symm.trans hu
          rfl
      | branch j op l r =>
          cases hlabel
          cases ht.symm.trans hu.1
  | branch i op l r ihl ihr =>
      cases u with
      | leaf j v =>
          cases hlabel
          cases ht.1.symm.trans hu
      | branch j op' l' r' =>
          cases hlabel
          have hnode := ht.1.symm.trans hu.1
          simp only [Option.some.injEq, Node.binary.injEq] at hnode
          obtain ⟨rfl, hl, hr⟩ := hnode
          rw [ihl ht.2.1 hu.2.1 hl, ihr ht.2.2 hu.2.2 hr]

end OpTree

/-! ## Growing forests -/

/-- A forest shows a list of trees, the latest one first: its roots are theirs, and their nodes,
tree after tree in the order of growth, are all nodes in order. -/
structure Forest.Shows (f : Forest) (trees : List (OpTree Nat)) : Prop where
  roots_eq : trees.map OpTree.label = f.roots
  liesIn : ∀ t ∈ trees, t.LiesIn f.entries
  postOrder_eq : trees.reverse.flatMap OpTree.postOrder = List.range f.entries.size

namespace Forest

theorem shows_empty : empty.Shows [] :=
  ⟨rfl, by simp, rfl⟩

/-- A numeral adds a tree of one leaf. -/
theorem Shows.leaf {f : Forest} {trees : List (OpTree Nat)}
    (h : f.Shows trees) (value : Float) (span : Span) :
    (f.add (.number value) span f.roots).Shows (.leaf f.entries.size value :: trees) := by
  refine ⟨?_, ?_, ?_⟩
  · simp [add, OpTree.label, h.roots_eq]
  · intro t ht
    rcases List.mem_cons.mp ht with rfl | ht
    · simp [OpTree.LiesIn, add]
    · exact (h.liesIn t ht).push _
  · simp [add, OpTree.postOrder, List.range_succ, h.postOrder_eq]

/-- An operator joins the two latest trees. -/
theorem Shows.branch {f : Forest} {l r : OpTree Nat} {trees : List (OpTree Nat)}
    (h : f.Shows (r :: l :: trees)) (op : Operator) (span : Span) :
    (f.add (.binary op l.label r.label) span (trees.map OpTree.label)).Shows
      (.branch f.entries.size op l r :: trees) := by
  refine ⟨rfl, ?_, ?_⟩
  · intro t ht
    rcases List.mem_cons.mp ht with rfl | ht
    · exact ⟨by simp [add], (h.liesIn l (by simp)).push _, (h.liesIn r (by simp)).push _⟩
    · exact (h.liesIn t (by simp [ht])).push _
  · have hall := h.postOrder_eq
    simp only [List.reverse_cons, List.flatMap_append, List.flatMap_singleton,
      List.append_assoc] at hall
    simp [add, OpTree.postOrder, List.range_succ, ← hall]

/-- Whatever token a forest grows by, it shows trees again. -/
theorem Shows.grow {f g : Forest} {trees : List (OpTree Nat)} {t : Token}
    (h : f.Shows trees) (hg : f.grow t = .ok g) : ∃ more, g.Shows more := by
  unfold Forest.grow at hg
  split at hg
  · split at hg
    · next value _ =>
      cases hg
      exact ⟨_, h.leaf value t.span⟩
    · cases hg
  · split at hg
    · next right left below hroots =>
      cases hg
      have hlabels := h.roots_eq.trans hroots
      match trees, hlabels with
      | r :: l :: others, hlabels =>
        simp only [List.map_cons, List.cons.injEq] at hlabels
        obtain ⟨rfl, rfl, rfl⟩ := hlabels
        exact ⟨_, h.branch _ _⟩
    · cases hg
  · cases hg
  · cases hg

theorem Shows.foldlM {tokens : List Token} {f g : Forest} {trees : List (OpTree Nat)}
    (h : f.Shows trees) (hg : tokens.foldlM Forest.grow f = .ok g) : ∃ more, g.Shows more := by
  induction tokens generalizing f trees with
  | nil =>
      cases hg
      exact ⟨trees, h⟩
  | cons t rest ih =>
      rw [List.foldlM_cons] at hg
      cases hstep : f.grow t with
      | error e =>
          rw [hstep] at hg
          cases hg
      | ok next =>
          rw [hstep] at hg
          obtain ⟨more, hmore⟩ := h.grow hstep
          exact ih hmore hg

end Forest

/-! ## The tree of an arena -/

/-- An arena shows a tree: the tree begins at the root of the arena, and its nodes in post-order
are all nodes of the arena in order. -/
structure Arena.Shows (a : Arena) (t : OpTree Nat) : Prop where
  root_eq : t.label = a.root
  liesIn : t.LiesIn a.entries
  postOrder_eq : t.postOrder = List.range a.size

namespace Arena

theorem Shows.postOrder_sorted {a : Arena} {t : OpTree Nat} (h : a.Shows t) :
    t.postOrder.Pairwise (· < ·) :=
  h.postOrder_eq ▸ List.pairwise_lt_range

theorem Shows.operators_sorted {a : Arena} {t : OpTree Nat} (h : a.Shows t) :
    t.operators.Pairwise (· < ·) :=
  h.postOrder_sorted.sublist t.operators_sublist_postOrder

theorem Shows.operators_nodup {a : Arena} {t : OpTree Nat} (h : a.Shows t) :
    t.operators.Nodup :=
  h.operators_sorted.imp Nat.ne_of_lt

/-- The operators with smaller indices than an operator come before it. -/
theorem Shows.mem_before {a : Arena} {t : OpTree Nat} (h : a.Shows t) {before rest : List Nat}
    {node i : Nat} (hall : before ++ node :: rest = t.operators) (hi : i ∈ t.operators)
    (hlt : i < node) : i ∈ before := by
  have hsorted : (node :: rest).Pairwise (· < ·) :=
    (List.pairwise_append.mp (hall ▸ h.operators_sorted)).2.1
  rcases List.mem_append.mp (hall ▸ hi) with hi | hi
  · exact hi
  · have hle : node ≤ i := by
      rcases List.mem_cons.mp hi with rfl | hi
      · exact Nat.le_refl _
      · exact Nat.le_of_lt ((List.pairwise_cons.mp hsorted).1 i hi)
    exact absurd hlt (Nat.not_lt.mpr hle)

/-- Every operator of the arena is one of the tree. -/
theorem Shows.mem_operators {a : Arena} {t : OpTree Nat} (h : a.Shows t) {i left right : Nat}
    {op : Operator} (hnode : a.node? i = some (.binary op left right)) : i ∈ t.operators := by
  obtain ⟨entry, hentry, -⟩ := Option.map_eq_some_iff.mp hnode
  have hlt : i < a.size := (Array.getElem?_eq_some_iff.mp hentry).1
  exact h.liesIn.mem_operators (h.postOrder_eq ▸ List.mem_range.mpr hlt) hnode

theorem Shows.lt_size {a : Arena} {t : OpTree Nat} (h : a.Shows t) {i : Nat}
    (hi : i ∈ t.operators) : i < a.size := by
  have hall := t.operators_sublist_postOrder.subset hi
  rw [h.postOrder_eq] at hall
  exact List.mem_range.mp hall

/-- The operands of an operator have smaller indices. -/
theorem Shows.child_lt {a : Arena} {t : OpTree Nat} (h : a.Shows t) {i left right : Nat}
    {op : Operator} (hnode : a.node? i = some (.binary op left right)) :
    left < i ∧ right < i :=
  h.liesIn.child_lt h.postOrder_sorted (h.mem_operators hnode) hnode

/-- A forest of one tree becomes the arena of that tree. -/
theorem shows_of_toArena {f : Forest} {t : OpTree Nat} (h : f.Shows [t]) :
    ∃ a, f.toArena = .ok a ∧ a.Shows t := by
  have hroots : f.roots = [t.label] := h.roots_eq.symm
  refine ⟨⟨f.entries, t.label⟩, by simp [Forest.toArena, hroots], rfl, h.liesIn t (by simp), ?_⟩
  simpa [Arena.size] using h.postOrder_eq

/-- Every arena that is built from a listing shows a tree. -/
theorem exists_shows_of_ofPostOrder {tokens : List Token} {a : Arena}
    (h : ofPostOrder tokens = .ok a) : ∃ t, a.Shows t := by
  unfold ofPostOrder at h
  cases hf : tokens.foldlM Forest.grow Forest.empty with
  | error e =>
      rw [hf] at h
      cases h
  | ok f =>
      rw [hf] at h
      obtain ⟨trees, htrees⟩ := Forest.shows_empty.foldlM hf
      change f.toArena = .ok a at h
      match trees, htrees with
      | [], htrees => simp [Forest.toArena, ← htrees.roots_eq] at h
      | [t], htrees =>
        obtain ⟨b, hb, hshows⟩ := shows_of_toArena htrees
        cases hb.symm.trans h
        exact ⟨t, hshows⟩
      | t :: u :: others, htrees => simp [Forest.toArena, ← htrees.roots_eq] at h

theorem exists_shows_of_parse {source : String} {a : Arena}
    (h : parse source = .ok a) : ∃ t, a.Shows t := by
  unfold parse at h
  cases hlisting : (tokenize source).bind postOrder with
  | error e =>
      rw [hlisting] at h
      cases h
  | ok listing =>
      rw [hlisting] at h
      exact exists_shows_of_ofPostOrder h

end Arena

end TaskFarm.Expr
