import TaskFarm.Proofs.Expr.Counting
import TaskFarm.Proofs.Expr.Offence
import TaskFarm.Proofs.Expr.Shape

/-!
# Listed trees and where they are placed

While a forest grows along a token list, the tokens so far are the listings of some trees, one tree
after the other, and the forest holds these trees: each token has become the node at its own place
in the array.  A token that no tree can take ends the growth, and `Misplaced` is the rule for it.
-/

namespace TaskFarm.Expr

/-! ## Trees over tokens -/

namespace OpTree

/-- The part of the source from the first leaf of a tree to its last one. -/
def cover : OpTree Token → Span
  | leaf t _ => t.span
  | branch _ _ l r => l.cover.join r.cover

/-- A tree over tokens lies in an array at the indices that label a second tree of the same shape:
every token says what node it has become, and every node has its part of the source. -/
inductive PlacedAs (entries : Array Entry) : OpTree Token → OpTree Nat → Prop
  | leaf {t : Token} {text : String} {value : Float} {i : Nat} :
      t.kind = .numeral text → Decimal.parse? text = some value →
      entries[i]? = some ⟨.number value, t.span⟩ →
      PlacedAs entries (leaf t value) (leaf i value)
  | branch {t : Token} {op : Operator} {l r : OpTree Token} {l' r' : OpTree Nat} {i : Nat} :
      t.kind = .operator op → PlacedAs entries l l' → PlacedAs entries r r' →
      entries[i]? = some ⟨.binary op l'.label r'.label, l.cover.join r.cover⟩ →
      PlacedAs entries (branch t op l r) (branch i op l' r')

namespace PlacedAs

variable {entries : Array Entry} {tree : OpTree Token} {placed : OpTree Nat}

theorem spelledByLabels (h : tree.PlacedAs entries placed) : tree.SpelledByLabels := by
  induction h with
  | leaf hkind hvalue _ => exact ⟨_, hkind, hvalue⟩
  | branch hkind _ _ _ ihl ihr => exact ⟨hkind, ihl, ihr⟩

theorem bare_eq (h : tree.PlacedAs entries placed) : placed.bare = tree.bare := by
  induction h with
  | leaf _ _ _ => rfl
  | branch _ _ _ _ ihl ihr => simp only [bare, ihl, ihr]

/-- The root of a tree has the part of the source that the tree covers. -/
theorem span_label (h : tree.PlacedAs entries placed) :
    entries[placed.label]?.map Entry.span = some tree.cover := by
  cases h with
  | leaf _ _ hentry => simp [label, cover, hentry]
  | branch _ _ _ hentry => simp [label, cover, hentry]

theorem push (h : tree.PlacedAs entries placed) (e : Entry) :
    tree.PlacedAs (entries.push e) placed := by
  have hold : ∀ {i : Nat} {entry : Entry}, entries[i]? = some entry →
      (entries.push e)[i]? = some entry := by
    intro i entry hi
    have hlt : i < entries.size := (Array.getElem?_eq_some_iff.mp hi).1
    rw [Array.getElem?_push_lt hlt, ← Array.getElem?_eq_getElem hlt, hi]
  induction h with
  | leaf hkind hvalue hentry => exact .leaf hkind hvalue (hold hentry)
  | branch hkind _ _ hentry ihl ihr => exact .branch hkind ihl ihr (hold hentry)

end PlacedAs

/-- The listing of a tree has one numeral more than it has operators. -/
theorem SpelledByLabels.count {tree : OpTree Token} (h : tree.SpelledByLabels) :
    numeralsIn tree.postOrder = operatorsIn tree.postOrder + 1 := by
  induction tree with
  | leaf t value =>
      obtain ⟨text, hkind, -⟩ := h
      simp [postOrder, Token.isNumeral, Token.isOperator, hkind]
  | branch t op l r ihl ihr =>
      obtain ⟨hkind, hl, hr⟩ := h
      have hleft := ihl hl
      have hright := ihr hr
      obtain ⟨hnumerals, hoperators⟩ := count_concat_operator (l.postOrder ++ r.postOrder) hkind
      simp only [postOrder, hnumerals, hoperators, numeralsIn_append, operatorsIn_append]
      omega

/-- Listings one after the other have one more numeral for each tree. -/
theorem count_flatMap {trees : List (OpTree Token)} (h : ∀ tree ∈ trees, tree.SpelledByLabels) :
    numeralsIn (trees.flatMap postOrder) =
      operatorsIn (trees.flatMap postOrder) + trees.length := by
  induction trees with
  | nil => rfl
  | cons tree trees ih =>
      have hfirst := (h tree (by simp)).count
      have hrest := ih fun u hu => h u (by simp [hu])
      simp only [List.flatMap_cons, numeralsIn_append, operatorsIn_append, List.length_cons]
      omega

end OpTree

/-! ## Forests along a listing -/

/-- A forest holds the trees that a token list lists, the latest one first. -/
structure Forest.Lists (f : Forest) (tokens : List Token) (trees : List (OpTree Token))
    (placed : List (OpTree Nat)) : Prop where
  shows : f.Shows placed
  placedAs : List.Forall₂ (OpTree.PlacedAs f.entries) trees placed
  postOrder_eq : trees.reverse.flatMap OpTree.postOrder = tokens

/-- The rule for the next token of a listing: a numeral has to be a number, an operator needs two
operands that are not yet joined, and no parenthesis may come. -/
inductive Misplaced (before : List Token) (t : Token) : CompileError → Prop
  | unreadable {text : String} : t.kind = .numeral text → Decimal.parse? text = none →
      Misplaced before t (.malformedToken text t.span)
  | parenthesis : t.kind = .openParen ∨ t.kind = .closeParen →
      Misplaced before t (.malformed .parenthesis t.span)
  | missingOperand {op : Operator} : t.kind = .operator op →
      numeralsIn before < operatorsIn before + 2 →
      Misplaced before t (.malformed (.missingOperand op) t.span)

namespace Forest

variable {f g : Forest} {tokens : List Token} {trees : List (OpTree Token)}
  {placed : List (OpTree Nat)} {t : Token}

/-- An operator needs two roots. -/
theorem grow_operator_of_length_lt {op : Operator} (hkind : t.kind = .operator op)
    (hroots : f.roots.length < 2) :
    f.grow t = .error (.malformed (.missingOperand op) t.span) := by
  rcases hlist : f.roots with _ | ⟨root, _ | ⟨second, others⟩⟩
  · simp [grow, hkind, hlist]
  · simp [grow, hkind, hlist]
  · rw [hlist] at hroots
    exact absurd hroots (by simp)

theorem lists_empty : empty.Lists [] [] [] :=
  ⟨shows_empty, .nil, rfl⟩

namespace Lists

theorem spelledByLabels (h : f.Lists tokens trees placed) :
    ∀ tree ∈ trees, tree.SpelledByLabels := by
  have hplaced := h.placedAs
  clear h
  induction hplaced with
  | nil => simp
  | cons hfirst _ ih => exact List.forall_mem_cons.mpr ⟨hfirst.spelledByLabels, ih⟩

/-- There are as many trees as there are more numerals than operators. -/
theorem count (h : f.Lists tokens trees placed) :
    numeralsIn tokens = operatorsIn tokens + trees.length := by
  rw [← h.postOrder_eq, ← List.length_reverse]
  exact OpTree.count_flatMap fun tree htree => h.spelledByLabels tree (List.mem_reverse.mp htree)

theorem roots_length (h : f.Lists tokens trees placed) : f.roots.length = trees.length := by
  rw [← h.shows.roots_eq, List.length_map, h.placedAs.length_eq]

/-- A numeral that is a number becomes a leaf. -/
theorem numeral (h : f.Lists tokens trees placed) {text : String} {value : Float}
    (hkind : t.kind = .numeral text) (hvalue : Decimal.parse? text = some value) :
    ∃ g, f.grow t = .ok g ∧
      g.Lists (tokens ++ [t]) (.leaf t value :: trees) (.leaf f.entries.size value :: placed) := by
  refine ⟨_, by simp [grow, hkind, hvalue], h.shows.leaf value t.span, ?_, ?_⟩
  · refine .cons (.leaf hkind hvalue (by simp [add])) ?_
    exact h.placedAs.imp fun _ _ hplaced => hplaced.push _
  · simp [OpTree.postOrder, h.postOrder_eq]

/-- An operator joins the two latest trees. -/
theorem operator {l r : OpTree Token} {l' r' : OpTree Nat}
    (h : f.Lists tokens (r :: l :: trees) (r' :: l' :: placed)) {op : Operator}
    (hkind : t.kind = .operator op) :
    ∃ g, f.grow t = .ok g ∧ g.Lists (tokens ++ [t]) (.branch t op l r :: trees)
      (.branch f.entries.size op l' r' :: placed) := by
  have hroots : f.roots = r'.label :: l'.label :: placed.map OpTree.label :=
    h.shows.roots_eq.symm
  obtain ⟨hr, hplaced⟩ := List.forall₂_cons.mp h.placedAs
  obtain ⟨hl, hplaced⟩ := List.forall₂_cons.mp hplaced
  have hspan : ∀ {tree : OpTree Token} {u : OpTree Nat}, tree.PlacedAs f.entries u →
      f.spanAt u.label = tree.cover := by
    intro tree u hu
    obtain ⟨entry, hentry, hcover⟩ := Option.map_eq_some_iff.mp hu.span_label
    simp [spanAt, hentry, hcover]
  have hgrow : f.grow t = .ok (f.add (.binary op l'.label r'.label) (l.cover.join r.cover)
      (placed.map OpTree.label)) := by
    simp [grow, hkind, hroots, hspan hl, hspan hr]
  refine ⟨_, hgrow, h.shows.branch op _, ?_, ?_⟩
  · refine .cons (.branch hkind (hl.push _) (hr.push _) (by simp [add])) ?_
    exact hplaced.imp fun _ _ hplaced => hplaced.push _
  · rw [← h.postOrder_eq]
    simp [OpTree.postOrder]

/-- The next token makes the forest grow, unless it is misplaced. -/
theorem grow (h : f.Lists tokens trees placed) (t : Token) :
    (∃ g trees' placed', f.grow t = .ok g ∧ g.Lists (tokens ++ [t]) trees' placed' ∧
      ∀ e, ¬Misplaced tokens t e) ∨
    ∃ e, f.grow t = .error e ∧ Misplaced tokens t e := by
  cases hkind : t.kind with
  | numeral text =>
      cases hvalue : Decimal.parse? text with
      | none => exact .inr ⟨_, by simp [Forest.grow, hkind, hvalue], .unreadable hkind hvalue⟩
      | some value =>
          obtain ⟨g, hgrow, hg⟩ := h.numeral hkind hvalue
          refine .inl ⟨g, _, _, hgrow, hg, ?_⟩
          rintro e (⟨hkind', hnone⟩ | hkind' | ⟨hkind', -⟩)
          · cases hkind.symm.trans hkind'
            cases hvalue.symm.trans hnone
          · simp [hkind] at hkind'
          · cases hkind.symm.trans hkind'
  | operator op =>
      have hcount := h.count
      rcases trees with _ | ⟨r, _ | ⟨l, trees⟩⟩
      · have hroots : f.roots.length < 2 := by simp [h.roots_length]
        simp only [List.length_nil] at hcount
        exact .inr ⟨_, grow_operator_of_length_lt hkind hroots, .missingOperand hkind (by omega)⟩
      · have hroots : f.roots.length < 2 := by simp [h.roots_length]
        simp only [List.length_singleton] at hcount
        exact .inr ⟨_, grow_operator_of_length_lt hkind hroots, .missingOperand hkind (by omega)⟩
      · obtain ⟨r', _, -, hplaced, rfl⟩ := List.forall₂_cons_left_iff.mp h.placedAs
        obtain ⟨l', _, -, -, rfl⟩ := List.forall₂_cons_left_iff.mp hplaced
        obtain ⟨g, hgrow, hg⟩ := h.operator hkind
        refine .inl ⟨g, _, _, hgrow, hg, ?_⟩
        rintro e (⟨hkind', -⟩ | hkind' | ⟨-, hfew⟩)
        · cases hkind.symm.trans hkind'
        · simp [hkind] at hkind'
        · simp only [List.length_cons] at hcount
          omega
  | openParen | closeParen =>
      exact .inr ⟨_, by simp [Forest.grow, hkind], .parenthesis (by simp [hkind])⟩

end Lists

/-- Along a token list a forest grows up to the first token that is misplaced. -/
theorem foldlM_grow (tokens : List Token) :
    (∃ f trees placed, tokens.foldlM Forest.grow empty = .ok f ∧ f.Lists tokens trees placed ∧
      Inoffensive Misplaced tokens) ∨
    ∃ e, tokens.foldlM Forest.grow empty = .error e ∧ FirstOffence Misplaced tokens e := by
  induction tokens using List.reverseRecOn with
  | nil => exact .inl ⟨empty, [], [], rfl, lists_empty, inoffensive_nil⟩
  | append_singleton tokens t ih =>
      rw [List.foldlM_append]
      rcases ih with ⟨f, trees, placed, hfold, hf, hclean⟩ | ⟨e, hfold, hfirst⟩
      · have hstep : (tokens.foldlM Forest.grow empty >>= fun s => [t].foldlM Forest.grow s) =
            f.grow t := by
          rw [hfold]
          exact bind_pure (f.grow t)
        rw [hstep]
        rcases hf.grow t with ⟨g, trees', placed', hgrow, hg, hno⟩ | ⟨e, hgrow, ht⟩
        · exact .inl ⟨g, trees', placed', hgrow, hg, inoffensive_concat.mpr ⟨hclean, hno⟩⟩
        · exact .inr ⟨e, hgrow, firstOffence_concat.mpr (.inr ⟨hclean, ht⟩)⟩
      · refine .inr ⟨e, ?_, firstOffence_concat.mpr (.inl hfirst)⟩
        rw [hfold]
        rfl

theorem Lists.map_spanAt (h : f.Lists tokens trees placed) :
    f.roots.map f.spanAt = trees.map OpTree.cover := by
  have hplaced := h.placedAs
  rw [← h.shows.roots_eq]
  clear h
  induction hplaced with
  | nil => rfl
  | @cons tree u _ _ hfirst _ ih =>
      obtain ⟨entry, hentry, hcover⟩ := Option.map_eq_some_iff.mp hfirst.span_label
      simpa [spanAt, hentry, hcover] using ih

end Forest

/-! ## What becomes of a token list -/

/-- What comes of growing a tree along a token list: the tree that it lists, the error of the first
misplaced token, or an error if no tree or several trees are listed. -/
inductive Arena.Built (tokens : List Token) : Except CompileError Arena → Prop
  | tree {a : Arena} {tree : OpTree Token} {placed : OpTree Nat} :
      a.Shows placed → tree.PlacedAs a.entries placed → tree.postOrder = tokens →
      Inoffensive Misplaced tokens → Built tokens (.ok a)
  | misplaced {e : CompileError} : FirstOffence Misplaced tokens e → Built tokens (.error e)
  | empty : tokens = [] → Built tokens (.error (.malformed .empty ⟨0, 0⟩))
  | unjoined {first second last : OpTree Token} {rest : List (OpTree Token)} :
      (∀ tree ∈ first :: rest, tree.SpelledByLabels) →
      (first :: rest).flatMap OpTree.postOrder = tokens →
      rest.head? = some second → rest.getLast? = some last → Inoffensive Misplaced tokens →
      Built tokens
        (.error (.malformed (.unjoined (rest.length + 1)) (second.cover.join last.cover)))

/-- A forest of several trees names the second one and the last one. -/
theorem Forest.Lists.toArena_of_several {f : Forest} {tokens : List Token}
    {first last : OpTree Token} {init : List (OpTree Token)} {placed : List (OpTree Nat)}
    (h : f.Lists tokens (last :: (init ++ [first])) placed)
    (hclean : Inoffensive Misplaced tokens) : Arena.Built tokens f.toArena := by
  let second := (last :: init).getLast (List.cons_ne_nil _ _)
  have hsecond : (last :: (init ++ [first]))[init.length]? = some second := by
    rw [← List.cons_append, List.getElem?_append_left (by simp)]
    simp [second, List.getLast_eq_getElem]
  have hcovers := h.map_spanAt
  rcases hroots : f.roots with _ | ⟨root, _ | ⟨next, others⟩⟩
  · simp [hroots] at hcovers
  · simp [hroots] at hcovers
  rw [hroots] at hcovers
  have hlength : others.length = init.length := by simpa using congrArg List.length hcovers
  have hlast : f.spanAt root = last.cover := (List.cons.inj hcovers).1
  have hcover : f.spanAt ((root :: next :: others).getD others.length root) = second.cover := by
    have hmap := congrArg (fun spans => spans[init.length]?) hcovers
    simp only [List.getElem?_map, hsecond, Option.map_some] at hmap
    obtain ⟨i, hi, hspan⟩ := Option.map_eq_some_iff.mp hmap
    rw [hlength, List.getD_eq_getElem?_getD, hi]
    exact hspan
  have hunjoined : f.toArena = .error (.malformed
      (.unjoined ((last :: init).reverse.length + 1)) (second.cover.join last.cover)) := by
    simp [Forest.toArena, hroots, hlength, hlast, ← hcover]
  have hspelled : ∀ tree ∈ first :: (last :: init).reverse, tree.SpelledByLabels := by
    intro tree htree
    refine h.spelledByLabels tree ?_
    simp only [List.mem_cons, List.mem_reverse, List.mem_append] at htree ⊢
    tauto
  rw [hunjoined]
  refine .unjoined hspelled ?_ ?_ ?_ hclean
  · rw [← h.postOrder_eq]
    simp
  · rw [List.head?_reverse]
    exact List.getLast?_eq_getLast_of_ne_nil _
  · simp

theorem Arena.built_ofPostOrder (tokens : List Token) : Built tokens (ofPostOrder tokens) := by
  unfold ofPostOrder
  rcases Forest.foldlM_grow tokens with ⟨f, trees, placed, hfold, hf, hclean⟩ | ⟨e, hfold, hfirst⟩
  · rw [hfold]
    change Built tokens f.toArena
    rcases trees with _ | ⟨last, others⟩
    · have hroots : f.roots = [] := List.length_eq_zero_iff.mp hf.roots_length
      rw [Forest.toArena, hroots]
      exact .empty hf.postOrder_eq.symm
    rcases List.eq_nil_or_concat others with rfl | ⟨init, first, rfl⟩
    · obtain ⟨placed, _, hplaced, hnone, rfl⟩ := List.forall₂_cons_left_iff.mp hf.placedAs
      obtain rfl := List.forall₂_nil_left_iff.mp hnone
      have hroots : f.roots = [placed.label] := hf.shows.roots_eq.symm
      have hbuilt : f.toArena = .ok ⟨f.entries, placed.label⟩ := by
        simp [Forest.toArena, hroots]
      obtain ⟨a, harena, hshows⟩ := shows_of_toArena hf.shows
      cases harena.symm.trans hbuilt
      rw [hbuilt]
      exact .tree hshows hplaced (by simpa using hf.postOrder_eq) hclean
    · rw [List.concat_eq_append] at hf
      exact hf.toArena_of_several hclean
  · rw [hfold]
    exact .misplaced hfirst

end TaskFarm.Expr
