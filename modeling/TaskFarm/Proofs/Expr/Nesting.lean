import TaskFarm.Proofs.Expr.Blame
import TaskFarm.Proofs.Expr.Kinship

/-!
# How the spans of a tree lie in the source

Each node of a tree that was read has a part of the source.  The leaves have the numerals, from left
to right, and an operator reaches from the first leaf below it to the last one.  This holds for
every source that is accepted, wherever its operators stand, because putting the tokens into
post-order keeps the numerals in their order: the leaves of a tree over tokens are the numerals of
its listing, and the arena has a leaf for each of them.
-/

namespace TaskFarm.Expr

/-- Two related lists begin with related elements. -/
theorem exists_head?_of_forall₂ {α β : Type} {R : α → β → Prop} {xs : List α} {ys : List β}
    (h : List.Forall₂ R xs ys) {x : α} (hx : xs.head? = some x) :
    ∃ y, ys.head? = some y ∧ R x y := by
  obtain ⟨rest, rfl⟩ := List.head?_eq_some_iff.mp hx
  obtain ⟨y, others, hxy, -, rfl⟩ := List.forall₂_cons_left_iff.mp h
  exact ⟨y, rfl, hxy⟩

/-- Two related lists end with related elements. -/
theorem exists_getLast?_of_forall₂ {α β : Type} {R : α → β → Prop} {xs : List α} {ys : List β}
    (h : List.Forall₂ R xs ys) {x : α} (hx : xs.getLast? = some x) :
    ∃ y, ys.getLast? = some y ∧ R x y := by
  rw [← List.head?_reverse] at hx
  obtain ⟨y, hy, hxy⟩ := exists_head?_of_forall₂ (List.rel_reverse h) hx
  exact ⟨y, by rwa [List.head?_reverse] at hy, hxy⟩

/-! ## Leaves -/

/-- A leaf of an arena holds a numeral: it has its value and its place in the source. -/
def Token.Fills (entries : Array Entry) (t : Token) (leaf : Nat × Float) : Prop :=
  (∃ text, t.kind = .numeral text ∧ Decimal.parse? text = some leaf.2) ∧
    entries[leaf.1]? = some ⟨.number leaf.2, t.span⟩

namespace OpTree

variable {α : Type} {entries : Array Entry} {tree : OpTree Token} {placed : OpTree Nat}

theorem leaves_infix {t u : OpTree α} (h : u ∈ t.subtrees) : u.leaves <:+: t.leaves := by
  induction t with
  | leaf i v =>
      obtain rfl := List.mem_singleton.mp h
      exact List.infix_rfl
  | branch i op l r ihl ihr =>
      simp only [subtrees, List.mem_append, List.mem_singleton] at h
      rcases h with (h | h) | rfl
      · exact (ihl h).trans (List.prefix_append _ _).isInfix
      · exact (ihr h).trans (List.suffix_append _ _).isInfix
      · exact List.infix_rfl

/-- The leaves of a tree over tokens are the numerals of its listing. -/
theorem SpelledByLabels.filter_isNumeral (h : tree.SpelledByLabels) :
    tree.postOrder.filter Token.isNumeral = tree.leaves.map Prod.fst := by
  induction tree with
  | leaf t value =>
      obtain ⟨text, hkind, -⟩ := h
      simp [postOrder, leaves, Token.isNumeral, hkind]
  | branch t op l r ihl ihr =>
      obtain ⟨hkind, hl, hr⟩ := h
      simp [postOrder, leaves, ihl hl, ihr hr, Token.isNumeral, hkind]

namespace PlacedAs

theorem of_mem_subtrees (h : tree.PlacedAs entries placed) {u : OpTree Nat}
    (hu : u ∈ placed.subtrees) : ∃ part ∈ tree.subtrees, part.PlacedAs entries u := by
  induction h with
  | leaf hkind hvalue hentry =>
      obtain rfl := List.mem_singleton.mp hu
      exact ⟨_, List.mem_singleton_self _, .leaf hkind hvalue hentry⟩
  | branch hkind hl hr hentry ihl ihr =>
      simp only [subtrees, List.mem_append, List.mem_singleton] at hu ⊢
      rcases hu with (hu | hu) | rfl
      · obtain ⟨part, hpart, hplaced⟩ := ihl hu
        exact ⟨part, .inl (.inl hpart), hplaced⟩
      · obtain ⟨part, hpart, hplaced⟩ := ihr hu
        exact ⟨part, .inl (.inr hpart), hplaced⟩
      · exact ⟨_, .inr rfl, .branch hkind hl hr hentry⟩

theorem fills (h : tree.PlacedAs entries placed) :
    List.Forall₂ (Token.Fills entries) (tree.leaves.map Prod.fst) placed.leaves := by
  induction h with
  | leaf hkind hvalue hentry => exact .cons ⟨⟨_, hkind, hvalue⟩, hentry⟩ .nil
  | branch _ _ _ _ ihl ihr =>
      rw [leaves, leaves, List.map_append]
      exact List.rel_append ihl ihr

/-- What a tree covers begins with the numeral of its first leaf and ends with that of its last
one. -/
theorem exists_ends (h : tree.PlacedAs entries placed) :
    ∃ first last leaf leaf', ReachesOver tree.postOrder first last ∧
      tree.cover = first.span.join last.span ∧
      placed.leaves.head? = some leaf ∧ placed.leaves.getLast? = some leaf' ∧
      first.Fills entries leaf ∧ last.Fills entries leaf' := by
  obtain ⟨first, last, hreach, hcover⟩ := h.spelledByLabels.exists_reachesOver
  obtain ⟨hfirst, hlast⟩ := id hreach
  rw [h.spelledByLabels.filter_isNumeral] at hfirst hlast
  obtain ⟨leaf, hleaf, hfills⟩ := exists_head?_of_forall₂ h.fills hfirst
  obtain ⟨leaf', hleaf', hfills'⟩ := exists_getLast?_of_forall₂ h.fills hlast
  exact ⟨first, last, leaf, leaf', hreach, hcover, hleaf, hleaf', hfills, hfills'⟩

end PlacedAs

end OpTree

/-! ## Read trees -/

/-- An arena shows a tree that was read from the tokens of a source.  The listing of the tokens has
the same numerals as they in the same order, so that the leaves of the tree are these numerals. -/
structure Arena.ReadFrom (a : Arena) (source : String) (tokens : List Token) (tree : OpTree Token)
    (placed : OpTree Nat) : Prop where
  lexing : Lexing [] source.toList tokens
  shows : a.Shows placed
  placedAs : tree.PlacedAs a.entries placed
  numerals : tree.leaves.map Prod.fst = tokens.filter Token.isNumeral

theorem exists_readFrom {source : String} {a : Arena} (h : parse source = .ok a) :
    ∃ tokens tree placed, tokenize source = .ok tokens ∧ a.ReadFrom source tokens tree placed ∧
      postOrder tokens = .ok tree.postOrder := by
  obtain ⟨tokens, listing, htokens, hlisting, harena⟩ := parse_eq_ok h
  have hreordered := reordered_postOrder tokens
  have hbuilt := Arena.built_ofPostOrder listing
  rw [hlisting] at hreordered
  rw [harena] at hbuilt
  cases hreordered with
  | listing _ _ hout =>
      cases hbuilt with
      | @tree _ tree placed hshows hplaced hlist _ =>
          subst hlist
          have hnumerals : tree.leaves.map Prod.fst = tokens.filter Token.isNumeral :=
            hplaced.spelledByLabels.filter_isNumeral.symm.trans hout.numerals
          exact ⟨tokens, tree, placed, htokens,
            ⟨lexing_of_tokenize htokens, hshows, hplaced, hnumerals⟩, hlisting⟩

namespace Arena.ReadFrom

variable {a : Arena} {source : String} {tokens : List Token} {tree : OpTree Token}
  {placed u : OpTree Nat} {part : OpTree Token}

/-- The numerals below a node stand next to each other among those of the source. -/
theorem leaves_infix (h : a.ReadFrom source tokens tree placed) (hpart : part ∈ tree.subtrees) :
    part.leaves.map Prod.fst <:+: tokens.filter Token.isNumeral := by
  rw [← h.numerals]
  exact (OpTree.leaves_infix hpart).map Prod.fst

/-- Under the span of a node stands a part of the source. -/
theorem exists_slice (h : a.ReadFrom source tokens tree placed) (hpart : part ∈ tree.subtrees)
    (hplaced : part.PlacedAs a.entries u) :
    ∃ cs, part.cover.slice? source.toList = some cs ∧ cs ≠ [] := by
  obtain ⟨first, last, hreach, hcover⟩ := hplaced.spelledByLabels.exists_reachesOver
  have hsub : (part.postOrder.filter Token.isNumeral).Sublist tokens := by
    rw [hplaced.spelledByLabels.filter_isNumeral]
    exact (h.leaves_infix hpart).sublist.trans List.filter_sublist
  have hfirst := hsub.subset (List.mem_of_mem_head? hreach.1)
  have hlast := hsub.subset (List.mem_of_mem_getLast? hreach.2)
  rw [hcover]
  exact h.lexing.exists_slice?_join hfirst hlast (hreach.sublist.imp_right fun hpair => hpair.trans hsub)

/-- The left operand of an operator ends before its right operand begins. -/
theorem cover_le (h : a.ReadFrom source tokens tree placed) {t : Token} {op : Operator}
    {l r : OpTree Token} (hpart : .branch t op l r ∈ tree.subtrees) (hl : l.SpelledByLabels)
    (hr : r.SpelledByLabels) : l.cover.stop ≤ r.cover.start := by
  obtain ⟨_, last, ⟨-, hlast⟩, hcover⟩ := hl.exists_reachesOver
  obtain ⟨first, _, ⟨hfirst, -⟩, hcover'⟩ := hr.exists_reachesOver
  rw [hl.filter_isNumeral] at hlast
  rw [hr.filter_isNumeral] at hfirst
  have hordered : (l.leaves.map Prod.fst ++ r.leaves.map Prod.fst).Pairwise
      fun t u => t.span.stop ≤ u.span.start := by
    rw [← List.map_append]
    exact h.lexing.ordered.sublist ((h.leaves_infix hpart).sublist.trans List.filter_sublist)
  rw [hcover, hcover']
  exact (List.pairwise_append.mp hordered).2.2 last (List.mem_of_mem_getLast? hlast) first
    (List.mem_of_mem_head? hfirst)

end Arena.ReadFrom

/-! ## Order and nesting -/

/-- The spans of the nodes of a tree are ordered and nested in the source. -/
structure Arena.Nests (a : Arena) (source : String) (tokens : List Token) (t : OpTree Nat) :
    Prop where
  /-- The leaves from left to right are the numerals of the source in their order, with their
  spans. -/
  leaves : List.Forall₂ (Token.Fills a.entries) (tokens.filter Token.isNumeral) t.leaves
  /-- A node begins where its first leaf begins, and ends where its last one ends. -/
  ends : ∀ i < a.size, ∃ u ∈ t.subtrees, u.label = i ∧ ∃ first last span span',
    u.leaves.head? = some first ∧ u.leaves.getLast? = some last ∧
    a.span? first.1 = some span ∧ a.span? last.1 = some span' ∧
    a.span? i = some (span.join span')
  /-- The left operand of an operator ends before its right operand begins, and both lie inside of
  the operator's span. -/
  apart : ∀ i op left right, a.node? i = some (.binary op left right) → ∃ span span',
    a.span? left = some span ∧ a.span? right = some span' ∧ span.stop ≤ span'.start ∧
    a.span? i = some (span.join span')
  /-- Under each span stands a part of the source. -/
  slices : ∀ i < a.size, ∃ span cs,
    a.span? i = some span ∧ span.slice? source.toList = some cs ∧ cs ≠ []

theorem Arena.ReadFrom.nests {a : Arena} {source : String} {tokens : List Token}
    {tree : OpTree Token} {placed : OpTree Nat} (h : a.ReadFrom source tokens tree placed) :
    a.Nests source tokens placed where
  leaves := h.numerals ▸ h.placedAs.fills
  ends := by
    intro i hi
    obtain ⟨u, hu, rfl⟩ := h.shows.exists_subtree hi
    obtain ⟨part, -, hplaced⟩ := h.placedAs.of_mem_subtrees hu
    obtain ⟨first, last, leaf, leaf', -, hcover, hleaf, hleaf', hfills, hfills'⟩ :=
      hplaced.exists_ends
    refine ⟨u, hu, rfl, leaf, leaf', first.span, last.span, hleaf, hleaf', ?_, ?_, ?_⟩
    · rw [Arena.span?, hfills.2]
      rfl
    · rw [Arena.span?, hfills'.2]
      rfl
    · rw [Arena.span?, hplaced.span_label, hcover]
  apart := by
    intro i op left right hnode
    obtain ⟨l', r', hu, rfl, rfl⟩ := h.shows.exists_branch hnode
    obtain ⟨part, hpart, hplaced⟩ := h.placedAs.of_mem_subtrees hu
    cases hplaced with
    | branch hkind hl hr hentry =>
        refine ⟨_, _, hl.span_label, hr.span_label, ?_, by simp [Arena.span?, hentry]⟩
        exact h.cover_le hpart hl.spelledByLabels hr.spelledByLabels
  slices := by
    intro i hi
    obtain ⟨u, hu, rfl⟩ := h.shows.exists_subtree hi
    obtain ⟨part, hpart, hplaced⟩ := h.placedAs.of_mem_subtrees hu
    obtain ⟨cs, hslice, hne⟩ := h.exists_slice hpart hplaced
    exact ⟨part.cover, cs, hplaced.span_label, hslice, hne⟩

/-- The spans of every tree that is read are ordered and nested, also where the operators of the
source do not stand between their operands. -/
theorem parse_nests {source : String} {a : Arena} (h : parse source = .ok a) :
    ∃ tokens t, tokenize source = .ok tokens ∧ a.Shows t ∧ a.Nests source tokens t := by
  obtain ⟨tokens, tree, placed, htokens, hread, -⟩ := exists_readFrom h
  exact ⟨tokens, placed, htokens, hread.shows, hread.nests⟩

/-- In `+ (1) 2` the operator stands before its operands, and its span begins behind it. -/
theorem parse_nests_ahead :
    ∃ a, parse "+ (1) 2" = .ok a ∧ a.span? a.root = some ⟨3, 7⟩ ∧
      ∃ tokens t, tokenize "+ (1) 2" = .ok tokens ∧ a.Shows t ∧ a.Nests "+ (1) 2" tokens t :=
  ⟨_, rfl, rfl, parse_nests rfl⟩

end TaskFarm.Expr
