import TaskFarm.Proofs.Expr.Cutting
import TaskFarm.Proofs.Expr.Extent
import TaskFarm.Proofs.Expr.Nesting

/-!
# The text of a node

Under the span of a node stands the text from the first numeral of its expression to the last one.
Parentheses that open in front of the first numeral or close behind the last one are not under the
span, and those that match them stand there alone.  Read by itself, the text has the tokens that
stand there; it is accepted just if their parentheses match, and then it has the tree that begins at
the node.
-/

namespace TaskFarm.Expr

/-! ## Moved trees -/

namespace OpTree

variable {α β : Type}

/-- The same tree with other labels. -/
def map (f : α → β) : OpTree α → OpTree β
  | leaf i v => leaf (f i) v
  | branch i op l r => branch (f i) op (l.map f) (r.map f)

theorem label_map (f : α → β) (t : OpTree α) : (t.map f).label = f t.label := by
  cases t <;> rfl

theorem bare_map (f : α → β) (t : OpTree α) : (t.map f).bare = t.bare := by
  induction t with
  | leaf i v => rfl
  | branch i op l r ihl ihr => simp only [map, bare, ihl, ihr]

theorem postOrder_map (f : α → β) (t : OpTree α) :
    (t.map f).postOrder = t.postOrder.map f := by
  induction t with
  | leaf i v => rfl
  | branch i op l r ihl ihr => simp only [map, postOrder, ihl, ihr, List.map_append]; rfl

theorem cover_map_shift (bytes : Nat) (t : OpTree Token) :
    (t.map (Token.shift bytes)).cover = t.cover.shift bytes := by
  induction t with
  | leaf t v => rfl
  | branch t op l r ihl ihr =>
      simp only [map, cover, ihl, ihr]
      rfl

end OpTree

theorem Token.kind_shift (bytes : Nat) (t : Token) : (t.shift bytes).kind = t.kind := rfl

/-- Parentheses match or not by the kinds of the tokens alone. -/
theorem Balanced.map {tokens : List Token} (h : Balanced tokens) {f : Token → Token}
    (hf : ∀ t, (f t).kind = t.kind) : Balanced (tokens.map f) := by
  induction h with
  | nil => exact .nil
  | numeral _ hkind hvalue ih =>
      rw [List.map_append]
      exact ih.numeral ((hf _).trans hkind) hvalue
  | operator _ hkind ih =>
      rw [List.map_append]
      exact ih.operator ((hf _).trans hkind)
  | group _ hopen _ hclose ih ihinner =>
      simp only [List.map_append, List.map_cons, List.map_nil]
      exact ih.group ((hf _).trans hopen) ihinner ((hf _).trans hclose)

/-- What is derived is derived by the kinds of the tokens alone. -/
theorem Derives.of_map {f : Token → Token} (hf : ∀ t, (f t).kind = t.kind) {level : Level}
    {tokens : List Token} {tree : OpTree Token} (h : Derives level (tokens.map f) tree) :
    ∃ u, Derives level tokens u ∧ u.map f = tree := by
  generalize hmap : tokens.map f = moved at h
  induction h generalizing tokens with
  | @numeral t text value hkind hvalue =>
      obtain ⟨u, rfl, rfl⟩ := List.map_eq_singleton_iff.mp hmap
      exact ⟨.leaf u value, .numeral ((hf u).symm.trans hkind) hvalue, rfl⟩
  | group hopen hclose _ ih =>
      obtain ⟨front, back, rfl, hfront, hback⟩ := List.map_eq_append_iff.mp hmap
      obtain ⟨opening, inner, rfl, rfl, hinner⟩ := List.map_eq_cons_iff.mp hfront
      obtain ⟨closing, rfl, rfl⟩ := List.map_eq_singleton_iff.mp hback
      obtain ⟨u, hu, hutree⟩ := ih hinner
      exact ⟨u, .group ((hf _).symm.trans hopen) ((hf _).symm.trans hclose) hu, hutree⟩
  | ofFactor _ ih =>
      obtain ⟨u, hu, hutree⟩ := ih hmap
      exact ⟨u, .ofFactor hu, hutree⟩
  | ofProduct _ ih =>
      obtain ⟨u, hu, hutree⟩ := ih hmap
      exact ⟨u, .ofProduct hu, hutree⟩
  | @multiplicative t op left right l r _ hkind hop _ ihl ihr =>
      obtain ⟨front, back, rfl, hfront, hback⟩ := List.map_eq_append_iff.mp hmap
      obtain ⟨t, rest, rfl, rfl, hrest⟩ := List.map_eq_cons_iff.mp hback
      obtain ⟨ul, hul, rfl⟩ := ihl hfront
      obtain ⟨ur, hur, rfl⟩ := ihr hrest
      exact ⟨.branch t op ul ur, .multiplicative hul ((hf t).symm.trans hkind) hop hur, rfl⟩
  | @additive t op left right l r _ hkind hop _ ihl ihr =>
      obtain ⟨front, back, rfl, hfront, hback⟩ := List.map_eq_append_iff.mp hmap
      obtain ⟨t, rest, rfl, rfl, hrest⟩ := List.map_eq_cons_iff.mp hback
      obtain ⟨ul, hul, rfl⟩ := ihl hfront
      obtain ⟨ur, hur, rfl⟩ := ihr hrest
      exact ⟨.branch t op ul ur, .additive hul ((hf t).symm.trans hkind) hop hur, rfl⟩

/-! ## Parts of an arena -/

/-- The node further behind in an array. -/
def Node.later (nodes : Nat) : Node → Node
  | .number value => .number value
  | .binary op left right => .binary op (nodes + left) (nodes + right)

/-- The entry further behind in an array and in the source. -/
def Entry.later (nodes bytes : Nat) (e : Entry) : Entry :=
  ⟨e.node.later nodes, e.span.shift bytes⟩

/-- An arena is what lies below a node of another one: the same entries from the first node below it
up to the node itself, which is the root, but with the nodes counted from there and with the spans
counted from a place of the source. -/
structure Arena.IsPart (b a : Arena) (first i bytes : Nat) : Prop where
  root_eq : first + b.root = i
  below_iff : ∀ j, a.Below i j ↔ ∃ k < b.size, j = first + k
  entries_eq : ∀ k < b.size, a.entries[first + k]? = b.entries[k]?.map (Entry.later first bytes)

theorem OpTree.PlacedAs.entries_later {entries entries' : Array Entry} {tree : OpTree Token}
    {v : OpTree Nat} (h : tree.PlacedAs entries' v) {first bytes : Nat}
    (h' : (tree.map (Token.shift bytes)).PlacedAs entries (v.map (first + ·))) {k : Nat}
    (hk : k ∈ v.postOrder) :
    entries[first + k]? = entries'[k]?.map (Entry.later first bytes) := by
  induction h generalizing k with
  | leaf _ _ hentry =>
      obtain rfl := List.mem_singleton.mp hk
      cases h' with
      | leaf _ _ hentry' =>
          rw [hentry, hentry']
          rfl
  | branch _ hl hr hentry ihl ihr =>
      simp only [map] at h'
      cases h' with
      | branch _ hl' hr' hentry' =>
          simp only [postOrder, List.mem_append, List.mem_singleton] at hk
          rcases hk with (hk | hk) | rfl
          · exact ihl hl' hk
          · exact ihr hr' hk
          · rw [hentry, hentry', label_map, label_map, cover_map_shift, cover_map_shift]
            rfl

/-- A tree of a source and a part of another one that is the same tree further behind make a part of
its arena. -/
theorem Arena.Shows.exists_isPart {a b : Arena} {t u v : OpTree Nat} (ha : a.Shows t)
    (hu : u ∈ t.subtrees) (hb : b.Shows v) {tree : OpTree Token} {bytes : Nat}
    (hplaced : (tree.map (Token.shift bytes)).PlacedAs a.entries u)
    (hplaced' : tree.PlacedAs b.entries v) : ∃ first, b.IsPart a first u.label bytes := by
  obtain ⟨first, count, hnodes⟩ := ha.exists_postOrder_eq_range' hu
  have hbare : u.bare = v.bare := by
    rw [hplaced.bare_eq, hplaced'.bare_eq, OpTree.bare_map]
  have hsame : u = v.map (first + ·) := by
    refine OpTree.eq_of_bare (hbare.trans (OpTree.bare_map _ v).symm) ?_
    have hcount : b.size = count := by
      rw [hb.size_eq, ← OpTree.length_postOrder_of_bare hbare, hnodes, List.length_range']
    rw [OpTree.postOrder_map, hnodes, hb.postOrder_eq, hcount, List.range'_eq_map_range]
  subst hsame
  refine ⟨first, ?_, fun j => ?_, fun k hk => ?_⟩
  · rw [OpTree.label_map, hb.root_eq]
  · rw [(ha.liesIn.of_mem_subtrees hu).below_iff, OpTree.postOrder_map, hb.postOrder_eq]
    simp only [List.mem_map, List.mem_range]
    exact exists_congr fun k => and_congr_right fun _ => eq_comm
  · refine hplaced'.entries_later hplaced ?_
    rw [hb.postOrder_eq]
    exact List.mem_range.mpr hk

/-! ## Texts of nodes -/

/-- The tree of a derivation is the one that is read. -/
theorem Derives.exists_readFrom {source : String} {tokens : List Token} {tree : OpTree Token}
    (h : Derives .sum tokens tree) (htokens : tokenize source = .ok tokens) :
    ∃ a placed, parse source = .ok a ∧ a.ReadFrom source tokens tree placed := by
  obtain ⟨a, placed, ha, hshows, hbare⟩ := h.exists_parse htokens
  obtain ⟨tokens', tree', placed', htokens', hread, hlisting⟩ := Expr.exists_readFrom ha
  cases htokens.symm.trans htokens'
  obtain rfl : placed' = placed :=
    hread.shows.liesIn.eq_of_label hshows.liesIn (hread.shows.root_eq.trans hshows.root_eq.symm)
  obtain rfl : tree' = tree := by
    apply OpTree.eq_of_bare
    · rw [← hbare, hread.placedAs.bare_eq]
    · exact Except.ok.inj (hlisting.symm.trans h.postOrder_eq)
  exact ⟨a, placed', ha, hread⟩

theorem balanced_of_parse {source : String} {a : Arena} {tokens : List Token}
    (h : parse source = .ok a) (htokens : tokenize source = .ok tokens) : Balanced tokens := by
  obtain ⟨tokens', listing, htokens', hlisting, -⟩ := parse_eq_ok h
  cases htokens.symm.trans htokens'
  exact balanced_of_postOrderFrom hlisting (.closed .nil)

/-- Under the span of a node stands a text that can be tokenized.  It is accepted by itself just if
its parentheses match, and then its tree is the part of the whole tree that lies below the node. -/
def Arena.HasText (a : Arena) (source : String) (i : Nat) : Prop :=
  ∃ span part tokens, a.span? i = some span ∧ span.slice? source.toList = some part ∧
    tokenize (String.ofList part) = .ok tokens ∧
    ((∃ b, parse (String.ofList part) = .ok b) ↔ Balanced tokens) ∧
    ∀ b, parse (String.ofList part) = .ok b → ∃ first, b.IsPart a first i span.start

/-- Every node of an infix expression has a text. -/
theorem Derives.parse_hasText {source : String} {tokens : List Token} {tree : OpTree Token}
    (h : Derives .sum tokens tree) (htokens : tokenize source = .ok tokens) :
    ∃ a, parse source = .ok a ∧ ∀ i < a.size, a.HasText source i := by
  obtain ⟨a, placed, ha, hread⟩ := h.exists_readFrom htokens
  refine ⟨a, ha, fun i hi => ?_⟩
  obtain ⟨u, hu, rfl⟩ := hread.shows.exists_subtree hi
  obtain ⟨node, hnode, hplaced⟩ := hread.placedAs.of_mem_subtrees hu
  obtain ⟨middle, ⟨before, after, rfl⟩, hmiddle⟩ := h.exists_outright hnode
  obtain ⟨opens, inner, closes, hextent, hwhole⟩ := hmiddle.exists_extent
  obtain ⟨first, last, hfirst, hlast, hnumeral, hcover⟩ := hextent.ends
  have hparts : tokenize source = .ok (before ++ opens ++ inner ++ (closes ++ after)) := by
    rw [htokens, hextent.tokens_eq]
    simp
  obtain ⟨part, tokens', hslice, htokens', hmap⟩ := tokenize_slice hparts hfirst hlast hnumeral
  rw [← hcover] at hslice
  -- if its parentheses match, the text is the whole expression of the node
  have hread' : Balanced tokens' → ∃ b, parse (String.ofList part) = .ok b ∧
      ∃ k, b.IsPart a k u.label node.cover.start := by
    intro hbalanced
    have hmoved : Balanced (tokens'.map (Token.shift first.span.start)) :=
      hbalanced.map (Token.kind_shift _)
    have hderives := hmiddle.derives
    rw [← hwhole (hmap ▸ hmoved), ← hmap] at hderives
    obtain ⟨node', hderives', rfl⟩ := Derives.of_map (Token.kind_shift _) hderives
    obtain ⟨b, placed', hb, hread'⟩ := hderives'.exists_readFrom htokens'
    rw [hcover]
    exact ⟨b, hb, hread.shows.exists_isPart hu hread'.shows hplaced hread'.placedAs⟩
  refine ⟨node.cover, part, tokens', hplaced.span_label, hslice, htokens', ⟨?_, ?_⟩, ?_⟩
  · rintro ⟨b, hb⟩
    exact balanced_of_parse hb htokens'
  · intro hbalanced
    obtain ⟨b, hb, -⟩ := hread' hbalanced
    exact ⟨b, hb⟩
  · intro b hb
    obtain ⟨b', hb', hpart⟩ := hread' (balanced_of_parse hb htokens')
    cases hb.symm.trans hb'
    exact hpart

/-- The tokens of `8-(3-1)*2` are derived, and every node of its tree has a text. -/
theorem Derives.parse_hasText_nested :
    ∃ tokens tree, tokenize "8-(3-1)*2" = .ok tokens ∧ Derives .sum tokens tree ∧
      ∃ a, parse "8-(3-1)*2" = .ok a ∧ ∀ i < a.size, a.HasText "8-(3-1)*2" i := by
  have htokens : tokenize "8-(3-1)*2" = .ok _ := rfl
  have ha : parse "8-(3-1)*2" = .ok _ := rfl
  have hcomplete := ((balanced_of_parse ha htokens).complete (by decide)).1
  obtain ⟨tree, h⟩ := hcomplete.derived rfl
  exact ⟨_, tree, htokens, h, h.parse_hasText htokens⟩

/-- In `(1+2)*3` the opening parenthesis is not under the span of the product, but the closing one
is. -/
theorem Derives.parse_hasText_unbalanced :
    ∃ tokens tree a span part, tokenize "(1+2)*3" = .ok tokens ∧ Derives .sum tokens tree ∧
      parse "(1+2)*3" = .ok a ∧ a.span? a.root = some span ∧
      span.slice? "(1+2)*3".toList = some part ∧ ∀ b, parse (String.ofList part) ≠ .ok b := by
  have htokens : tokenize "(1+2)*3" = .ok _ := rfl
  have ha : parse "(1+2)*3" = .ok _ := rfl
  have hcomplete := ((balanced_of_parse ha htokens).complete (by decide)).1
  obtain ⟨tree, h⟩ := hcomplete.derived rfl
  refine ⟨_, tree, _, ⟨1, 7⟩, ['1', '+', '2', ')', '*', '3'], htokens, h, ha, rfl, by decide, ?_⟩
  intro b hb
  have herror : parse (String.ofList ['1', '+', '2', ')', '*', '3']) =
      .error (.mismatchedParentheses ⟨3, 4⟩) := rfl
  cases hb.symm.trans herror

end TaskFarm.Expr
