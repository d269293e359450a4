import TaskFarm.Proofs.Expr.Kinship
import TaskFarm.Proofs.Expr.Placing

/-!
# Post-order listings

A token list is the post-order listing of a tree just if its parts are counted right: there is no
parenthesis, every numeral is a number, each beginning has more numerals than operators, and the
whole list has one numeral more than it has operators.  Building an arena inverts the listing, and
where it fails it says which token is the first one that cannot stand in a listing.
-/

namespace TaskFarm.Expr

/-! ## Counting prefixes -/

/-- The tokens may begin a listing. -/
structure BeginsListing (tokens : List Token) : Prop where
  noParen : ∀ t ∈ tokens, t.kind ≠ .openParen ∧ t.kind ≠ .closeParen
  readable : ∀ t ∈ tokens, ∀ text, t.kind = .numeral text →
    ∃ value, Decimal.parse? text = some value
  /-- Every beginning has more numerals than operators. -/
  ahead : ∀ front, front <+: tokens → front ≠ [] → operatorsIn front < numeralsIn front

/-- The tokens are a listing of one tree. -/
structure IsListing (tokens : List Token) : Prop extends BeginsListing tokens where
  count : numeralsIn tokens = operatorsIn tokens + 1

theorem BeginsListing.le {tokens : List Token} (h : BeginsListing tokens) :
    operatorsIn tokens ≤ numeralsIn tokens := by
  by_cases hnil : tokens = []
  · rw [hnil, operatorsIn_nil, numeralsIn_nil]
  · exact (h.ahead tokens (List.prefix_refl _) hnil).le

/-- With one more token the list still begins a listing, unless the token is misplaced. -/
theorem beginsListing_concat {tokens : List Token} {t : Token} :
    BeginsListing (tokens ++ [t]) ↔ BeginsListing tokens ∧ ∀ e, ¬Misplaced tokens t e := by
  constructor
  · intro h
    refine ⟨⟨?_, ?_, ?_⟩, ?_⟩
    · exact fun u hu => h.noParen u (List.mem_append_left _ hu)
    · exact fun u hu => h.readable u (List.mem_append_left _ hu)
    · exact fun front hfront => h.ahead front (hfront.trans (List.prefix_append _ _))
    · rintro e (⟨hkind, hnone⟩ | hkind | ⟨hkind, hfew⟩)
      · obtain ⟨value, hvalue⟩ := h.readable t (by simp) _ hkind
        cases hnone.symm.trans hvalue
      · obtain ⟨hopen, hclose⟩ := h.noParen t (by simp)
        exact hkind.elim hopen hclose
      · have hahead := h.ahead _ (List.prefix_refl _) (by simp)
        obtain ⟨hnumerals, hoperators⟩ := count_concat_operator tokens hkind
        omega
  · rintro ⟨h, ht⟩
    refine ⟨?_, ?_, ?_⟩
    · refine List.forall_mem_append.mpr ⟨h.noParen, List.forall_mem_singleton.mpr ?_⟩
      exact not_or.mp fun hkind => ht _ (.parenthesis hkind)
    · refine List.forall_mem_append.mpr ⟨h.readable, List.forall_mem_singleton.mpr ?_⟩
      intro text hkind
      cases hvalue : Decimal.parse? text with
      | some value => exact ⟨value, rfl⟩
      | none => exact absurd (.unreadable hkind hvalue) (ht _)
    · intro front hfront hne
      rcases List.prefix_concat_iff.mp hfront with rfl | hfront
      · have hle := h.le
        cases hkind : t.kind with
        | numeral text =>
            obtain ⟨hnumerals, hoperators⟩ := count_concat_numeral tokens hkind
            omega
        | operator op =>
            have henough : ¬numeralsIn tokens < operatorsIn tokens + 2 :=
              fun hfew => ht _ (.missingOperand hkind hfew)
            obtain ⟨hnumerals, hoperators⟩ := count_concat_operator tokens hkind
            omega
        | openParen => exact absurd (.parenthesis (.inl hkind)) (ht _)
        | closeParen => exact absurd (.parenthesis (.inr hkind)) (ht _)
      · exact h.ahead front hfront hne

/-- A list without a misplaced token is one that may begin a listing. -/
theorem inoffensive_misplaced_iff {tokens : List Token} :
    Inoffensive Misplaced tokens ↔ BeginsListing tokens := by
  induction tokens using List.reverseRecOn with
  | nil => exact ⟨fun _ => ⟨by simp, by simp, by simp⟩, fun _ => inoffensive_nil⟩
  | append_singleton tokens t ih => rw [inoffensive_concat, ih, beginsListing_concat]

/-! ## The tree of a listing -/

/-- The token says what node it becomes. -/
inductive Token.Becomes (t : Token) : Node → Prop
  | number {text : String} {value : Float} : t.kind = .numeral text →
      Decimal.parse? text = some value → t.Becomes (.number value)
  | binary {op : Operator} {left right : Nat} : t.kind = .operator op →
      t.Becomes (.binary op left right)

/-- An arena is the tree that a token list lists. -/
structure Arena.IsTreeOf (a : Arena) (tokens : List Token) : Prop where
  /-- Each token has become the node at its own place. -/
  becomes : List.Forall₂ Token.Becomes tokens (a.entries.toList.map Entry.node)
  root_eq : a.root + 1 = a.size
  children_lt : ∀ i op left right, a.node? i = some (.binary op left right) →
    left < right ∧ right < i
  parent : ∀ i, i < a.size → i ≠ a.root → ∃! parent, a.IsChild parent i
  below : ∀ i, i < a.size → ∃ first ≤ i, ∀ j, a.Below i j ↔ first ≤ j ∧ j ≤ i
  size_eq : a.size = 2 * a.operatorCount + 1
  /-- The tree that begins at the root is listed by the tokens. -/
  listed : ∃ (placed : OpTree Nat) (tree : OpTree Token), a.Shows placed ∧
    placed.bare = tree.bare ∧ tree.SpelledByLabels ∧ tree.postOrder = tokens

/-- Why a token list is no listing: its first token that cannot stand there, or else that it lists
no tree or several trees. -/
inductive ListingError (tokens : List Token) : CompileError → Prop
  | misplaced {e : CompileError} : FirstOffence Misplaced tokens e → ListingError tokens e
  | empty : tokens = [] → ListingError tokens (.malformed .empty ⟨0, 0⟩)
  | unjoined {trees : Nat} {span : Span} : Inoffensive Misplaced tokens → 2 ≤ trees →
      numeralsIn tokens = operatorsIn tokens + trees →
      ListingError tokens (.malformed (.unjoined trees) span)

theorem OpTree.PlacedAs.becomes {entries : Array Entry} {tree : OpTree Token}
    {placed : OpTree Nat} (h : tree.PlacedAs entries placed) :
    List.Forall₂ Token.Becomes tree.postOrder placed.nodes := by
  induction h with
  | leaf hkind hvalue _ => exact .cons (.number hkind hvalue) .nil
  | branch hkind _ _ _ ihl ihr =>
      exact List.rel_append (List.rel_append ihl ihr) (.cons (.binary hkind) .nil)

namespace Arena

theorem Shows.isTreeOf {a : Arena} {tree : OpTree Token} {placed : OpTree Nat}
    (h : a.Shows placed) (hplaced : tree.PlacedAs a.entries placed) :
    a.IsTreeOf tree.postOrder where
  becomes := h.map_node_eq ▸ hplaced.becomes
  root_eq := h.root_add_one
  children_lt _ _ _ _ hnode := h.children_lt hnode
  parent _ hi hroot := h.existsUnique_parent hi hroot
  below _ hi := h.exists_below_iff hi
  size_eq := by rw [h.size_eq, placed.length_postOrder, h.operatorCount_eq]
  listed := ⟨placed, tree, h, hplaced.bare_eq, hplaced.spelledByLabels, rfl⟩

theorem Built.isListing {tokens : List Token} {a : Arena} (h : Built tokens (.ok a)) :
    IsListing tokens ∧ a.IsTreeOf tokens := by
  cases h with
  | tree hshows hplaced hlist hclean =>
      subst hlist
      exact ⟨⟨inoffensive_misplaced_iff.mp hclean, hplaced.spelledByLabels.count⟩,
        hshows.isTreeOf hplaced⟩

theorem Built.listingError {tokens : List Token} {e : CompileError} (h : Built tokens (.error e)) :
    ¬IsListing tokens ∧ ListingError tokens e := by
  cases h with
  | misplaced hfirst =>
      refine ⟨fun hlisting => ?_, .misplaced hfirst⟩
      exact inoffensive_iff.mp (inoffensive_misplaced_iff.mpr hlisting.toBeginsListing) e hfirst
  | empty hnil =>
      subst hnil
      exact ⟨fun hlisting => absurd hlisting.count (by simp), .empty rfl⟩
  | @unjoined first second last rest hspelled hlist hhead _ hclean =>
      have hcount := OpTree.count_flatMap hspelled
      have hrest : 0 < rest.length := List.length_pos_of_mem (List.mem_of_mem_head? hhead)
      rw [hlist, List.length_cons] at hcount
      refine ⟨fun hlisting => ?_, .unjoined hclean (by omega) hcount⟩
      have := hlisting.count
      omega

/-- Building the arena of a token list succeeds exactly if the list is the listing of a tree.  Then
the arena is that tree, its nodes are the tokens in their order, and an operand comes before its
operator, of which it has only one; and otherwise the error is that of the first token that cannot
stand in a listing, or it says how many trees are listed. -/
theorem ofPostOrder_exact (tokens : List Token) :
    ((∃ a, ofPostOrder tokens = .ok a) ↔ IsListing tokens) ∧
      (∀ a, ofPostOrder tokens = .ok a → a.IsTreeOf tokens) ∧
      ∀ e, ofPostOrder tokens = .error e → ListingError tokens e := by
  have hbuilt := built_ofPostOrder tokens
  cases hresult : ofPostOrder tokens with
  | ok a =>
      rw [hresult] at hbuilt
      obtain ⟨hlisting, htree⟩ := hbuilt.isListing
      refine ⟨⟨fun _ => hlisting, fun _ => ⟨a, rfl⟩⟩, ?_, by simp⟩
      rintro b hb
      cases hb
      exact htree
  | error e =>
      rw [hresult] at hbuilt
      obtain ⟨hno, herror⟩ := hbuilt.listingError
      refine ⟨⟨by simp, fun hlisting => absurd hlisting hno⟩, by simp, ?_⟩
      rintro e' he'
      cases he'
      exact herror

/-- The listing of `8-(3-1)` is a tree of five nodes, and without its last token it lists two
trees. -/
theorem ofPostOrder_exact_nested :
    let operands : List Token := [⟨.numeral "8", ⟨0, 1⟩⟩, ⟨.numeral "3", ⟨3, 4⟩⟩,
      ⟨.numeral "1", ⟨5, 6⟩⟩, ⟨.operator .sub, ⟨4, 5⟩⟩]
    (∃ a, ofPostOrder (operands ++ [⟨.operator .sub, ⟨1, 2⟩⟩]) = .ok a ∧ a.size = 5 ∧
      a.IsTreeOf (operands ++ [⟨.operator .sub, ⟨1, 2⟩⟩])) ∧
    ∃ span, ofPostOrder operands = .error (.malformed (.unjoined 2) span) ∧
      ListingError operands (.malformed (.unjoined 2) span) :=
  ⟨⟨_, rfl, rfl, (ofPostOrder_exact _).2.1 _ rfl⟩, ⟨_, rfl, (ofPostOrder_exact _).2.2 _ rfl⟩⟩

end Arena

end TaskFarm.Expr
