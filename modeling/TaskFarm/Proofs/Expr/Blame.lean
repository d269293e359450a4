import TaskFarm.Proofs.Expr.Lexing
import TaskFarm.Proofs.Expr.Placing
import TaskFarm.Proofs.Expr.Reordering

/-!
# Where an error points

An error of reading a source is about a character, about a token or about a row of tokens, and the
span that it carries is where these stand in the source.  For the operands that nothing joins this
rests on the post-order keeping the numerals in their order: the forest spans from its second tree
to its last one, and the numerals of these trees are still those of the source from left to right.
-/

namespace TaskFarm.Expr

/-! ## From the first numeral of a listing to the last one -/

/-- A row of tokens in post-order reaches from one numeral to another one of them. -/
def ReachesOver (listing : List Token) (first last : Token) : Prop :=
  (listing.filter Token.isNumeral).head? = some first ∧
    (listing.filter Token.isNumeral).getLast? = some last

/-- What a tree covers begins with its first numeral and ends with its last one. -/
theorem OpTree.SpelledByLabels.exists_reachesOver {tree : OpTree Token} (h : tree.SpelledByLabels) :
    ∃ first last, ReachesOver tree.postOrder first last ∧
      tree.cover = first.span.join last.span := by
  induction tree with
  | leaf t value =>
      obtain ⟨text, hkind, -⟩ := h
      exact ⟨t, t, by simp [ReachesOver, postOrder, Token.isNumeral, hkind], rfl⟩
  | branch t op l r ihl ihr =>
      obtain ⟨hkind, hl, hr⟩ := h
      obtain ⟨first, _, ⟨hfirst, -⟩, hcover⟩ := ihl hl
      obtain ⟨_, last, ⟨-, hlast⟩, hcover'⟩ := ihr hr
      refine ⟨first, last, ⟨?_, ?_⟩, by simp [cover, hcover, hcover', Span.join]⟩
      · simp [postOrder, hfirst, Token.isNumeral, hkind]
      · simp [postOrder, hlast, Token.isNumeral, hkind]

/-- What trees in a row cover begins with the first numeral of all and ends with the last one. -/
theorem exists_reachesOver_flatMap {trees : List (OpTree Token)} {left right : OpTree Token}
    (h : ∀ tree ∈ trees, tree.SpelledByLabels) (hleft : trees.head? = some left)
    (hright : trees.getLast? = some right) :
    ∃ first last, ReachesOver (trees.flatMap OpTree.postOrder) first last ∧
      left.cover.join right.cover = first.span.join last.span := by
  obtain ⟨others, hothers⟩ := List.head?_eq_some_iff.mp hleft
  obtain ⟨init, hinit⟩ := List.getLast?_eq_some_iff.mp hright
  obtain ⟨first, _, ⟨hfirst, -⟩, hcover⟩ :=
    (h left (List.mem_of_mem_head? hleft)).exists_reachesOver
  obtain ⟨_, last, ⟨-, hlast⟩, hcover'⟩ :=
    (h right (List.mem_of_mem_getLast? hright)).exists_reachesOver
  refine ⟨first, last, ⟨?_, ?_⟩, by simp [hcover, hcover', Span.join]⟩
  · simp [hothers, hfirst]
  · simp [hinit, hlast]

/-- The two ends of a row are the same numeral, or one stands before the other. -/
theorem ReachesOver.sublist {listing : List Token} {first last : Token}
    (h : ReachesOver listing first last) :
    first = last ∨ [first, last].Sublist (listing.filter Token.isNumeral) := by
  obtain ⟨hfirst, hlast⟩ := h
  obtain ⟨others, hothers⟩ := List.head?_eq_some_iff.mp hfirst
  rw [hothers] at hlast ⊢
  cases others with
  | nil => exact .inl (by simpa using hlast)
  | cons second others =>
      rw [List.getLast?_cons_cons] at hlast
      exact .inr ((List.singleton_sublist.mpr (List.mem_of_mem_getLast? hlast)).cons_cons first)

/-! ## Errors behind the scanner -/

/-- Why tokens that have been put into post-order are not joined to a tree. -/
inductive Unjoined (tokens : List Token) : CompileError → Prop
  | missingOperand {t : Token} {op : Operator} : t ∈ tokens → t.kind = .operator op →
      Unjoined tokens (.malformed (.missingOperand op) t.span)
  | empty : (∀ t ∈ tokens, t.isParen = true) → Unjoined tokens (.malformed .empty ⟨0, 0⟩)
  | unjoined {first last : Token} {operands : Nat} : first ∈ tokens → last ∈ tokens →
      first.isNumeral = true → last.isNumeral = true →
      (first = last ∨ [first, last].Sublist tokens) →
      Unjoined tokens (.malformed (.unjoined operands) (first.span.join last.span))

variable {tokens out : List Token} {t : Token} {e : CompileError}

theorem Rearranges.mem (h : Rearranges tokens out) (ht : t ∈ out) : t ∈ tokens :=
  (List.mem_filter.mp (h.perm.subset ht)).1

theorem Inoffensive.readable (h : Inoffensive Disturbs tokens) (ht : t ∈ tokens) {text : String}
    (hkind : t.kind = .numeral text) : Decimal.parse? text ≠ none := by
  intro hnone
  obtain ⟨before, after, hsplit⟩ := List.append_of_mem ht
  exact h before t after hsplit _ (.unreadable hkind hnone)

/-- A row at the end of a rearranged list reaches over numerals of the source, in their order. -/
theorem Rearranges.reaches {front listing : List Token} {first last : Token}
    (h : Rearranges tokens (front ++ listing)) (hreach : ReachesOver listing first last) :
    first ∈ tokens ∧ last ∈ tokens ∧ first.isNumeral = true ∧ last.isNumeral = true ∧
      (first = last ∨ [first, last].Sublist tokens) := by
  have hnumerals : (listing.filter Token.isNumeral).Sublist (tokens.filter Token.isNumeral) := by
    rw [← h.numerals, List.filter_append]
    exact List.sublist_append_right _ _
  obtain ⟨hfirst, hfirst'⟩ :=
    List.mem_filter.mp (hnumerals.subset (List.mem_of_mem_head? hreach.1))
  obtain ⟨hlast, hlast'⟩ :=
    List.mem_filter.mp (hnumerals.subset (List.mem_of_mem_getLast? hreach.2))
  refine ⟨hfirst, hlast, hfirst', hlast', hreach.sublist.imp_right fun hsub => ?_⟩
  exact (hsub.trans hnumerals).trans List.filter_sublist

/-- What comes out of the first pass has no parenthesis and no unreadable numeral, so that the
second pass fails for other reasons. -/
theorem Rearranges.unjoined (hout : Rearranges tokens out)
    (hclean : Inoffensive Disturbs tokens) (h : Arena.Built out (.error e)) :
    Unjoined tokens e := by
  cases h with
  | misplaced hfirst =>
      obtain ⟨before, t, after, hsplit, -, ht⟩ := hfirst
      have hmem : t ∈ out := by simp [hsplit]
      cases ht with
      | unreadable hkind hnone =>
          exact absurd hnone (hclean.readable (hout.mem hmem) hkind)
      | parenthesis hkind =>
          have hparen := hout.noParen t hmem
          rcases hkind with hkind | hkind <;>
            simp [Token.isParen, Token.isOpen, Token.isClose, hkind] at hparen
      | missingOperand hkind _ => exact .missingOperand (hout.mem hmem) hkind
  | empty hnil =>
      have hbare : bareTokens tokens = [] := (hnil ▸ hout.perm).symm.eq_nil
      exact .empty fun t ht => by simpa using List.filter_eq_nil_iff.mp hbare t ht
  | @unjoined head second last rest hspelled hlist hhead hlast _ =>
      obtain ⟨first', last', hreach, hcover⟩ :=
        exists_reachesOver_flatMap (fun tree htree => hspelled tree (by simp [htree])) hhead hlast
      rw [← hlist, List.flatMap_cons] at hout
      obtain ⟨hfirst, hlast', hnumeral, hnumeral', horder⟩ := hout.reaches hreach
      rw [hcover]
      exact .unjoined hfirst hlast' hnumeral hnumeral' horder

theorem unjoined_of_ofPostOrder {listing : List Token} (hlisting : postOrder tokens = .ok listing)
    (h : Arena.ofPostOrder listing = .error e) : Unjoined tokens e := by
  have hreordered := reordered_postOrder tokens
  have hbuilt := Arena.built_ofPostOrder listing
  rw [hlisting] at hreordered
  rw [h] at hbuilt
  cases hreordered with
  | listing hclean _ hout => exact hout.unjoined hclean hbuilt

/-! ## Places in the source -/

/-- What stands in the source where an error points. -/
inductive Blames (source : String) (part : List Char) : CompileError → Prop
  | invalidCharacter {c : Char} {span : Span} :
      NamesFirstUnreadable 0 source.toList (.invalidCharacter c span) → part = [c] →
      Blames source part (.invalidCharacter c span)
  | malformedToken {text : String} {span : Span} : (∀ c ∈ source.toList, Readable c) →
      part = text.toList → Blames source part (.malformedToken text span)
  | mismatchedParentheses {span : Span} : (∀ c ∈ source.toList, Readable c) →
      part = ['('] ∨ part = [')'] → Blames source part (.mismatchedParentheses span)
  | missingOperand {op : Operator} {span : Span} : (∀ c ∈ source.toList, Readable c) →
      part = [op.symbol] → Blames source part (.malformed (.missingOperand op) span)
  | empty {span : Span} {tokens : List Token} : tokenize source = .ok tokens →
      (∀ t ∈ tokens, t.isParen = true) → span = ⟨0, 0⟩ →
      Blames source part (.malformed .empty span)
  | unjoined {operands : Nat} {span : Span} {tokens : List Token} {first last : Token} :
      tokenize source = .ok tokens → first ∈ tokens → last ∈ tokens → first.isNumeral = true →
      last.isNumeral = true → span = first.span.join last.span → part ≠ [] →
      Blames source part (.malformed (.unjoined operands) span)

variable {source : String}

theorem blames_of_tokenize (h : tokenize source = .error e) :
    ∃ part, e.span.slice? source.toList = some part ∧ Blames source part e := by
  have hnames : NamesFirstUnreadable 0 source.toList e := scanFrom_eq_error.mp h
  obtain ⟨front, c, back, hsource, -, -, rfl⟩ := id hnames
  refine ⟨[c], Span.slice?_eq_some_iff.mpr ⟨front, back, ?_, ?_⟩, .invalidCharacter hnames rfl⟩
  · simpa using hsource
  · simp [CompileError.span, Span.ofParts]

/-- The first pass blames a numeral that is no number, or a parenthesis. -/
theorem postOrder_blames_token (h : postOrder tokens = .error e) :
    ∃ t ∈ tokens, (∃ text, t.kind = .numeral text ∧ e = .malformedToken text t.span) ∨
      ((t.kind = .openParen ∨ t.kind = .closeParen) ∧ e = .mismatchedParentheses t.span) := by
  have hreordered := reordered_postOrder tokens
  rw [h] at hreordered
  cases hreordered with
  | disturbed hfirst =>
      obtain ⟨before, t, after, rfl, -, ht⟩ := hfirst
      refine ⟨t, by simp, ?_⟩
      cases ht with
      | unreadable hkind _ => exact .inl ⟨_, hkind, rfl⟩
      | stray hkind _ => exact .inr ⟨.inr hkind, rfl⟩
  | unclosed _ hlast =>
      obtain ⟨before, after, rfl, hkind, -⟩ := hlast
      exact ⟨_, by simp, .inr ⟨.inl hkind, rfl⟩⟩

theorem blames_of_postOrder (htokens : tokenize source = .ok tokens)
    (h : postOrder tokens = .error e) :
    ∃ part, e.span.slice? source.toList = some part ∧ Blames source part e := by
  have hreadable := readable_of_tokenize htokens
  obtain ⟨t, ht, ⟨text, hkind, rfl⟩ | ⟨hkind, rfl⟩⟩ := postOrder_blames_token h
  · refine ⟨_, (lexing_of_tokenize htokens).slices t ht, .malformedToken hreadable ?_⟩
    simp [Token.text, hkind]
  · refine ⟨_, (lexing_of_tokenize htokens).slices t ht, .mismatchedParentheses hreadable ?_⟩
    rcases hkind with hkind | hkind <;> simp [Token.text, hkind]

theorem blames_of_unjoined (htokens : tokenize source = .ok tokens) (h : Unjoined tokens e) :
    ∃ part, e.span.slice? source.toList = some part ∧ Blames source part e := by
  have hlexing := lexing_of_tokenize htokens
  cases h with
  | missingOperand ht hkind =>
      refine ⟨_, hlexing.slices _ ht, .missingOperand (readable_of_tokenize htokens) ?_⟩
      simp [Token.text, Operator.text, hkind]
  | empty hparens =>
      have hslice : (⟨0, 0⟩ : Span).slice? source.toList = some [] :=
        Span.slice?_eq_some_iff.mpr ⟨[], source.toList, rfl, rfl⟩
      exact ⟨[], hslice, .empty htokens hparens rfl⟩
  | @unjoined first last _ hfirst hlast hnumeral hnumeral' horder =>
      obtain ⟨part, hslice, hne⟩ := hlexing.exists_slice?_join hfirst hlast horder
      exact ⟨part, hslice, .unjoined htokens hfirst hlast hnumeral hnumeral' rfl hne⟩

/-- Every error points at a part of the source, and what stands there is what the error is about.  A
character that may not stand in a source is blamed before all else, and the second pass over the
tokens finds neither a numeral that is no number nor a parenthesis. -/
theorem parse_error_blames (source : String) :
    (∀ e, parse source = .error e →
      ∃ part, e.span.slice? source.toList = some part ∧ Blames source part e) ∧
    ((∃ c ∈ source.toList, ¬Readable c) →
      ∃ c span, parse source = .error (.invalidCharacter c span) ∧
        NamesFirstUnreadable 0 source.toList (.invalidCharacter c span) ∧
        span.slice? source.toList = some [c]) ∧
    ∀ tokens listing e, postOrder tokens = .ok listing → Arena.ofPostOrder listing = .error e →
      (∀ text span, e ≠ .malformedToken text span) ∧ ∀ span, e ≠ .malformed .parenthesis span := by
  refine ⟨fun e h => ?_, fun hunreadable => ?_, fun tokens listing e hlisting h => ?_⟩
  · obtain htokens | ⟨tokens, htokens, hlisting | ⟨listing, hlisting, harena⟩⟩ := parse_eq_error h
    · exact blames_of_tokenize htokens
    · exact blames_of_postOrder htokens hlisting
    · exact blames_of_unjoined htokens (unjoined_of_ofPostOrder hlisting harena)
  · obtain ⟨e, he⟩ := (exists_namesFirstUnreadable 0).mpr hunreadable
    have htokens : tokenize source = .error e := scanFrom_eq_error.mpr he
    obtain ⟨part, hslice, hblames⟩ := blames_of_tokenize htokens
    obtain ⟨front, c, back, -, -, -, rfl⟩ := id he
    cases hblames with
    | invalidCharacter _ hpart =>
        refine ⟨c, _, ?_, he, hpart ▸ hslice⟩
        rw [parse, htokens]
        rfl
  · have hunjoined := unjoined_of_ofPostOrder hlisting h
    constructor
    · rintro text span rfl
      cases hunjoined
    · rintro span rfl
      cases hunjoined

/-- In `1 2 + 3` the sum is what nothing joins to the first numeral. -/
theorem parse_error_blames_unjoined :
    parse "1 2 + 3" = .error (.malformed (.unjoined 2) ⟨2, 7⟩) ∧
      ∃ part, (⟨2, 7⟩ : Span).slice? "1 2 + 3".toList = some part ∧
        Blames "1 2 + 3" part (.malformed (.unjoined 2) ⟨2, 7⟩) :=
  ⟨rfl, (parse_error_blames "1 2 + 3").1 _ rfl⟩

end TaskFarm.Expr
