import TaskFarm.Proofs.Decimal.Written
import TaskFarm.Proofs.Expr.Acceptance
import TaskFarm.Proofs.Expr.Lexeme
import TaskFarm.Proofs.Expr.Printing

/-!
# Reading a printed tree

The text of a tree has all its parentheses, so that its tokens are derived from the infix grammar
with the operands where they were.  Two things can go wrong: a number that is not finite is written
with letters, which no source may have, and the minus of a negative number inside the tree is taken
for an operator, because an opening parenthesis or a blank stands before it.  Such an operator is one
too many.
-/

namespace TaskFarm.Expr

namespace OpTree

variable {α β : Type}

/-- The number of leaves that are written with a minus. -/
def signs (t : OpTree α) : Nat :=
  t.leaves.countP fun leaf => Decimal.signBit leaf.2.toBits

/-- The second tree has the shape of the first one, and each of its values is read from what is
written of the value there. -/
inductive Reread : OpTree α → OpTree β → Prop
  | leaf {i : α} {j : β} {v w : Float} :
      Decimal.parse? (Decimal.text v) = some w → Reread (.leaf i v) (.leaf j w)
  | branch {i : α} {j : β} {op : Operator} {l r : OpTree α} {l' r' : OpTree β} :
      Reread l l' → Reread r r' → Reread (.branch i op l r) (.branch j op l' r')

/-- If every value reads back as itself, so does the tree. -/
theorem Reread.bare_eq {t : OpTree α} {u : OpTree β} (h : t.Reread u)
    (hvalues : ∀ leaf ∈ t.leaves, Decimal.parse? (Decimal.text leaf.2) = some leaf.2) :
    t.bare = u.bare := by
  induction h with
  | leaf hread =>
      cases (hvalues _ (List.mem_singleton_self _)).symm.trans hread
      rfl
  | branch _ _ ihl ihr =>
      rw [bare, bare, ihl fun leaf h => hvalues leaf (List.mem_append_left _ h),
        ihr fun leaf h => hvalues leaf (List.mem_append_right _ h)]

/-! ## The tokens of a printed tree -/

/-- The tokens are what the text of the tree is scanned into inside a larger text: one numeral for
each leaf, and one operator for each operator and for each minus. -/
structure Printed (t : OpTree α) (tokens : List Token) : Prop where
  numerals : numeralsIn tokens = t.leaves.length
  operators : operatorsIn tokens = t.operators.length + t.signs
  derived : t.signs = 0 → ∃ tree, Derives .factor tokens tree ∧ t.Reread tree

theorem Printed.branch {i : α} {op : Operator} {l r : OpTree α} {left right : List Token}
    {opening sign closing : Token} (hl : l.Printed left) (hr : r.Printed right)
    (hopen : opening.kind = .openParen) (hsign : sign.kind = .operator op)
    (hclose : closing.kind = .closeParen) :
    (OpTree.branch i op l r).Printed (opening :: (left ++ sign :: right) ++ [closing]) := by
  have hsigns : (OpTree.branch i op l r).signs = l.signs + r.signs := List.countP_append
  constructor
  · simp [leaves, hl.numerals, hr.numerals, Token.isNumeral, hopen, hsign, hclose]
  · have hoperators : operatorsIn (opening :: (left ++ sign :: right) ++ [closing]) =
        operatorsIn left + operatorsIn right + 1 := by
      simp [Token.isOperator, hopen, hsign, hclose, Nat.add_assoc]
    rw [hoperators, hl.operators, hr.operators, hsigns]
    simp only [OpTree.operators, List.length_append, List.length_singleton]
    omega
  · intro hnone
    obtain ⟨left', hleft, hreadL⟩ := hl.derived (by omega)
    obtain ⟨right', hright, hreadR⟩ := hr.derived (by omega)
    refine ⟨.branch sign op left' right', .group hopen hclose ?_, .branch hreadL hreadR⟩
    rcases op.additive_or_multiplicative with hop | hop
    · exact .additive (.ofProduct (.ofFactor hleft)) hsign hop (.ofFactor hright)
    · exact .ofProduct (.multiplicative (.ofFactor hleft) hsign hop hright)

/-- Behind the given text, the text of the tree is scanned by itself, if no numeral goes on behind
it. -/
def ScannedBehind (before : List Char) (t : OpTree α) : Prop :=
  ∀ rest : List Char, (∀ c, rest.head? = some c → numeralChar c = false) →
    ∃ tokens, t.Printed tokens ∧
      scanBehind before (t.text ++ rest) = prepend tokens (scanBehind (before ++ t.text) rest)

end OpTree

theorem numeralChar_of_plain {cs : List Char} (h : Decimal.Plain cs) :
    ∀ c ∈ cs, numeralChar c = true := by
  intro c hc
  rcases h.digit_or_point hc with hdigit | rfl
  · simp [numeralChar, hdigit]
  · decide

theorem not_signPlace_append {before : List Char} {c : Char} (hc : c ∉ ['+', '-', '*', '/']) :
    ¬SignPlace (before ++ [c]) := by
  simpa [SignPlace] using hc

theorem scannedBehind_leaf {α : Type} {before : List Char} (i : α) {v : Float}
    (hfinite : v.isFinite = true) (hplace : ¬SignPlace before) :
    (OpTree.leaf i v).ScannedBehind before := by
  intro rest hrest
  obtain ⟨body, hplain, htext⟩ := Decimal.text_of_isFinite hfinite
  have hrun := numeralChar_of_plain hplain
  obtain ⟨c, digits, hbody, -⟩ := hplain.exists_cons
  have hne : body ≠ [] := by simp [hbody]
  have hend : ∀ {kind : TokenKind}, Ends kind rest := fun _ _ => hrest
  cases hsign : Decimal.signBit v.toBits with
  | true =>
      refine ⟨[Token.behind before ['-'] (.operator .sub),
        Token.behind (before ++ ['-']) body (.numeral (String.ofList body))], ⟨rfl, ?_, ?_⟩, ?_⟩
      · simp [OpTree.operators, OpTree.signs, OpTree.leaves, hsign, Token.isOperator, Token.behind]
      · simp [OpTree.signs, OpTree.leaves, hsign]
      · have hminus : Lexeme before [Operator.sub.symbol] (.operator .sub) :=
          .operator fun _ => hplace
        have htext' : (OpTree.leaf i v).text = [Operator.sub.symbol] ++ body := by
          simpa [OpTree.text, hsign, Operator.symbol] using htext
        calc
          scanBehind before ((OpTree.leaf i v).text ++ rest)
              = scanBehind before ([Operator.sub.symbol] ++ (body ++ rest)) := by
            rw [htext', List.append_assoc]
          _ = prepend [Token.behind before ['-'] (.operator .sub)]
                (scanBehind (before ++ ['-']) (body ++ rest)) :=
            scanBehind_lexeme hminus (ends_of_ne_numeral (by simp) _)
          _ = prepend [Token.behind before ['-'] (.operator .sub)]
                (prepend [Token.behind (before ++ ['-']) body (.numeral (String.ofList body))]
                  (scanBehind (before ++ ['-'] ++ body) rest)) := by
            rw [scanBehind_lexeme (.unsigned hne hrun) hend]
          _ = _ := by
            rw [htext', prepend_prepend, List.append_assoc]
            rfl
  | false =>
      have htext' : (Decimal.text v).toList = body := by simpa [hsign] using htext
      refine ⟨[Token.behind before body (.numeral (String.ofList body))], ⟨rfl, ?_, ?_⟩, ?_⟩
      · simp [OpTree.operators, OpTree.signs, OpTree.leaves, hsign, Token.isOperator, Token.behind]
      · intro _
        obtain ⟨w, hw⟩ := Decimal.exists_parse?_text hfinite
        have hspelled : Decimal.text v = String.ofList body := by
          rw [← htext', String.ofList_toList]
        exact ⟨_, .numeral rfl (hspelled ▸ hw), .leaf hw⟩
      · rw [OpTree.text, htext']
        exact scanBehind_lexeme (.unsigned hne hrun) hend

theorem scannedBehind_branch {α : Type} {before : List Char} {i : α} {op : Operator}
    {l r : OpTree α} (hl : ∀ before, ¬SignPlace before → l.ScannedBehind before)
    (hr : ∀ before, ¬SignPlace before → r.ScannedBehind before) :
    (OpTree.branch i op l r).ScannedBehind before := by
  intro rest _
  have hblank : Text.isBlank ' ' = true := by decide
  have hnext {c : Char} {cs : List Char} (hc : numeralChar c = false) :
      ∀ d, (c :: cs).head? = some d → numeralChar d = false := by
    rintro d ⟨⟩
    exact hc
  -- the texts before the first operand, the blank, the second operand and the last parenthesis
  let inside := before ++ ['(']
  let front := inside ++ l.text
  let middle := front ++ [' '] ++ [op.symbol] ++ [' ']
  let back := middle ++ r.text
  let opening := Token.behind before ['('] .openParen
  let sign := Token.behind (front ++ [' ']) [op.symbol] (.operator op)
  let closing := Token.behind back [')'] .closeParen
  obtain ⟨left, hleft, hscanL⟩ := hl inside (not_signPlace_append (by decide))
    (' ' :: op.symbol :: ' ' :: (r.text ++ ')' :: rest)) (hnext (by decide))
  obtain ⟨right, hright, hscanR⟩ := hr middle (not_signPlace_append (by decide))
    (')' :: rest) (hnext (by decide))
  have hopen (cs : List Char) :
      scanBehind before ('(' :: cs) = prepend [opening] (scanBehind inside cs) :=
    scanBehind_lexeme .openParen (ends_of_ne_numeral (by simp) _)
  have hsign (cs : List Char) : scanBehind (front ++ [' ']) (op.symbol :: cs) =
      prepend [sign] (scanBehind (front ++ [' '] ++ [op.symbol]) cs) :=
    scanBehind_lexeme (.operator fun _ => not_signPlace_append (by decide)) (ends_of_ne_numeral (by simp) _)
  have hclose : scanBehind back (')' :: rest) =
      prepend [closing] (scanBehind (back ++ [')']) rest) :=
    scanBehind_lexeme .closeParen (ends_of_ne_numeral (by simp) _)
  refine ⟨_, hleft.branch hright (rfl : opening.kind = _) (rfl : sign.kind = _)
    (rfl : closing.kind = _), ?_⟩
  calc
    scanBehind before ((OpTree.branch i op l r).text ++ rest)
        = scanBehind before
            ('(' :: (l.text ++ ' ' :: op.symbol :: ' ' :: (r.text ++ ')' :: rest))) := by
      simp [OpTree.text]
    _ = prepend [opening] (prepend left (prepend [sign] (prepend right (prepend [closing]
          (scanBehind (back ++ [')']) rest))))) := by
      rw [hopen, hscanL, scanBehind_blank hblank, hsign, scanBehind_blank hblank, hscanR, hclose]
    _ = _ := by
      simp [OpTree.text, back, middle, front, inside]

/-- The text of a tree of finite numbers is scanned by itself wherever no minus would be the sign of
a number, and anywhere if the tree has operators. -/
theorem scannedBehind {α : Type} {t : OpTree α}
    (hfinite : ∀ leaf ∈ t.leaves, leaf.2.isFinite = true) {before : List Char}
    (hplace : t.operators = [] → ¬SignPlace before) : t.ScannedBehind before := by
  induction t generalizing before with
  | leaf i v => exact scannedBehind_leaf i (hfinite (i, v) (List.mem_singleton_self _)) (hplace rfl)
  | branch i op l r ihl ihr =>
      exact scannedBehind_branch
        (fun _ h => ihl (fun leaf hl => hfinite leaf (List.mem_append_left _ hl)) fun _ => h)
        (fun _ h => ihr (fun leaf hr => hfinite leaf (List.mem_append_right _ hr)) fun _ => h)

/-! ## Reading the whole text -/

/-- By itself, a finite number is one numeral, whatever its sign. -/
theorem tokenize_number {v : Float} (hfinite : v.isFinite = true) :
    ∃ t : Token, t.kind = .numeral (Decimal.text v) ∧ tokenize (Decimal.text v) = .ok [t] := by
  obtain ⟨body, hplain, htext⟩ := Decimal.text_of_isFinite hfinite
  have hrun := numeralChar_of_plain hplain
  have hlexeme : Lexeme [] (Decimal.text v).toList (.numeral (Decimal.text v)) := by
    have hspelled : Decimal.text v = String.ofList (Decimal.text v).toList :=
      String.ofList_toList.symm
    rw [hspelled, String.toList_ofList, htext]
    cases Decimal.signBit v.toBits with
    | true => exact .signed (.inl rfl) hrun
    | false =>
        obtain ⟨c, digits, hbody, -⟩ := hplain.exists_cons
        exact .unsigned (by simp [hbody]) hrun
  have hscan := scanBehind_lexeme hlexeme fun _ _ c (hc : [].head? = some c) => by cases hc
  rw [List.append_nil, scanBehind_nil] at hscan
  exact ⟨Token.behind [] (Decimal.text v).toList (.numeral (Decimal.text v)), rfl, hscan⟩

/-- A tree with operators is tokenized as it is scanned. -/
theorem tokenize_tree {α : Type} {t : OpTree α}
    (hfinite : ∀ leaf ∈ t.leaves, leaf.2.isFinite = true) (hoperators : t.operators ≠ []) :
    ∃ tokens, t.Printed tokens ∧ tokenize (String.ofList t.text) = .ok tokens := by
  have hplace : t.operators = [] → ¬SignPlace [] := fun h => absurd h hoperators
  obtain ⟨tokens, hprinted, hscan⟩ := scannedBehind hfinite hplace [] (by simp)
  refine ⟨tokens, hprinted, ?_⟩
  rw [List.append_nil, scanBehind_nil] at hscan
  rw [tokenize_eq_scanBehind, String.toList_ofList, hscan]
  simp [prepend, Except.map]

/-- A source with a character that may not stand in it is not tokenized. -/
theorem tokenize_error {source : String} {c : Char} (hc : c ∈ source.toList) (h : ¬Readable c) :
    ∃ e, tokenize source = .error e := by
  obtain ⟨e, he⟩ := (exists_namesFirstUnreadable 0).mpr ⟨c, hc, h⟩
  exact ⟨e, scanFrom_eq_error.mpr he⟩

namespace OpTree

variable {α : Type} {t : OpTree α}

theorem mem_text_of_mem_leaves {i : α} {v : Float} (h : (i, v) ∈ t.leaves) {c : Char}
    (hc : c ∈ (Decimal.text v).toList) : c ∈ t.text := by
  induction t with
  | leaf j w =>
      obtain ⟨rfl, rfl⟩ := Prod.mk.inj (List.mem_singleton.mp h)
      exact hc
  | branch j op l r ihl ihr =>
      rcases List.mem_append.mp h with h | h
      · simp [text, ihl h]
      · simp [text, ihr h]

/-- The numbers of the tree can be read back from its text: all are finite, and none is written with
a minus unless it is the whole tree. -/
structure Rereadable (t : OpTree α) : Prop where
  finite : ∀ leaf ∈ t.leaves, leaf.2.isFinite = true
  unsigned : t.operators ≠ [] → t.signs = 0

/-- A tree that can be read back is parsed from its text, with the same operators and operands. -/
theorem Rereadable.exists_parse (h : t.Rereadable) :
    ∃ b placed, ∃ tree : OpTree Token, parse (String.ofList t.text) = .ok b ∧ b.Shows placed ∧
      placed.bare = tree.bare ∧ t.Reread tree := by
  obtain ⟨tokens, tree, htokens, hderives, hread⟩ : ∃ tokens, ∃ tree : OpTree Token,
      tokenize (String.ofList t.text) = .ok tokens ∧ Derives .sum tokens tree ∧ t.Reread tree := by
    by_cases hoperators : t.operators = []
    · cases t with
      | leaf i v =>
          have hfinite := h.finite (i, v) (List.mem_singleton_self _)
          obtain ⟨token, hkind, htoken⟩ := tokenize_number hfinite
          obtain ⟨w, hw⟩ := Decimal.exists_parse?_text hfinite
          exact ⟨[token], .leaf token w, by simpa [text] using htoken,
            .ofProduct (.ofFactor (.numeral hkind hw)), .leaf hw⟩
      | branch i op l r => simp [operators] at hoperators
    · obtain ⟨tokens, hprinted, htokens⟩ := tokenize_tree h.finite hoperators
      obtain ⟨tree, hderives, hread⟩ := hprinted.derived (h.unsigned hoperators)
      exact ⟨tokens, tree, htokens, .ofProduct (.ofFactor hderives), hread⟩
  obtain ⟨b, placed, hparse, hshows, hbare⟩ := hderives.exists_parse htokens
  exact ⟨b, placed, tree, hparse, hshows, hbare, hread⟩

/-- Only a tree that can be read back is parsed from its text. -/
theorem rereadable_of_parse {b : Arena} (h : parse (String.ofList t.text) = .ok b) :
    t.Rereadable := by
  obtain ⟨tokens, listing, htokens, hlisting, harena⟩ := parse_eq_ok h
  have hfinite : ∀ leaf ∈ t.leaves, leaf.2.isFinite = true := by
    rintro ⟨i, v⟩ hleaf
    by_contra hnot
    obtain ⟨c, hc, hletter⟩ := Decimal.exists_letter_of_not_isFinite (Bool.eq_false_iff.mpr hnot)
    have hunreadable : ¬Readable c := by
      rcases hletter with rfl | rfl
      · unfold Readable
        decide
      · unfold Readable
        decide
    have hmem : c ∈ (String.ofList t.text).toList := by
      rw [String.toList_ofList]
      exact mem_text_of_mem_leaves hleaf hc
    obtain ⟨e, he⟩ := tokenize_error hmem hunreadable
    cases he.symm.trans htokens
  refine ⟨hfinite, fun hoperators => ?_⟩
  obtain ⟨tokens', hprinted, htokens'⟩ := tokenize_tree hfinite hoperators
  cases htokens.symm.trans htokens'
  have hcount := count_of_postOrder hlisting harena
  rw [hprinted.numerals, hprinted.operators, length_leaves] at hcount
  omega

end OpTree

namespace Arena

/-- The numbers of an arena are those of its tree. -/
theorem Shows.rereadable_iff {a : Arena} {t : OpTree Nat} (h : a.Shows t) :
    t.Rereadable ↔ ∀ i v, a.node? i = some (.number v) →
      v.isFinite = true ∧ (Decimal.signBit v.toBits = true → i = a.root) := by
  constructor
  · intro hre i v hnode
    have hleaf := h.mem_leaves_iff.mpr hnode
    refine ⟨hre.finite (i, v) hleaf, fun hsign => ?_⟩
    cases t with
    | leaf j w =>
        obtain ⟨rfl, rfl⟩ := Prod.mk.inj (List.mem_singleton.mp hleaf)
        exact h.root_eq
    | branch j op l r =>
        have hnone := hre.unsigned (by simp [OpTree.operators])
        rw [OpTree.signs, List.countP_eq_zero] at hnone
        exact absurd hsign (hnone (i, v) hleaf)
  · intro hall
    have hleaves (leaf) (hleaf : leaf ∈ t.leaves) :=
      hall leaf.1 leaf.2 (h.mem_leaves_iff.mp hleaf)
    refine ⟨fun leaf hleaf => (hleaves leaf hleaf).1, fun hoperators => ?_⟩
    rw [OpTree.signs, List.countP_eq_zero]
    intro leaf hleaf hsign
    have hroot := (hleaves leaf hleaf).2 hsign
    cases t with
    | leaf j w => exact absurd rfl hoperators
    | branch j op l r =>
        have honce : (OpTree.branch j op l r).postOrder.Nodup := h.postOrder_eq ▸ List.nodup_range
        exact OpTree.ne_of_mem_leaves honce hleaf (hroot.trans h.root_eq.symm)

/-- The text of a parsed tree is parsed again exactly if all its numbers are finite and none but a
number that is the whole tree has its sign bit set.  If what is written of each number reads back as
that number, the second tree has the nodes and the root of the first one. -/
theorem parse_text {source : String} {a : Arena} (h : parse source = .ok a) :
    ((∃ b, parse a.text = .ok b) ↔ ∀ i v, a.node? i = some (.number v) →
      v.isFinite = true ∧ (Decimal.signBit v.toBits = true → i = a.root)) ∧
    ((∀ i v, a.node? i = some (.number v) → v.isFinite = true →
        Decimal.parse? (Decimal.text v) = some v) →
      ∀ b, parse a.text = .ok b →
        b.entries.map Entry.node = a.entries.map Entry.node ∧ b.root = a.root) := by
  obtain ⟨t, ht⟩ := exists_shows_of_parse h
  rw [ht.text_eq, ← ht.rereadable_iff]
  constructor
  · constructor
    · rintro ⟨b, hb⟩
      exact OpTree.rereadable_of_parse hb
    · intro hre
      obtain ⟨b, -, -, hb, -⟩ := hre.exists_parse
      exact ⟨b, hb⟩
  · intro hvalues b hb
    have hre := OpTree.rereadable_of_parse hb
    obtain ⟨b', placed, tree, hb', hshows, hplaced, hread⟩ := hre.exists_parse
    cases hb.symm.trans hb'
    refine ht.nodes_eq hshows ?_
    rw [hplaced]
    refine hread.bare_eq fun leaf hleaf => ?_
    exact hvalues leaf.1 leaf.2 (ht.mem_leaves_iff.mp hleaf) (hre.finite leaf hleaf)

/-- The tree of `(0.5+2)*10` is read back from its text. -/
theorem parse_text_nested :
    ∃ a b, parse "(0.5+2)*10" = .ok a ∧ parse a.text = .ok b ∧
      b.entries.map Entry.node = a.entries.map Entry.node ∧ b.root = a.root := by
  have hvalues (P : Nat → Float → Prop) (hhalf : P 0 0.5) (htwo : P 1 2.0) (hten : P 3 10.0) :
      ∀ i v, (Arena.node? ⟨#[⟨.number 0.5, ⟨1, 4⟩⟩, ⟨.number 2.0, ⟨5, 6⟩⟩,
        ⟨.binary .add 0 1, ⟨1, 6⟩⟩, ⟨.number 10.0, ⟨8, 10⟩⟩, ⟨.binary .mul 2 3, ⟨1, 10⟩⟩], 4⟩ i) =
          some (.number v) → P i v := by
    intro i v hnode
    match i, hnode with
    | 0, rfl => exact hhalf
    | 1, rfl => exact htwo
    | 3, rfl => exact hten
    | n + 5, hnone => simp [Arena.node?] at hnone
  obtain ⟨hiff, hnodes⟩ := parse_text (rfl : parse "(0.5+2)*10" = .ok _)
  obtain ⟨b, hb⟩ := hiff.mpr (hvalues _ (by decide) (by decide) (by decide))
  exact ⟨_, b, rfl, hb, hnodes (hvalues _ (by decide) (by decide) (by decide)) b hb⟩

/-- The text of `2*-3` is `(2 * -3)`, where the minus is an operator without a left operand. -/
example (a b : Arena) (h : parse "2*-3" = .ok a) : parse a.text ≠ .ok b := by
  cases h
  intro h
  cases h

end Arena

end TaskFarm.Expr
