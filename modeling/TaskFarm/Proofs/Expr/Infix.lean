import TaskFarm.Proofs.Expr.Tree

/-!
# The infix grammar is read as written

Sums are made of products, products of factors, and a factor is a numeral or a sum in parentheses.
A derivation in this grammar fixes a tree of operators: operators of one level join from the left,
and parentheses leave no trace.  Putting the tokens of a derivation into post-order gives the
listing of that tree, and growing a forest along the listing gives the tree back.

The invariant of the operator stack is `Reads`: once an expression of some strength has been read,
what has not gone out yet are operators of at least that strength on top of the former stack.
-/

namespace TaskFarm.Expr

/-! ## Derivations -/

/-- The syntactic classes of the infix grammar. -/
inductive Level where
  | sum
  | product
  | factor

/-- A token list is derived at a level of the infix grammar, and the derivation has a tree, whose
nodes are labelled by their tokens. -/
inductive Derives : Level → List Token → OpTree Token → Prop
  | numeral {t : Token} {text : String} {value : Float} :
      t.kind = .numeral text → Decimal.parse? text = some value →
      Derives .factor [t] (.leaf t value)
  | group {opening closing : Token} {tokens : List Token} {tree : OpTree Token} :
      opening.kind = .openParen → closing.kind = .closeParen → Derives .sum tokens tree →
      Derives .factor (opening :: tokens ++ [closing]) tree
  | ofFactor {tokens : List Token} {tree : OpTree Token} :
      Derives .factor tokens tree → Derives .product tokens tree
  | multiplicative {t : Token} {op : Operator} {left right : List Token} {l r : OpTree Token} :
      Derives .product left l → t.kind = .operator op → op = .mul ∨ op = .div →
      Derives .factor right r → Derives .product (left ++ t :: right) (.branch t op l r)
  | ofProduct {tokens : List Token} {tree : OpTree Token} :
      Derives .product tokens tree → Derives .sum tokens tree
  | additive {t : Token} {op : Operator} {left right : List Token} {l r : OpTree Token} :
      Derives .sum left l → t.kind = .operator op → op = .add ∨ op = .sub →
      Derives .product right r → Derives .sum (left ++ t :: right) (.branch t op l r)

/-- The least precedence of an operator that stands in an expression of a level outside of all
parentheses.  No operator has the strength of a factor. -/
def Level.strength : Level → Nat
  | .sum => 1
  | .product => 2
  | .factor => 3

/-- What is derived at a stronger level is derived at a weaker one. -/
theorem Derives.weaken {level weaker : Level} {tokens : List Token} {tree : OpTree Token}
    (h : Derives level tokens tree) (hle : weaker.strength ≤ level.strength) :
    Derives weaker tokens tree := by
  cases level with
  | sum =>
      cases weaker with
      | sum => exact h
      | product => exact absurd hle (by decide)
      | factor => exact absurd hle (by decide)
  | product =>
      cases weaker with
      | sum => exact .ofProduct h
      | product => exact h
      | factor => exact absurd hle (by decide)
  | factor =>
      cases weaker with
      | sum => exact .ofProduct (.ofFactor h)
      | product => exact .ofFactor h
      | factor => exact h

/-! ## The operator stack -/

/-- The token is an operator of at least the given precedence. -/
def bindsAt (strength : Nat) (t : Token) : Bool :=
  match t.kind with
  | .operator op => strength ≤ op.precedence
  | _ => false

/-- The topmost token of a stack is no operator of the given precedence. -/
def LooseAt (strength : Nat) (stack : List Token) : Prop :=
  ∀ t, stack.head? = some t → bindsAt strength t = false

theorem goesBefore_eq_bindsAt (op : Operator) : goesBefore op = bindsAt op.precedence := rfl

theorem bindsAt_mono {weaker stronger : Nat} (hle : weaker ≤ stronger) {t : Token}
    (h : bindsAt stronger t = true) : bindsAt weaker t = true := by
  unfold bindsAt at h ⊢
  split at h
  · exact decide_eq_true (hle.trans (of_decide_eq_true h))
  · cases h

theorem LooseAt.mono {weaker stronger : Nat} {stack : List Token}
    (h : LooseAt weaker stack) (hle : weaker ≤ stronger) : LooseAt stronger stack := by
  intro t ht
  by_contra hbinds
  have hweak := bindsAt_mono hle (by simpa using hbinds)
  rw [h t ht] at hweak
  cases hweak

theorem isOpen_eq_false_of_bindsAt {strength : Nat} {t : Token}
    (h : bindsAt strength t = true) : t.isOpen = false := by
  unfold bindsAt at h
  split at h
  · next op hkind => simp [Token.isOpen, hkind]
  · cases h

/-- A predicate that holds of the upper part of a stack and fails below it cuts the stack there. -/
theorem cut_append {α : Type} (p : α → Bool) {upper lower : List α}
    (hupper : ∀ t ∈ upper, p t = true) (hlower : ∀ t, lower.head? = some t → p t = false) :
    (upper ++ lower).takeWhile p = upper ∧ (upper ++ lower).dropWhile p = lower := by
  rw [List.takeWhile_append_of_pos hupper, List.dropWhile_append_of_pos hupper]
  cases lower with
  | nil => simp
  | cons t below => simp [hlower t rfl]

theorem drain_operators {strength : Nat} {stack : List Token}
    (h : ∀ t ∈ stack, bindsAt strength t = true) : drain stack = .ok stack := by
  induction stack with
  | nil => rfl
  | cons t below ih =>
      have ht : bindsAt strength t = true := h t (by simp)
      have hbelow : drain below = .ok below := ih fun u hu => h u (by simp [hu])
      unfold bindsAt at ht
      split at ht
      · next op hkind => simp [drain, hkind, hbelow, Except.map]
      · cases ht

/-! ## Reading one token -/

/-- The listing that begins with the given tokens and goes on as another one. -/
def prepend (out : List Token) (listing : Except CompileError (List Token)) :
    Except CompileError (List Token) :=
  listing.map (out ++ ·)

@[simp] theorem prepend_nil (listing : Except CompileError (List Token)) :
    prepend [] listing = listing := by
  cases listing <;> rfl

@[simp] theorem prepend_prepend (out more : List Token)
    (listing : Except CompileError (List Token)) :
    prepend out (prepend more listing) = prepend (out ++ more) listing := by
  cases listing <;> simp [prepend, Except.map]

theorem postOrderFrom_numeral {t : Token} {text : String} {value : Float}
    (hkind : t.kind = .numeral text) (hvalue : Decimal.parse? text = some value)
    (stack rest : List Token) :
    postOrderFrom stack (t :: rest) = prepend [t] (postOrderFrom stack rest) := by
  simp [postOrderFrom, hkind, hvalue, prepend]

theorem postOrderFrom_open {t : Token} (hkind : t.kind = .openParen) (stack rest : List Token) :
    postOrderFrom stack (t :: rest) = postOrderFrom (t :: stack) rest := by
  simp [postOrderFrom, hkind]

/-- A closing parenthesis sends out what waits above the opening one. -/
theorem postOrderFrom_close {strength : Nat} {opening t : Token} {group : List Token}
    (hopen : opening.kind = .openParen) (hkind : t.kind = .closeParen)
    (hgroup : ∀ u ∈ group, bindsAt strength u = true) (below rest : List Token) :
    postOrderFrom (group ++ opening :: below) (t :: rest) =
      prepend group (postOrderFrom below rest) := by
  have hupper : ∀ u ∈ group, (!u.isOpen) = true := by
    intro u hu
    simp [isOpen_eq_false_of_bindsAt (hgroup u hu)]
  have hlower : ∀ u, (opening :: below).head? = some u → (!u.isOpen) = false := by
    intro u hu
    cases hu
    simp [Token.isOpen, hopen]
  obtain ⟨htake, hdrop⟩ := cut_append (fun u : Token => !u.isOpen) hupper hlower
  simp [postOrderFrom, hkind, closeGroup?, htake, hdrop, prepend]

/-- An operator sends out the waiting operators that bind at least as tightly. -/
theorem postOrderFrom_operator {t : Token} {op : Operator} {waiting below : List Token}
    (hkind : t.kind = .operator op) (hwaiting : ∀ u ∈ waiting, bindsAt op.precedence u = true)
    (hbelow : LooseAt op.precedence below) (rest : List Token) :
    postOrderFrom (waiting ++ below) (t :: rest) =
      prepend waiting (postOrderFrom (t :: below) rest) := by
  obtain ⟨htake, hdrop⟩ := cut_append _ hwaiting hbelow
  simp [postOrderFrom, hkind, goesBefore_eq_bindsAt, htake, hdrop, prepend]

/-! ## Reading an expression -/

/-- Reading the tokens on a stack that is loose at some strength sends out the listing of the tree
up to some operators of that strength, which are left on top of the stack. -/
def Reads (strength : Nat) (tokens : List Token) (tree : OpTree Token) : Prop :=
  ∀ stack rest, LooseAt strength stack →
    ∃ out waiting, out ++ waiting = tree.postOrder ∧
      (∀ t ∈ waiting, bindsAt strength t = true) ∧
      postOrderFrom stack (tokens ++ rest) =
        prepend out (postOrderFrom (waiting ++ stack) rest)

/-- An expression of a stronger level is one of a weaker level. -/
theorem Reads.weaken {weaker stronger : Nat} {tokens : List Token} {tree : OpTree Token}
    (h : Reads stronger tokens tree) (hle : weaker ≤ stronger) : Reads weaker tokens tree := by
  intro stack rest hloose
  obtain ⟨out, waiting, hall, hbinds, hread⟩ := h stack rest (hloose.mono hle)
  exact ⟨out, waiting, hall, fun t ht => bindsAt_mono hle (hbinds t ht), hread⟩

/-- An operator of some strength joins an expression of that strength and a stronger one. -/
theorem Reads.join {strength : Nat} {t : Token} {op : Operator} {left right : List Token}
    {l r : OpTree Token} (hl : Reads strength left l) (hkind : t.kind = .operator op)
    (hop : op.precedence = strength) (hr : Reads (strength + 1) right r) :
    Reads strength (left ++ t :: right) (.branch t op l r) := by
  subst hop
  intro stack rest hloose
  obtain ⟨outL, waitingL, hallL, hbindsL, hreadL⟩ := hl stack (t :: right ++ rest) hloose
  have htop : LooseAt (op.precedence + 1) (t :: stack) := by
    intro u hu
    cases hu
    simp [bindsAt, hkind]
  obtain ⟨outR, waitingR, hallR, hbindsR, hreadR⟩ := hr (t :: stack) rest htop
  refine ⟨outL ++ waitingL ++ outR, waitingR ++ [t], ?_, ?_, ?_⟩
  · rw [OpTree.postOrder, ← hallL, ← hallR]
    simp
  · intro u hu
    rcases List.mem_append.mp hu with hu | hu
    · exact bindsAt_mono (Nat.le_succ _) (hbindsR u hu)
    · rw [List.mem_singleton.mp hu]
      simp [bindsAt, hkind]
  · calc
      postOrderFrom stack (left ++ t :: right ++ rest)
          = prepend outL (postOrderFrom (waitingL ++ stack) (t :: (right ++ rest))) := by
        simpa using hreadL
      _ = prepend outL (prepend waitingL (postOrderFrom (t :: stack) (right ++ rest))) := by
        rw [postOrderFrom_operator hkind hbindsL hloose]
      _ = prepend (outL ++ waitingL ++ outR)
            (postOrderFrom (waitingR ++ [t] ++ stack) rest) := by
        rw [hreadR]
        simp

/-- Parentheses make a factor of a sum. -/
theorem Reads.group {opening closing : Token} {tokens : List Token} {tree : OpTree Token}
    (h : Reads Level.sum.strength tokens tree) (hopen : opening.kind = .openParen)
    (hclose : closing.kind = .closeParen) :
    Reads Level.factor.strength (opening :: tokens ++ [closing]) tree := by
  intro stack rest _
  have htop : LooseAt Level.sum.strength (opening :: stack) := by
    intro u hu
    cases hu
    simp [bindsAt, hopen]
  obtain ⟨out, waiting, hall, hbinds, hread⟩ := h (opening :: stack) (closing :: rest) htop
  refine ⟨out ++ waiting, [], by simpa using hall, by simp, ?_⟩
  have hclosed := postOrderFrom_close hopen hclose hbinds stack rest
  simp only [List.cons_append, List.append_assoc, List.nil_append]
  rw [postOrderFrom_open hopen, hread, hclosed, prepend_prepend]

theorem Derives.reads {level : Level} {tokens : List Token} {tree : OpTree Token}
    (h : Derives level tokens tree) : Reads level.strength tokens tree := by
  induction h with
  | numeral hkind hvalue =>
      intro stack rest _
      exact ⟨_, [], List.append_nil _, by simp, postOrderFrom_numeral hkind hvalue stack rest⟩
  | group hopen hclose _ ih =>
      exact ih.group hopen hclose
  | ofFactor _ ih =>
      exact ih.weaken (by decide)
  | multiplicative _ hkind hop _ ihl ihr =>
      exact ihl.join hkind (by rcases hop with rfl | rfl <;> rfl) ihr
  | ofProduct _ ih =>
      exact ih.weaken (by decide)
  | additive _ hkind hop _ ihl ihr =>
      exact ihl.join hkind (by rcases hop with rfl | rfl <;> rfl) ihr

/-- The post-order of a derived token list is the listing of its tree. -/
theorem Derives.postOrder_eq {tokens : List Token} {tree : OpTree Token}
    (h : Derives .sum tokens tree) : postOrder tokens = .ok tree.postOrder := by
  obtain ⟨out, waiting, hall, hbinds, hread⟩ := h.reads [] [] (by simp [LooseAt])
  simp only [List.append_nil] at hread
  rw [postOrder, hread, postOrderFrom, drain_operators hbinds, ← hall]
  rfl

/-! ## Growing the tree back -/

/-- The labels of a tree are tokens that say what its nodes are. -/
def OpTree.SpelledByLabels : OpTree Token → Prop
  | .leaf t value => ∃ text, t.kind = .numeral text ∧ Decimal.parse? text = some value
  | .branch t op l r => t.kind = .operator op ∧ l.SpelledByLabels ∧ r.SpelledByLabels

theorem Derives.spelledByLabels {level : Level} {tokens : List Token} {tree : OpTree Token}
    (h : Derives level tokens tree) : tree.SpelledByLabels := by
  induction h with
  | numeral hkind hvalue => exact ⟨_, hkind, hvalue⟩
  | group _ _ _ ih => exact ih
  | ofFactor _ ih => exact ih
  | multiplicative _ hkind _ _ ihl ihr => exact ⟨hkind, ihl, ihr⟩
  | ofProduct _ ih => exact ih
  | additive _ hkind _ _ ihl ihr => exact ⟨hkind, ihl, ihr⟩

/-- Along the listing of a tree a forest grows by that tree. -/
theorem Forest.Shows.grow_postOrder {f : Forest} {trees : List (OpTree Nat)} {tree : OpTree Token}
    (hf : f.Shows trees) (hspelled : tree.SpelledByLabels) :
    ∃ g placed, tree.postOrder.foldlM Forest.grow f = .ok g ∧ g.Shows (placed :: trees) ∧
      placed.bare = tree.bare := by
  induction tree generalizing f trees with
  | leaf t value =>
      obtain ⟨text, hkind, hvalue⟩ := hspelled
      refine ⟨_, _, ?_, hf.leaf value t.span, rfl⟩
      simp [OpTree.postOrder, Forest.grow, hkind, hvalue]
  | branch t op l r ihl ihr =>
      obtain ⟨hkind, hspelledL, hspelledR⟩ := hspelled
      obtain ⟨gl, placedL, hgrowL, hshowsL, hbareL⟩ := ihl hf hspelledL
      obtain ⟨gr, placedR, hgrowR, hshowsR, hbareR⟩ := ihr hshowsL hspelledR
      have hroots : gr.roots = placedR.label :: placedL.label :: trees.map OpTree.label :=
        hshowsR.roots_eq.symm
      let span := (gr.spanAt placedL.label).join (gr.spanAt placedR.label)
      refine ⟨_, _, ?_, hshowsR.branch op span, by simp [OpTree.bare, hbareL, hbareR]⟩
      rw [OpTree.postOrder, List.foldlM_append, List.foldlM_append, hgrowL]
      change (r.postOrder.foldlM Forest.grow gl >>= _) = _
      rw [hgrowR]
      change ([t].foldlM Forest.grow gr) = _
      simp [Forest.grow, hkind, hroots, span]

/-- A token list of the infix grammar is put into the post-order of its derivation's tree, each
token with its span and without the parentheses, and the arena built from that listing shows
the same tree: the same operators with the same operands, and the values of the numerals. -/
theorem Derives.ofPostOrder_postOrder {tokens : List Token} {tree : OpTree Token}
    (h : Derives .sum tokens tree) :
    postOrder tokens = .ok tree.postOrder ∧
      ∃ a placed, Arena.ofPostOrder tree.postOrder = .ok a ∧ a.Shows placed ∧
        placed.bare = tree.bare := by
  refine ⟨h.postOrder_eq, ?_⟩
  obtain ⟨f, placed, hgrow, hshows, hbare⟩ :=
    Forest.shows_empty.grow_postOrder h.spelledByLabels
  obtain ⟨a, harena, htree⟩ := Arena.shows_of_toArena hshows
  refine ⟨a, placed, ?_, htree, hbare⟩
  rw [Arena.ofPostOrder, hgrow]
  exact harena

/-- The tokens of `8-(3-1)*2` are derived, and both passes bring out the tree of their
derivation. -/
theorem Derives.ofPostOrder_postOrder_nested :
    ∃ tokens tree, tokenize "8-(3-1)*2" = .ok tokens ∧ Derives .sum tokens tree ∧
      postOrder tokens = .ok tree.postOrder ∧
        ∃ a placed, Arena.ofPostOrder tree.postOrder = .ok a ∧ a.Shows placed ∧
          placed.bare = tree.bare := by
  have hinner : Derives .sum
      [⟨.numeral "3", ⟨3, 4⟩⟩, ⟨.operator .sub, ⟨4, 5⟩⟩, ⟨.numeral "1", ⟨5, 6⟩⟩] _ :=
    .additive (.ofProduct (.ofFactor (.numeral rfl (rfl : Decimal.parse? "3" = some 3.0)))) rfl
      (.inr rfl) (.ofFactor (.numeral rfl (rfl : Decimal.parse? "1" = some 1.0)))
  have hproduct : Derives .product
      [⟨.openParen, ⟨2, 3⟩⟩, ⟨.numeral "3", ⟨3, 4⟩⟩, ⟨.operator .sub, ⟨4, 5⟩⟩,
        ⟨.numeral "1", ⟨5, 6⟩⟩, ⟨.closeParen, ⟨6, 7⟩⟩, ⟨.operator .mul, ⟨7, 8⟩⟩,
        ⟨.numeral "2", ⟨8, 9⟩⟩] _ :=
    .multiplicative (.ofFactor (.group rfl rfl hinner)) rfl (.inl rfl)
      (.numeral rfl (rfl : Decimal.parse? "2" = some 2.0))
  have hwhole : Derives .sum
      ([⟨.numeral "8", ⟨0, 1⟩⟩] ++ ⟨.operator .sub, ⟨1, 2⟩⟩ :: _) _ :=
    .additive (.ofProduct (.ofFactor (.numeral rfl (rfl : Decimal.parse? "8" = some 8.0)))) rfl
      (.inr rfl) hproduct
  exact ⟨_, _, rfl, hwhole, hwhole.ofPostOrder_postOrder⟩

end TaskFarm.Expr
