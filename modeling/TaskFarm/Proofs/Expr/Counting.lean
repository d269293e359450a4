import Mathlib.Data.List.TakeWhile
import TaskFarm.Proofs.Expr.Infix

/-!
# Counting numerals and operators

Whether a source is accepted is decided by counting: the post-order has the numerals and operators
of the source, and a forest becomes a tree only if there is one numeral more than there are
operators.  The step of the operator stack is taken apart once, in `postOrderFrom_cases`.
-/

namespace TaskFarm.Expr

namespace Token

def isNumeral (t : Token) : Bool :=
  match t.kind with
  | .numeral _ => true
  | _ => false

def isOperator (t : Token) : Bool :=
  match t.kind with
  | .operator _ => true
  | _ => false

end Token

def numeralsIn (tokens : List Token) : Nat :=
  tokens.countP Token.isNumeral

def operatorsIn (tokens : List Token) : Nat :=
  tokens.countP Token.isOperator

@[simp] theorem numeralsIn_append (ts us : List Token) :
    numeralsIn (ts ++ us) = numeralsIn ts + numeralsIn us :=
  List.countP_append

@[simp] theorem operatorsIn_append (ts us : List Token) :
    operatorsIn (ts ++ us) = operatorsIn ts + operatorsIn us :=
  List.countP_append

@[simp] theorem numeralsIn_cons (t : Token) (ts : List Token) :
    numeralsIn (t :: ts) = numeralsIn ts + if t.isNumeral then 1 else 0 :=
  List.countP_cons

@[simp] theorem operatorsIn_cons (t : Token) (ts : List Token) :
    operatorsIn (t :: ts) = operatorsIn ts + if t.isOperator then 1 else 0 :=
  List.countP_cons

@[simp] theorem numeralsIn_nil : numeralsIn [] = 0 := rfl

@[simp] theorem operatorsIn_nil : operatorsIn [] = 0 := rfl

theorem count_concat_numeral (ts : List Token) {t : Token} {text : String}
    (hkind : t.kind = .numeral text) : numeralsIn (ts ++ [t]) = numeralsIn ts + 1 ∧
      operatorsIn (ts ++ [t]) = operatorsIn ts := by
  simp [Token.isNumeral, Token.isOperator, hkind]

theorem count_concat_operator (ts : List Token) {t : Token} {op : Operator}
    (hkind : t.kind = .operator op) : numeralsIn (ts ++ [t]) = numeralsIn ts ∧
      operatorsIn (ts ++ [t]) = operatorsIn ts + 1 := by
  simp [Token.isNumeral, Token.isOperator, hkind]

/-! ## The operator stack -/

theorem isOperator_of_goesBefore {op : Operator} {t : Token} (h : goesBefore op t = true) :
    t.isOperator = true := by
  unfold goesBefore at h
  split at h
  · next other hkind => simp [Token.isOperator, hkind]
  · cases h

theorem Token.isOpen_eq_false_of_isOperator {t : Token} (h : t.isOperator = true) :
    t.isOpen = false := by
  unfold Token.isOperator at h
  split at h
  · next op hkind => simp [Token.isOpen, hkind]
  · cases h

/-- Prepending tokens to a listing succeeds if there is a listing. -/
theorem prepend_eq_ok {out all : List Token} {listing : Except CompileError (List Token)}
    (h : prepend out listing = .ok all) : ∃ more, listing = .ok more ∧ all = out ++ more := by
  cases listing with
  | error e => cases h
  | ok more =>
      cases h
      exact ⟨more, rfl, rfl⟩

theorem drain_eq_ok {stack out : List Token} (h : drain stack = .ok out) :
    out = stack ∧ ∀ t ∈ stack, t.isOpen = false := by
  induction stack generalizing out with
  | nil =>
      cases h
      exact ⟨rfl, by simp⟩
  | cons t stack ih =>
      have hparts : t.isOpen = false ∧ drain (t :: stack) = prepend [t] (drain stack) := by
        cases hkind : t.kind with
        | numeral text => simp [Token.isOpen, drain, hkind, prepend]
        | operator op => simp [Token.isOpen, drain, hkind, prepend]
        | openParen => simp [drain, hkind] at h
        | closeParen => simp [drain, hkind] at h
      obtain ⟨hopen, hstep⟩ := hparts
      obtain ⟨more, hmore, rfl⟩ := prepend_eq_ok (hstep ▸ h)
      obtain ⟨rfl, hall⟩ := ih hmore
      exact ⟨rfl, List.forall_mem_cons.mpr ⟨hopen, hall⟩⟩

theorem closeGroup?_eq_some {stack group below : List Token}
    (h : closeGroup? stack = some (group, below)) :
    ∃ opening, opening.kind = .openParen ∧ stack = group ++ opening :: below ∧
      ∀ u ∈ group, u.isOpen = false := by
  unfold closeGroup? at h
  split at h
  · cases h
  · next opening rest hdrop =>
    obtain ⟨rfl, rfl⟩ := Prod.mk.inj (Option.some.inj h)
    have hopen : opening.isOpen = true := by
      have hhead := List.head?_dropWhile_not (fun t : Token => !t.isOpen) stack
      rw [hdrop] at hhead
      simpa using hhead
    refine ⟨opening, by simpa [Token.isOpen] using hopen, ?_, ?_⟩
    · rw [← hdrop, List.takeWhile_append_dropWhile]
    · intro u hu
      simpa using List.mem_takeWhile_imp hu

/-- What one token does to the operator stack, if the listing succeeds. -/
theorem postOrderFrom_cases {stack rest out : List Token} {t : Token}
    (h : postOrderFrom stack (t :: rest) = .ok out) :
    (∃ text value more, t.kind = .numeral text ∧ Decimal.parse? text = some value ∧
      postOrderFrom stack rest = .ok more ∧ out = t :: more) ∨
    (t.kind = .openParen ∧ postOrderFrom (t :: stack) rest = .ok out) ∨
    (∃ opening group below more, t.kind = .closeParen ∧ opening.kind = .openParen ∧
      stack = group ++ opening :: below ∧ (∀ u ∈ group, u.isOpen = false) ∧
      postOrderFrom below rest = .ok more ∧ out = group ++ more) ∨
    (∃ op group below more, t.kind = .operator op ∧ stack = group ++ below ∧
      (∀ u ∈ group, u.isOperator = true) ∧
      postOrderFrom (t :: below) rest = .ok more ∧ out = group ++ more) := by
  cases hkind : t.kind with
  | numeral text =>
      cases hvalue : Decimal.parse? text with
      | none => simp [postOrderFrom, hkind, hvalue] at h
      | some value =>
          rw [postOrderFrom_numeral hkind hvalue] at h
          obtain ⟨more, hmore, rfl⟩ := prepend_eq_ok h
          exact .inl ⟨text, value, more, rfl, hvalue, hmore, rfl⟩
  | openParen =>
      rw [postOrderFrom_open hkind] at h
      exact .inr (.inl ⟨rfl, h⟩)
  | closeParen =>
      simp only [postOrderFrom, hkind] at h
      split at h
      · next group below hgroup =>
        obtain ⟨more, hmore, rfl⟩ := prepend_eq_ok h
        obtain ⟨opening, hopen, hstack, hclosed⟩ := closeGroup?_eq_some hgroup
        exact .inr (.inr (.inl
          ⟨opening, group, below, more, rfl, hopen, hstack, hclosed, hmore, rfl⟩))
      · cases h
  | operator op =>
      simp only [postOrderFrom, hkind] at h
      obtain ⟨more, hmore, rfl⟩ := prepend_eq_ok h
      refine .inr (.inr (.inr ⟨op, _, _, more, rfl, List.takeWhile_append_dropWhile.symm, ?_, hmore,
        rfl⟩))
      exact fun u hu => isOperator_of_goesBefore (List.mem_takeWhile_imp hu)

/-! ## What the listing has of the source -/

/-- A listing has the numerals and operators of the stack and of the source. -/
theorem postOrderFrom_count {stack rest out : List Token}
    (h : postOrderFrom stack rest = .ok out) :
    numeralsIn out = numeralsIn stack + numeralsIn rest ∧
      operatorsIn out = operatorsIn stack + operatorsIn rest := by
  induction rest generalizing stack out with
  | nil =>
      obtain ⟨rfl, -⟩ := drain_eq_ok h
      exact ⟨rfl, rfl⟩
  | cons t rest ih =>
      rcases postOrderFrom_cases h with
        ⟨text, value, more, hkind, -, hmore, rfl⟩ | ⟨hkind, hout⟩ |
        ⟨opening, group, below, more, hkind, hopen, rfl, -, hmore, rfl⟩ |
        ⟨op, group, below, more, hkind, rfl, -, hmore, rfl⟩
      · obtain ⟨hnumerals, hoperators⟩ := ih hmore
        simp only [numeralsIn_cons, operatorsIn_cons, hnumerals, hoperators]
        omega
      · obtain ⟨hnumerals, hoperators⟩ := ih hout
        simp only [numeralsIn_cons, operatorsIn_cons] at hnumerals hoperators ⊢
        omega
      · obtain ⟨hnumerals, hoperators⟩ := ih hmore
        simp [hnumerals, hoperators, Token.isNumeral, Token.isOperator, hopen, hkind, Nat.add_assoc]
      · obtain ⟨hnumerals, hoperators⟩ := ih hmore
        simp only [numeralsIn_append, operatorsIn_append, numeralsIn_cons,
          operatorsIn_cons] at hnumerals hoperators ⊢
        omega

/-! ## Roots of a forest -/

/-- A numeral adds a root, and an operator joins two roots. -/
theorem Forest.grow_roots {f g : Forest} {t : Token} (h : f.grow t = .ok g) :
    g.roots.length + (if t.isOperator then 1 else 0) =
      f.roots.length + if t.isNumeral then 1 else 0 := by
  unfold Forest.grow at h
  split at h
  · next text hkind =>
    split at h
    · cases h
      simp [Token.isNumeral, Token.isOperator, hkind, Forest.add]
    · cases h
  · next op hkind =>
    split at h
    · next right left below hroots =>
      cases h
      simp [Token.isNumeral, Token.isOperator, hkind, Forest.add, hroots]
    · cases h
  · cases h
  · cases h

theorem Forest.foldlM_roots {tokens : List Token} {f g : Forest}
    (h : tokens.foldlM Forest.grow f = .ok g) :
    g.roots.length + operatorsIn tokens = f.roots.length + numeralsIn tokens := by
  induction tokens generalizing f with
  | nil =>
      cases h
      rfl
  | cons t tokens ih =>
      rw [List.foldlM_cons] at h
      cases hstep : f.grow t with
      | error e =>
          rw [hstep] at h
          cases h
      | ok next =>
          rw [hstep] at h
          have hroots := Forest.grow_roots hstep
          have hrest := ih h
          simp only [numeralsIn_cons, operatorsIn_cons]
          omega

theorem Forest.roots_of_toArena {f : Forest} {a : Arena} (h : f.toArena = .ok a) :
    f.roots.length = 1 := by
  unfold Forest.toArena at h
  split at h
  · next root hroots => simp [hroots]
  · cases h
  · cases h

/-- The listing of a tree has one numeral more than it has operators. -/
theorem Arena.count_of_ofPostOrder {tokens : List Token} {a : Arena}
    (h : Arena.ofPostOrder tokens = .ok a) : numeralsIn tokens = operatorsIn tokens + 1 := by
  unfold Arena.ofPostOrder at h
  cases hf : tokens.foldlM Forest.grow Forest.empty with
  | error e =>
      rw [hf] at h
      cases h
  | ok f =>
      rw [hf] at h
      have hroots := Forest.foldlM_roots hf
      have hone := Forest.roots_of_toArena h
      simp only [Forest.empty, List.length_nil] at hroots
      omega

/-- What is parsed has been tokenized, put into post-order and built. -/
theorem parse_eq_ok {source : String} {a : Arena} (h : parse source = .ok a) :
    ∃ tokens listing, tokenize source = .ok tokens ∧ postOrder tokens = .ok listing ∧
      Arena.ofPostOrder listing = .ok a := by
  unfold parse at h
  cases htokens : tokenize source with
  | error e =>
      rw [htokens] at h
      cases h
  | ok tokens =>
      rw [htokens] at h
      change (postOrder tokens).bind Arena.ofPostOrder = .ok a at h
      cases hlisting : postOrder tokens with
      | error e =>
          rw [hlisting] at h
          cases h
      | ok listing =>
          rw [hlisting] at h
          exact ⟨tokens, listing, rfl, hlisting, h⟩

/-- What is not parsed has failed in one of the three passes. -/
theorem parse_eq_error {source : String} {e : CompileError} (h : parse source = .error e) :
    tokenize source = .error e ∨ ∃ tokens, tokenize source = .ok tokens ∧
      (postOrder tokens = .error e ∨ ∃ listing, postOrder tokens = .ok listing ∧
        Arena.ofPostOrder listing = .error e) := by
  unfold parse at h
  cases htokens : tokenize source with
  | error e' =>
      rw [htokens] at h
      exact .inl (congrArg Except.error (Except.error.inj h))
  | ok tokens =>
      rw [htokens] at h
      refine .inr ⟨tokens, rfl, ?_⟩
      change (postOrder tokens).bind Arena.ofPostOrder = .error e at h
      cases hlisting : postOrder tokens with
      | error e' =>
          rw [hlisting] at h
          exact .inl (congrArg Except.error (Except.error.inj h))
      | ok listing =>
          rw [hlisting] at h
          exact .inr ⟨listing, rfl, h⟩

/-- An accepted source has one numeral more than it has operators. -/
theorem count_of_postOrder {tokens listing : List Token} {a : Arena}
    (hlisting : postOrder tokens = .ok listing) (h : Arena.ofPostOrder listing = .ok a) :
    numeralsIn tokens = operatorsIn tokens + 1 := by
  obtain ⟨hnumerals, hoperators⟩ := postOrderFrom_count hlisting
  have hcount := Arena.count_of_ofPostOrder h
  simp only [numeralsIn_nil, operatorsIn_nil] at hnumerals hoperators
  omega

end TaskFarm.Expr
