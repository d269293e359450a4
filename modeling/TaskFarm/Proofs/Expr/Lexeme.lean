import TaskFarm.Expr.Scan
import TaskFarm.Proofs.Expr.Infix
import TaskFarm.Proofs.Expr.Span
import Mathlib.Data.List.TakeWhile

/-!
# Lexemes

The scanner goes over the text character by character and carries an unfinished numeral.  What it
does is said more easily lexeme by lexeme: behind some text, the next thing is a blank, a whole
lexeme, or a character that may not stand in a source.  The equations of this module let a scan take
such a step, so that later proofs never look at an unfinished numeral.
-/

namespace TaskFarm.Expr

/-! ## Characters -/

/-- Digits and points make up numerals. -/
def numeralChar (c : Char) : Bool :=
  Decimal.isDigit c || c == '.'

/-- The characters that may stand in a source text. -/
def Readable (c : Char) : Prop :=
  Text.isBlank c = true ∨ Decimal.isDigit c = true ∨ c ∈ ['.', '+', '-', '*', '/', '(', ')']

/-- A minus that stands directly behind this text is the sign of a number. -/
def SignPlace (before : List Char) : Prop :=
  before = [] ∨ ∃ p ∈ before.getLast?, p ∈ ['+', '-', '*', '/']

theorem isSome_ofChar?_iff {c : Char} :
    (Operator.ofChar? c).isSome = true ↔ c ∈ ['+', '-', '*', '/'] := by
  constructor
  · intro h
    obtain ⟨op, hop⟩ := Option.isSome_iff_exists.mp h
    rw [← Operator.symbol_of_ofChar? hop]
    cases op <;> decide
  · intro h
    simp only [List.mem_cons, List.not_mem_nil, or_false] at h
    rcases h with rfl | rfl | rfl | rfl <;> decide

theorem signFollows_getLast? {before : List Char} :
    signFollows before.getLast? = true ↔ SignPlace before := by
  cases h : before.getLast? with
  | none =>
      have hnil : before = [] := List.getLast?_eq_none_iff.mp h
      simp [signFollows, SignPlace, hnil]
  | some p =>
      have hne : before ≠ [] := by
        rintro rfl
        cases h
      simp only [signFollows, isSome_ofChar?_iff, SignPlace, h, Option.mem_def, Option.some.injEq,
        exists_eq_left', hne, false_or]

theorem isBlank_eq_false_of_numeralChar {c : Char} (h : numeralChar c = true) :
    Text.isBlank c = false := by
  have hcode : c.toNat = 46 ∨ 48 ≤ c.toNat ∧ c.toNat ≤ 57 := by
    simp only [numeralChar, Decimal.isDigit, Bool.or_eq_true, Bool.and_eq_true, decide_eq_true_eq,
      beq_iff_eq] at h
    rcases h with ⟨hlow, hhigh⟩ | rfl
    · exact .inr ⟨hlow, hhigh⟩
    · exact .inl rfl
  simp only [Text.isBlank, Text.inRanges, Text.blankRanges, List.any_cons, List.any_nil,
    Bool.or_false, Bool.or_eq_false_iff, Bool.and_eq_false_iff, decide_eq_false_iff_not]
  omega

theorem numeralChar_symbol (op : Operator) : numeralChar op.symbol = false := by
  cases op <;> decide

theorem isBlank_symbol (op : Operator) : Text.isBlank op.symbol = false := by
  cases op <;> decide

theorem readable_of_numeralChar {c : Char} (h : numeralChar c = true) : Readable c := by
  simp only [numeralChar, Bool.or_eq_true, beq_iff_eq] at h
  rcases h with hdigit | rfl
  · exact .inr (.inl hdigit)
  · exact .inr (.inr (by decide))

theorem readable_symbol (op : Operator) : Readable op.symbol := by
  refine .inr (.inr ?_)
  cases op <;> decide

/-! ## Lexemes -/

/-- The characters of one token behind some text, and what kind of token they are. -/
inductive Lexeme (before : List Char) : List Char → TokenKind → Prop
  | unsigned {run : List Char} : run ≠ [] → (∀ c ∈ run, numeralChar c = true) →
      Lexeme before run (.numeral (String.ofList run))
  | signed {run : List Char} : SignPlace before → (∀ c ∈ run, numeralChar c = true) →
      Lexeme before ('-' :: run) (.numeral (String.ofList ('-' :: run)))
  | operator {op : Operator} : (op = .sub → ¬SignPlace before) →
      Lexeme before [op.symbol] (.operator op)
  | openParen : Lexeme before ['('] .openParen
  | closeParen : Lexeme before [')'] .closeParen

/-- A token of this kind ends where the given text goes on: no numeral is cut short. -/
def Ends (kind : TokenKind) (rest : List Char) : Prop :=
  ∀ text, kind = .numeral text → ∀ c, rest.head? = some c → numeralChar c = false

theorem ends_of_ne_numeral {kind : TokenKind} (h : ∀ text, kind ≠ .numeral text)
    (rest : List Char) : Ends kind rest :=
  fun text hkind => absurd hkind (h text)

/-- The token that a lexeme makes behind some text. -/
def Token.behind (before lexeme : List Char) (kind : TokenKind) : Token :=
  ⟨kind, Span.ofParts before lexeme⟩

namespace Lexeme

variable {before lexeme : List Char} {kind : TokenKind}

theorem ne_nil (h : Lexeme before lexeme kind) : lexeme ≠ [] := by
  cases h with
  | unsigned hne _ => exact hne
  | signed _ _ => exact List.cons_ne_nil _ _
  | operator _ => exact List.cons_ne_nil _ _
  | openParen => exact List.cons_ne_nil _ _
  | closeParen => exact List.cons_ne_nil _ _

theorem text_eq (h : Lexeme before lexeme kind) (span : Span) :
    (Token.text ⟨kind, span⟩).toList = lexeme := by
  cases h <;> simp [Token.text, Operator.text]

/-- A lexeme consists of characters that may stand in a source and that are not blank. -/
theorem readable (h : Lexeme before lexeme kind) {c : Char} (hc : c ∈ lexeme) :
    Readable c ∧ Text.isBlank c = false := by
  cases h with
  | unsigned _ hrun =>
      exact ⟨readable_of_numeralChar (hrun c hc), isBlank_eq_false_of_numeralChar (hrun c hc)⟩
  | signed _ hrun =>
      rcases List.mem_cons.mp hc with rfl | hc
      · exact ⟨.inr (.inr (by decide)), by decide⟩
      · exact ⟨readable_of_numeralChar (hrun c hc), isBlank_eq_false_of_numeralChar (hrun c hc)⟩
  | operator _ =>
      rw [List.mem_singleton.mp hc]
      exact ⟨readable_symbol _, isBlank_symbol _⟩
  | openParen =>
      rw [List.mem_singleton.mp hc]
      exact ⟨.inr (.inr (by decide)), by decide⟩
  | closeParen =>
      rw [List.mem_singleton.mp hc]
      exact ⟨.inr (.inr (by decide)), by decide⟩

/-- A minus in a lexeme is its first character: a sign or an operator, as the place has it. -/
theorem minus {inner after : List Char} (h : Lexeme before (inner ++ '-' :: after) kind) :
    inner = [] ∧ ((SignPlace before ∧ ∃ text, kind = .numeral text) ∨
      (¬SignPlace before ∧ kind = .operator .sub ∧ after = [])) := by
  have hno : ∀ run : List Char, (∀ c ∈ run, numeralChar c = true) → '-' ∉ run := by
    intro run hrun hmem
    exact absurd (hrun _ hmem) (by decide)
  generalize hlexeme : inner ++ '-' :: after = lexeme at h
  have hmem : '-' ∈ lexeme := by simp [← hlexeme]
  cases h with
  | unsigned _ hrun => exact absurd hmem (hno _ hrun)
  | signed hplace hrun =>
      cases inner with
      | nil => exact ⟨rfl, .inl ⟨hplace, _, rfl⟩⟩
      | cons c inner =>
          obtain ⟨-, rfl⟩ := List.cons.inj hlexeme
          exact absurd (by simp) (hno _ hrun)
  | @operator op hplace =>
      obtain ⟨rfl, hsymbol, rfl⟩ : inner = [] ∧ '-' = op.symbol ∧ after = [] := by
        cases inner with
        | nil => simpa using hlexeme
        | cons c inner => simp at hlexeme
      obtain rfl : op = .sub := by
        cases op with
        | sub => rfl
        | add => exact absurd hsymbol (by decide)
        | mul => exact absurd hsymbol (by decide)
        | div => exact absurd hsymbol (by decide)
      exact ⟨rfl, .inr ⟨hplace rfl, rfl, rfl⟩⟩
  | openParen => exact absurd hmem (by decide)
  | closeParen => exact absurd hmem (by decide)

/-- The lexeme of a numeral is a run of numeral characters, with or without a minus. -/
theorem numeral {text : String} (h : Lexeme before lexeme (.numeral text)) :
    ∃ run, (text.toList = run ∨ text.toList = '-' :: run) ∧ ∀ c ∈ run, numeralChar c = true := by
  cases h with
  | unsigned _ hrun => exact ⟨_, .inl (by simp), hrun⟩
  | signed _ hrun => exact ⟨_, .inr (by simp), hrun⟩

end Lexeme

/-! ## The role of a character -/

/-- What each role says of its character and of what stands before it. -/
theorem role_cases (previous : Option Char) (c : Char) :
    (Text.isBlank c = true ∧ CharRole.of previous c = .blank) ∨
    (numeralChar c = true ∧ CharRole.of previous c = .digit) ∨
    (c = '-' ∧ signFollows previous = true ∧ CharRole.of previous c = .sign) ∨
    (∃ op : Operator, op.symbol = c ∧ (op = .sub → signFollows previous = false) ∧
      CharRole.of previous c = .operator op) ∨
    (c = '(' ∧ CharRole.of previous c = .paren .openParen) ∨
    (c = ')' ∧ CharRole.of previous c = .paren .closeParen) ∨
    (¬Readable c ∧ CharRole.of previous c = .invalid) := by
  unfold CharRole.of
  by_cases hblank : Text.isBlank c = true
  · simp [hblank]
  rw [if_neg hblank]
  by_cases hnumeral : numeralChar c = true
  · exact .inr (.inl ⟨hnumeral, if_pos hnumeral⟩)
  have hnot : ¬(Decimal.isDigit c || c == '.') = true := hnumeral
  rw [if_neg hnot]
  by_cases hsign : (c == '-' && signFollows previous) = true
  · obtain ⟨hminus, hfollows⟩ := Bool.and_eq_true_iff.mp hsign
    exact .inr (.inr (.inl ⟨beq_iff_eq.mp hminus, hfollows, if_pos hsign⟩))
  rw [if_neg hsign]
  cases hop : Operator.ofChar? c with
  | some op =>
      have hsymbol := Operator.symbol_of_ofChar? hop
      refine .inr (.inr (.inr (.inl ⟨op, hsymbol, ?_, rfl⟩)))
      rintro rfl
      simpa [← hsymbol, Operator.symbol] using hsign
  | none =>
      refine .inr (.inr (.inr (.inr ?_)))
      by_cases hopen : c = '('
      · exact .inl ⟨hopen, if_pos hopen⟩
      by_cases hclose : c = ')'
      · exact .inr (.inl ⟨hclose, by simp [hclose]⟩)
      refine .inr (.inr ⟨?_, by simp [hopen, hclose]⟩)
      have hsymbols : c ∉ ['+', '-', '*', '/'] := by
        rw [← isSome_ofChar?_iff, hop]
        simp
      simp only [numeralChar, Bool.or_eq_true, beq_iff_eq, not_or] at hnumeral
      simp only [List.mem_cons, List.not_mem_nil, or_false, not_or] at hsymbols
      simp [Readable, hblank, hnumeral, hopen, hclose, hsymbols]

theorem role_blank {previous : Option Char} {c : Char} (h : Text.isBlank c = true) :
    CharRole.of previous c = .blank :=
  if_pos h

theorem role_digit {previous : Option Char} {c : Char} (h : numeralChar c = true) :
    CharRole.of previous c = .digit := by
  have hnumeral : (Decimal.isDigit c || c == '.') = true := h
  simp [CharRole.of, isBlank_eq_false_of_numeralChar h, hnumeral]

theorem role_sign {previous : Option Char} (h : signFollows previous = true) :
    CharRole.of previous '-' = .sign := by
  have hblank : Text.isBlank '-' = false := by decide
  have hdigit : Decimal.isDigit '-' = false := by decide
  simp [CharRole.of, hblank, hdigit, h]

theorem role_symbol {previous : Option Char} {op : Operator}
    (h : op = .sub → signFollows previous = false) :
    CharRole.of previous op.symbol = .operator op := by
  have hnumeral : (Decimal.isDigit op.symbol || op.symbol == '.') = false := numeralChar_symbol op
  have hsign : (op.symbol == '-' && signFollows previous) = false := by
    cases op with
    | sub => simp [h rfl]
    | add => rfl
    | mul => rfl
    | div => rfl
  simp [CharRole.of, isBlank_symbol, hnumeral, hsign]

/-- Behind some text, a character that may stand there and is not blank begins a lexeme. -/
theorem exists_lexeme (before : List Char) {c : Char} (rest : List Char) (hc : Readable c)
    (hblank : Text.isBlank c = false) :
    ∃ lexeme kind after, Lexeme before lexeme kind ∧ Ends kind after ∧
      c :: rest = lexeme ++ after := by
  -- the run of numeral characters at the front of a text
  have hcut : ∀ cs : List Char, (∀ d ∈ cs.takeWhile numeralChar, numeralChar d = true) ∧
      ∀ kind, Ends kind (cs.dropWhile numeralChar) := by
    intro cs
    refine ⟨fun d hd => List.mem_takeWhile_imp hd, fun _ _ _ d hd => ?_⟩
    by_contra hnumeral
    exact absurd (List.head?_dropWhile_not numeralChar cs) (by simp [hd, hnumeral])
  rcases role_cases before.getLast? c with
    ⟨h, -⟩ | ⟨hnumeral, -⟩ | ⟨rfl, hplace, -⟩ | ⟨op, rfl, hplace, -⟩ | ⟨rfl, -⟩ | ⟨rfl, -⟩ | ⟨h, -⟩
  · rw [hblank] at h
    cases h
  · obtain ⟨hrun, hend⟩ := hcut (c :: rest)
    refine ⟨_, _, _, .unsigned ?_ hrun, hend _, (List.takeWhile_append_dropWhile).symm⟩
    simp [hnumeral]
  · obtain ⟨hrun, hend⟩ := hcut rest
    refine ⟨_, _, _, .signed (signFollows_getLast?.mp hplace) hrun, hend _, ?_⟩
    simp
  · refine ⟨_, _, rest, .operator fun hsub => ?_, ends_of_ne_numeral (by simp) rest, rfl⟩
    rw [← signFollows_getLast?, hplace hsub]
    simp
  · exact ⟨_, _, rest, .openParen, ends_of_ne_numeral (by simp) rest, rfl⟩
  · exact ⟨_, _, rest, .closeParen, ends_of_ne_numeral (by simp) rest, rfl⟩
  · exact absurd hc h

/-! ## Scanning lexeme by lexeme -/

/-- The tokens of a text that stands behind another one, where no numeral is unfinished. -/
def scanBehind (before rest : List Char) : Except CompileError (List Token) :=
  scanFrom (byteLength before) before.getLast? none rest

theorem tokenize_eq_scanBehind (source : String) :
    tokenize source = scanBehind [] source.toList := rfl

theorem scanBehind_nil (before : List Char) : scanBehind before [] = .ok [] := rfl

/-- A numeral that is not cut short is finished, and the scan goes on without it. -/
theorem scanFrom_some {offset : Nat} {previous : Option Char} {n : Collected} {rest : List Char}
    (hend : ∀ c, rest.head? = some c → numeralChar c = false) :
    scanFrom offset previous (some n) rest =
      prepend [⟨.numeral (String.ofList n.text), ⟨n.start, offset⟩⟩]
        (scanFrom offset previous none rest) := by
  cases rest with
  | nil => rfl
  | cons c rest =>
      have hdigit := hend c rfl
      rcases role_cases previous c with ⟨-, hrole⟩ | ⟨hnumeral, -⟩ | ⟨-, -, hrole⟩ |
        ⟨op, -, -, hrole⟩ | ⟨-, hrole⟩ | ⟨-, hrole⟩ | ⟨-, hrole⟩
      · simp only [scanFrom, hrole]
        cases scanFrom (offset + c.utf8Size) (some c) none rest <;> rfl
      · rw [hdigit] at hnumeral
        cases hnumeral
      · simp only [scanFrom, hrole]
        cases scanFrom (offset + c.utf8Size) (some c) (some ⟨offset, [c]⟩) rest <;> rfl
      · simp only [scanFrom, hrole]
        cases scanFrom (offset + c.utf8Size) (some c) none rest <;> rfl
      · simp only [scanFrom, hrole]
        cases scanFrom (offset + c.utf8Size) (some c) none rest <;> rfl
      · simp only [scanFrom, hrole]
        cases scanFrom (offset + c.utf8Size) (some c) none rest <;> rfl
      · simp only [scanFrom, hrole]
        rfl

/-- A run of numeral characters is collected. -/
theorem scanFrom_run (before : List Char) {run : List Char} (rest : List Char) (n : Collected)
    (hrun : ∀ c ∈ run, numeralChar c = true) :
    scanFrom (byteLength before) before.getLast? (some n) (run ++ rest) =
      scanFrom (byteLength (before ++ run)) (before ++ run).getLast?
        (some { n with text := n.text ++ run }) rest := by
  induction run generalizing before n with
  | nil => simp
  | cons c run ih =>
      have hrole : CharRole.of before.getLast? c = .digit := role_digit (hrun c (by simp))
      have hstep := ih (before ++ [c]) { n with text := n.text ++ [c] }
        fun d hd => hrun d (by simp [hd])
      simp only [byteLength_append, byteLength_cons, byteLength_nil, List.append_assoc,
        List.cons_append, List.nil_append, List.getLast?_concat, Nat.add_zero] at hstep
      simp only [List.cons_append, scanFrom, hrole, Collected.extend, hstep, byteLength_append,
        byteLength_cons]

theorem scanBehind_blank {before : List Char} {c : Char} (h : Text.isBlank c = true)
    (rest : List Char) : scanBehind before (c :: rest) = scanBehind (before ++ [c]) rest := by
  simp only [scanBehind, scanFrom, role_blank h, byteLength_append, byteLength_cons,
    byteLength_nil, List.getLast?_concat, Nat.add_zero]
  exact prepend_nil _

/-- An operator or a parenthesis is a token by itself. -/
theorem scanBehind_single {before rest : List Char} {c : Char} {kind : TokenKind}
    (h : (∃ op, kind = .operator op ∧ CharRole.of before.getLast? c = .operator op) ∨
      CharRole.of before.getLast? c = .paren kind) :
    scanBehind before (c :: rest) =
      prepend [Token.behind before [c] kind] (scanBehind (before ++ [c]) rest) := by
  have hnext : scanBehind (before ++ [c]) rest =
      scanFrom (byteLength before + c.utf8Size) (some c) none rest := by
    simp [scanBehind]
  rw [hnext]
  rcases h with ⟨op, rfl, hrole⟩ | hrole
  · simp only [scanBehind, scanFrom, hrole]
    rfl
  · simp only [scanBehind, scanFrom, hrole]
    rfl

/-- The scan takes a whole lexeme and makes its token. -/
theorem scanBehind_lexeme {before lexeme rest : List Char} {kind : TokenKind}
    (h : Lexeme before lexeme kind) (hend : Ends kind rest) :
    scanBehind before (lexeme ++ rest) =
      prepend [Token.behind before lexeme kind] (scanBehind (before ++ lexeme) rest) := by
  cases h with
  | @unsigned run hne hrun =>
      obtain ⟨c, run, rfl⟩ := List.exists_cons_of_ne_nil hne
      have hrole : CharRole.of before.getLast? c = .digit := role_digit (hrun c (by simp))
      have hstep := scanFrom_run (before ++ [c]) rest ⟨byteLength before, [c]⟩
        fun d hd => hrun d (List.mem_cons_of_mem c hd)
      rw [scanFrom_some (hend _ rfl)] at hstep
      simpa [scanBehind, scanFrom, hrole, Collected.extend, Token.behind, Span.ofParts] using hstep
  | @signed run hplace hrun =>
      have hrole := role_sign (signFollows_getLast?.mpr hplace)
      have hstep := scanFrom_run (before ++ ['-']) rest ⟨byteLength before, ['-']⟩ hrun
      rw [scanFrom_some (hend _ rfl)] at hstep
      simp only [byteLength_append, byteLength_cons, byteLength_nil, List.append_assoc,
        List.cons_append, List.nil_append, List.getLast?_concat, Nat.add_zero] at hstep
      simp only [scanBehind, List.cons_append, scanFrom, hrole, hstep, Token.behind, Span.ofParts,
        byteLength_append, byteLength_cons]
      exact prepend_nil _
  | @operator op hplace =>
      refine scanBehind_single (.inl ⟨op, rfl, role_symbol fun hsub => ?_⟩)
      rw [Bool.eq_false_iff, ne_eq, signFollows_getLast?]
      exact hplace hsub
  | openParen => exact scanBehind_single (.inr rfl)
  | closeParen => exact scanBehind_single (.inr rfl)

/-! ## Characters that may not stand in a source -/

/-- An error about the first character of a text that may not stand there, with its place in the
source, where the text begins at an offset. -/
def NamesFirstUnreadable (offset : Nat) (cs : List Char) (e : CompileError) : Prop :=
  ∃ front c back, cs = front ++ c :: back ∧ (∀ d ∈ front, Readable d) ∧ ¬Readable c ∧
    e = .invalidCharacter c
      ⟨offset + byteLength front, offset + byteLength front + c.utf8Size⟩

theorem namesFirstUnreadable_cons {offset : Nat} {c : Char} {cs : List Char} {e : CompileError}
    (hc : Readable c) :
    NamesFirstUnreadable offset (c :: cs) e ↔
      NamesFirstUnreadable (offset + c.utf8Size) cs e := by
  constructor
  · rintro ⟨front, d, back, hsplit, hfront, hd, rfl⟩
    cases front with
    | nil =>
        obtain ⟨rfl, -⟩ := List.cons.inj hsplit
        exact absurd hc hd
    | cons first front =>
        obtain ⟨rfl, rfl⟩ := List.cons.inj hsplit
        refine ⟨front, d, back, rfl, fun x hx => hfront x (by simp [hx]), hd, ?_⟩
        simp [Nat.add_assoc]
  · rintro ⟨front, d, back, rfl, hfront, hd, rfl⟩
    refine ⟨c :: front, d, back, rfl, ?_, hd, ?_⟩
    · intro x hx
      rcases List.mem_cons.mp hx with rfl | hx
      · exact hc
      · exact hfront x hx
    · simp [Nat.add_assoc]

/-- A scan fails exactly at the first character that may not stand in a source. -/
theorem scanFrom_eq_error {offset : Nat} {previous : Option Char} {collected : Option Collected}
    {cs : List Char} {e : CompileError} :
    scanFrom offset previous collected cs = .error e ↔ NamesFirstUnreadable offset cs e := by
  induction cs generalizing offset previous collected with
  | nil => simp [scanFrom_nil, NamesFirstUnreadable]
  | cons c cs ih =>
      have hmap : ∀ (f : List Token → List Token) (r : Except CompileError (List Token)),
          r.map f = .error e ↔ r = .error e := by
        intro f r
        cases r <;> simp [Except.map]
      rcases role_cases previous c with ⟨hblank, hrole⟩ | ⟨hnumeral, hrole⟩ | ⟨rfl, -, hrole⟩ |
        ⟨op, rfl, -, hrole⟩ | ⟨rfl, hrole⟩ | ⟨rfl, hrole⟩ | ⟨hc, hrole⟩
      · rw [namesFirstUnreadable_cons (.inl hblank)]
        simp only [scanFrom, hrole, hmap, ih]
      · rw [namesFirstUnreadable_cons (readable_of_numeralChar hnumeral)]
        simp only [scanFrom, hrole, ih]
      · rw [namesFirstUnreadable_cons (.inr (.inr (by decide)))]
        simp only [scanFrom, hrole, hmap, ih]
      · rw [namesFirstUnreadable_cons (readable_symbol op)]
        simp only [scanFrom, hrole, hmap, ih]
      · rw [namesFirstUnreadable_cons (.inr (.inr (by decide)))]
        simp only [scanFrom, hrole, hmap, ih]
      · rw [namesFirstUnreadable_cons (.inr (.inr (by decide)))]
        simp only [scanFrom, hrole, hmap, ih]
      · simp only [scanFrom, hrole, Except.error.injEq]
        constructor
        · rintro rfl
          exact ⟨[], c, cs, rfl, by simp, hc, rfl⟩
        · rintro ⟨front, d, back, hsplit, hfront, -, rfl⟩
          cases front with
          | nil =>
              obtain ⟨rfl, -⟩ := List.cons.inj hsplit
              rfl
          | cons first front =>
              obtain ⟨rfl, -⟩ := List.cons.inj hsplit
              exact absurd (hfront c (by simp)) hc

/-- A scan does not get over a character that may not stand in a source. -/
theorem scanBehind_unreadable {before rest : List Char} {c : Char} (hc : ¬Readable c) :
    scanBehind before (c :: rest) =
      .error (.invalidCharacter c (Span.ofParts before [c])) :=
  scanFrom_eq_error.mpr ⟨[], c, rest, rfl, by simp, hc, by simp [Span.ofParts]⟩

theorem exists_namesFirstUnreadable (offset : Nat) {cs : List Char} :
    (∃ e, NamesFirstUnreadable offset cs e) ↔ ∃ c ∈ cs, ¬Readable c := by
  constructor
  · rintro ⟨e, front, c, back, rfl, -, hc, -⟩
    exact ⟨c, by simp, hc⟩
  · intro h
    induction cs generalizing offset with
    | nil => simp at h
    | cons c cs ih =>
        by_cases hc : Readable c
        · obtain ⟨d, hd, hunreadable⟩ := h
          have hne : d ≠ c := by
            rintro rfl
            exact hunreadable hc
          obtain ⟨e, he⟩ := ih (offset + c.utf8Size)
            ⟨d, (List.mem_cons.mp hd).resolve_left hne, hunreadable⟩
          exact ⟨e, (namesFirstUnreadable_cons hc).mpr he⟩
        · exact ⟨_, [], c, cs, rfl, by simp, hc, rfl⟩

end TaskFarm.Expr
