import TaskFarm.Highlight
import TaskFarm.Proofs.Expr.Lexing

/-!
# What the colours of a line say

The coloured parts of a line are the line again, cut at the ends of its tokens or around its first
invalid character.  Hence every character has one colour, and the colour says what the character
belongs to: a numeral, an operator, a parenthesis, or no token at all.
-/

namespace TaskFarm

/-! ## Characters and spans -/

namespace Expr

variable {before rest inner after : List Char} {c : Char} {tokens : List Token} {s : Span}

/-- All bytes of the character behind some text lie in the span. -/
def Span.Covers (s : Span) (before : List Char) (c : Char) : Prop :=
  s.start ≤ byteLength before ∧ byteLength before + c.utf8Size ≤ s.stop

/-- No byte of the character behind some text lies in the span. -/
def Span.Misses (s : Span) (before : List Char) (c : Char) : Prop :=
  s.stop ≤ byteLength before ∨ byteLength before + c.utf8Size ≤ s.start

theorem Span.not_covers_of_misses (h : s.Misses before c) : ¬s.Covers before c := by
  have hpos := c.utf8Size_pos
  rintro ⟨hstart, hstop⟩
  rcases h with h | h
  · omega
  · omega

/-- A character is covered by one token at most. -/
theorem Lexing.covers_inj (h : Lexing before rest tokens) {t u : Token} (ht : t ∈ tokens)
    (hu : u ∈ tokens) (hcovers : t.span.Covers inner c) (hcovers' : u.span.Covers inner c) :
    t = u := by
  have hpos := c.utf8Size_pos
  obtain ⟨hstart, hstop⟩ := hcovers
  obtain ⟨hstart', hstop'⟩ := hcovers'
  have hmeet : ∀ t u : Token, t.span.stop ≤ u.span.start → t.span.start ≤ byteLength inner →
      byteLength inner + c.utf8Size ≤ t.span.stop → ¬u.span.start ≤ byteLength inner := by
    omega
  rcases List.mem_iff_append.mp ht with ⟨front, back, rfl⟩
  have hordered := List.pairwise_append.mp h.ordered
  rcases List.mem_append.mp hu with hu | hu
  · exact absurd hstart (hmeet u t (hordered.2.2 u hu t (by simp)) hstart' hstop')
  · rcases List.mem_cons.mp hu with rfl | hu
    · rfl
    · exact absurd hstart' (hmeet t u (List.rel_of_pairwise_cons hordered.2.1 hu) hstart hstop)

/-- What no token covers is a blank. -/
theorem Lexing.isBlank_of_misses (h : Lexing before rest tokens)
    (hsplit : rest = inner ++ c :: after)
    (hmisses : ∀ t ∈ tokens, t.span.Misses (before ++ inner) c) : Text.isBlank c = true := by
  have hpos := c.utf8Size_pos
  refine h.covers inner c after hsplit (byteLength (before ++ inner)) ?_ fun t ht hcontains => ?_
  · constructor
    · exact Nat.le_refl _
    · simpa [Span.ofParts] using hpos
  · obtain ⟨hstart, hstop⟩ := hcontains
    rcases hmisses t ht with hbehind | hahead
    · omega
    · omega

end Expr

open TaskFarm.Expr

namespace Highlight

variable {before rest gap text inner after : List Char} {c : Char} {tokens : List Token}
  {colour : Colour} {parts : List ColouredPart}

/-! ## Parts of a line -/

/-- The parts that a piece of a line makes up: none if it is empty. -/
def piece (colour : Colour) (text : List Char) : List ColouredPart :=
  if text.isEmpty then [] else [(colour, text)]

theorem part?_ofParts (before text after : List Char) (colour : Colour) :
    part? (before ++ text ++ after) colour (Span.ofParts before text) =
      some (piece colour text) := by
  have hslice : (Span.ofParts before text).slice? (before ++ text ++ after) = some text :=
    Span.slice?_eq_some_iff.mpr ⟨before, after, rfl, rfl⟩
  rw [part?, hslice]
  rfl

/-- The colours of the characters of some parts, one after the other. -/
def colours (parts : List ColouredPart) : List Colour :=
  parts.flatMap fun p => List.replicate p.2.length p.1

theorem colours_append (parts parts' : List ColouredPart) :
    colours (parts ++ parts') = colours parts ++ colours parts' :=
  List.flatMap_append

theorem colours_piece (colour : Colour) (text : List Char) :
    colours (piece colour text) = List.replicate text.length colour := by
  cases text with
  | nil => rfl
  | cons c text => simp [piece, colours]

theorem flatMap_piece (colour : Colour) (text : List Char) :
    (piece colour text).flatMap Prod.snd = text := by
  cases text with
  | nil => rfl
  | cons c text => simp [piece]

theorem ne_nil_of_mem_piece {p : ColouredPart} (h : p ∈ piece colour text) : p.2 ≠ [] := by
  cases text with
  | nil => cases h
  | cons c text =>
      rw [List.mem_singleton.mp h]
      exact List.cons_ne_nil c text

/-- A text in parts, none of which is empty. -/
structure Joins (text : List Char) (parts : List ColouredPart) : Prop where
  joined : parts.flatMap Prod.snd = text
  nonempty : ∀ p ∈ parts, p.2 ≠ []

theorem joins_piece (colour : Colour) (text : List Char) : Joins text (piece colour text) :=
  ⟨flatMap_piece colour text, fun _ => ne_nil_of_mem_piece⟩

theorem Joins.append {text text' : List Char} {parts parts' : List ColouredPart}
    (h : Joins text parts) (h' : Joins text' parts') : Joins (text ++ text') (parts ++ parts') := by
  constructor
  · rw [List.flatMap_append, h.joined, h'.joined]
  · intro p hp
    exact (List.mem_append.mp hp).elim (h.nonempty p) (h'.nonempty p)

/-! ## The parts of a line with tokens -/

/-- The colours of a text that stands behind another one: a character has the colour of the token
that covers it, or it is white and no token touches it. -/
def ColouredBy (before rest : List Char) (tokens : List Token) (colours : List Colour) : Prop :=
  ∀ inner c after, rest = inner ++ c :: after →
    (∃ t ∈ tokens, t.span.Covers (before ++ inner) c ∧
      colours[inner.length]? = some (.ofKind t.kind)) ∨
    ((∀ t ∈ tokens, t.span.Misses (before ++ inner) c) ∧ colours[inner.length]? = some .white)

theorem getElem?_replicate_append {index length : Nat} (h : index < length) (colour : Colour)
    (others : List Colour) : (List.replicate length colour ++ others)[index]? = some colour := by
  rw [List.getElem?_append_left (by simpa using h), List.getElem?_replicate, if_pos h]

/-- A gap, a token and what follows them have the colours of the three one after the other. -/
theorem ColouredBy.cons {t : Token} {us : List Token} {others : List Colour}
    (h : ColouredBy (before ++ gap ++ text) after us others)
    (hspan : t.span = Span.ofParts (before ++ gap) text)
    (hus : ∀ u ∈ us, byteLength (before ++ gap ++ text) ≤ u.span.start) :
    ColouredBy before (gap ++ (text ++ after)) (t :: us) (List.replicate gap.length .white ++
      (List.replicate text.length (.ofKind t.kind) ++ others)) := by
  intro inner c behind hsplit
  have hpos := c.utf8Size_pos
  rcases append_eq_append_cons hsplit with ⟨middle, rfl, -⟩ | ⟨middle, rfl, hrest⟩
  · -- a character of the gap
    refine .inr ⟨fun u hu => .inr ?_, getElem?_replicate_append (by simp) _ _⟩
    rcases List.mem_cons.mp hu with rfl | hu
    · simp only [hspan, Span.ofParts, byteLength_append, byteLength_cons]
      omega
    · have hle := hus u hu
      simp only [byteLength_append, byteLength_cons] at hle ⊢
      omega
  rcases append_eq_append_cons hrest with ⟨middle', rfl, -⟩ | ⟨middle', rfl, hafter⟩
  · -- a character of the token
    refine .inl ⟨t, List.mem_cons_self, ⟨?_, ?_⟩, ?_⟩
    · simp [hspan, Span.ofParts]
    · simp only [hspan, Span.ofParts, byteLength_append, byteLength_cons]
      omega
    · have hindex : (gap ++ middle).length - gap.length = middle.length := by simp
      rw [List.getElem?_append_right (by simp), List.length_replicate, hindex]
      exact getElem?_replicate_append (by simp) _ _
  · -- a character behind the token
    have hindex : (List.replicate gap.length Colour.white ++ (List.replicate text.length
        (.ofKind t.kind) ++ others))[(gap ++ (text ++ middle')).length]? =
          others[middle'.length]? := by
      simp [List.getElem?_append_right]
    have hbefore : before ++ (gap ++ (text ++ middle')) = before ++ gap ++ text ++ middle' := by
      simp
    rw [hindex, hbefore]
    rcases h middle' c behind hafter with ⟨u, hu, hcovers⟩ | ⟨hmisses, hwhite⟩
    · exact .inl ⟨u, List.mem_cons_of_mem t hu, hcovers⟩
    · refine .inr ⟨fun u hu => ?_, hwhite⟩
      rcases List.mem_cons.mp hu with rfl | hu
      · left
        simp only [hspan, Span.ofParts, byteLength_append]
        omega
      · exact hmisses u hu

/-- A lexed text is cut into its gaps and its tokens. -/
theorem exists_tokenParts? (h : Lexing before rest tokens) :
    ∃ parts, tokenParts? (before ++ rest) (byteLength before) tokens = some parts ∧
      Joins rest parts ∧ ColouredBy before rest tokens (colours parts) := by
  induction tokens generalizing before rest with
  | nil =>
      have hpart := part?_ofParts before rest [] .white
      rw [List.append_nil] at hpart
      refine ⟨piece .white rest, ?_, joins_piece _ _, ?_⟩
      · simpa [tokenParts?, Span.ofParts] using hpart
      · rintro inner c after rfl
        exact .inr ⟨by simp, by simp [colours_piece]⟩
  | cons t us ih =>
      obtain ⟨gap, after, rfl, hspan, -, -⟩ := h.lexeme List.mem_cons_self
      generalize t.text.toList = text at h hspan
      have hstart : t.span.start = byteLength before + byteLength gap := by
        simp [hspan, Span.ofParts]
      have hstop : t.span.stop = byteLength (before ++ gap ++ text) := by
        simp [hspan, Span.ofParts, Nat.add_assoc]
      have hus : ∀ u ∈ us, byteLength (before ++ gap ++ text) ≤ u.span.start := fun u hu =>
        hstop ▸ List.rel_of_pairwise_cons h.ordered hu
      have hlexing : Lexing (before ++ gap ++ text) after us := by
        have hparts : Lexing before ((gap ++ text) ++ after) ([t] ++ us) := h
        rw [List.append_assoc before] at hus hstop ⊢
        refine hparts.drop (fun u hu => ?_) hus
        rw [List.mem_singleton.mp hu, hstop]
      obtain ⟨others, hothers, hjoins, hcolours⟩ := ih hlexing
      refine ⟨piece .white gap ++ (piece (.ofKind t.kind) text ++ others), ?_, ?_, ?_⟩
      · have hgap := part?_ofParts before gap (text ++ after) .white
        have htoken := part?_ofParts (before ++ gap) text after (.ofKind t.kind)
        rw [← hspan] at htoken
        rw [Span.ofParts, ← hstart] at hgap
        rw [← hstop] at hothers
        simp only [List.append_assoc] at hgap htoken hothers ⊢
        simp [tokenParts?, hgap, htoken, hothers]
      · rw [List.append_assoc]
        exact (joins_piece _ _).append ((joins_piece _ _).append hjoins)
      · rw [colours_append, colours_append, colours_piece, colours_piece, List.append_assoc]
        exact hcolours.cons hspan hus

/-- What the colours of a line say of the tokens in it. -/
structure ByTokens (line : List Char) (tokens : List Token) (colours : List Colour) : Prop where
  /-- White is the blank outside of all tokens. -/
  white : ∀ before c after, line = before ++ c :: after →
    (colours[before.length]? = some .white ↔
      Text.isBlank c = true ∧ ∀ t ∈ tokens, t.span.Misses before c)
  cyan : ∀ before c after, line = before ++ c :: after →
    (colours[before.length]? = some .cyan ↔
      ∃ t ∈ tokens, t.span.Covers before c ∧ ∃ text, t.kind = .numeral text)
  magenta : ∀ before c after, line = before ++ c :: after →
    (colours[before.length]? = some .magenta ↔
      ∃ t ∈ tokens, t.span.Covers before c ∧ ∃ op, t.kind = .operator op)
  yellow : ∀ before c after, line = before ++ c :: after →
    (colours[before.length]? = some .yellow ↔
      ∃ t ∈ tokens, t.span.Covers before c ∧ (t.kind = .openParen ∨ t.kind = .closeParen))
  red : ∀ before c after, line = before ++ c :: after → colours[before.length]? ≠ some .red

theorem ofKind_ne_white (kind : TokenKind) : Colour.ofKind kind ≠ .white := by
  cases kind <;> simp [Colour.ofKind]

theorem ofKind_ne_red (kind : TokenKind) : Colour.ofKind kind ≠ .red := by
  cases kind <;> simp [Colour.ofKind]

theorem ofKind_eq_cyan_iff {kind : TokenKind} :
    Colour.ofKind kind = .cyan ↔ ∃ text, kind = .numeral text := by
  cases kind <;> simp [Colour.ofKind]

theorem ofKind_eq_magenta_iff {kind : TokenKind} :
    Colour.ofKind kind = .magenta ↔ ∃ op, kind = .operator op := by
  cases kind <;> simp [Colour.ofKind]

theorem ofKind_eq_yellow_iff {kind : TokenKind} :
    Colour.ofKind kind = .yellow ↔ kind = .openParen ∨ kind = .closeParen := by
  cases kind <;> simp [Colour.ofKind]

theorem ColouredBy.byTokens {line : List Char} {colours : List Colour}
    (hlexing : Lexing [] line tokens) (h : ColouredBy [] line tokens colours) :
    ByTokens line tokens colours := by
  -- the colour of a token is the colour of the characters that it covers, and of no other ones
  have hcoloured : ∀ colour ≠ Colour.white, ∀ before c after, line = before ++ c :: after →
      (colours[before.length]? = some colour ↔
        ∃ t ∈ tokens, t.span.Covers before c ∧ Colour.ofKind t.kind = colour) := by
    intro colour hcolour before c after hsplit
    rcases h before c after hsplit with ⟨t, ht, hcovers, hindex⟩ | ⟨hmisses, hindex⟩
    · rw [hindex, Option.some.injEq]
      refine ⟨fun heq => ⟨t, ht, hcovers, heq⟩, ?_⟩
      rintro ⟨u, hu, hcovers', heq⟩
      rw [hlexing.covers_inj ht hu hcovers hcovers', heq]
    · rw [hindex, Option.some.injEq]
      refine ⟨fun heq => absurd heq.symm hcolour, ?_⟩
      rintro ⟨t, ht, hcovers, -⟩
      exact absurd hcovers (Span.not_covers_of_misses (hmisses t ht))
  constructor
  · intro before c after hsplit
    rcases h before c after hsplit with ⟨t, ht, hcovers, hindex⟩ | ⟨hmisses, hindex⟩
    · rw [hindex, Option.some.injEq]
      refine ⟨fun heq => absurd heq (ofKind_ne_white t.kind), ?_⟩
      rintro ⟨-, hmisses⟩
      exact absurd hcovers (Span.not_covers_of_misses (hmisses t ht))
    · exact ⟨fun _ => ⟨hlexing.isBlank_of_misses hsplit hmisses, hmisses⟩, fun _ => hindex⟩
  · simpa only [ofKind_eq_cyan_iff] using hcoloured .cyan (by decide)
  · simpa only [ofKind_eq_magenta_iff] using hcoloured .magenta (by decide)
  · simpa only [ofKind_eq_yellow_iff] using hcoloured .yellow (by decide)
  · intro before c after hsplit
    rcases h before c after hsplit with ⟨t, -, -, hindex⟩ | ⟨-, hindex⟩
    · simpa [hindex] using ofKind_ne_red t.kind
    · simp [hindex]

/-! ## The parts of a line with an invalid character -/

/-- A line with an invalid character is cut around it. -/
theorem errorParts?_eq (front back : List Char) (c : Char) :
    errorParts? (front ++ c :: back) (Span.ofParts front [c]) =
      some (piece .white front ++ piece .red [c] ++ piece .white back) := by
  have hfront := part?_ofParts [] front (c :: back) .white
  have hbad := part?_ofParts front [c] back .red
  have hback := part?_ofParts (front ++ [c]) back [] .white
  simp only [Span.ofParts, List.nil_append, List.append_assoc, List.cons_append, List.append_nil,
    byteLength_nil, byteLength_append, byteLength_cons, Nat.zero_add, Nat.add_zero]
    at hfront hbad hback
  have hstart : min (byteLength front) (byteLength (front ++ c :: back)) = byteLength front := by
    simp
  have hstop : min (byteLength front + c.utf8Size) (byteLength (front ++ c :: back)) =
      byteLength front + c.utf8Size := by
    simp
  have hsize : byteLength (front ++ c :: back) =
      byteLength front + c.utf8Size + byteLength back := by
    simp [Nat.add_assoc]
  simp only [errorParts?, Span.ofParts, byteLength_cons, byteLength_nil, Nat.add_zero, hstart,
    hstop]
  rw [hsize]
  simp [hfront, hbad, hback]

/-! ## All lines -/

/-- Every line is cut into coloured parts that join to it again.  If it has tokens, the colours tell
numerals, operators, parentheses and the blanks between them apart; if not, the first character that
may not stand in a source is red and all others are white. -/
theorem exists_parts?_joins (line : String) :
    ∃ parts, parts? line = some parts ∧ Joins line.toList parts ∧
      ((∃ tokens, tokenize line = .ok tokens ∧ ByTokens line.toList tokens (colours parts)) ∨
        ∃ front c back, line.toList = front ++ c :: back ∧ (∀ d ∈ front, Readable d) ∧
          ¬Readable c ∧ tokenize line = .error (.invalidCharacter c (Span.ofParts front [c])) ∧
          colours parts =
            List.replicate front.length .white ++ .red :: List.replicate back.length .white) := by
  cases htokens : tokenize line with
  | ok tokens =>
      have hlexing := lexing_of_tokenize htokens
      obtain ⟨parts, hparts, hjoins, hcolours⟩ := exists_tokenParts? hlexing
      refine ⟨parts, ?_, hjoins, .inl ⟨tokens, rfl, hcolours.byTokens hlexing⟩⟩
      rw [parts?, htokens]
      exact hparts
  | error e =>
      obtain ⟨front, c, back, hline, hfront, hc, rfl⟩ := scanFrom_eq_error.mp htokens
      have hspan : (⟨0 + byteLength front, 0 + byteLength front + c.utf8Size⟩ : Span) =
          Span.ofParts front [c] := by
        simp [Span.ofParts]
      refine ⟨piece .white front ++ piece .red [c] ++ piece .white back, ?_, ?_,
        .inr ⟨front, c, back, hline, hfront, hc, by rw [hspan], ?_⟩⟩
      · rw [parts?, htokens, hline]
        simp only [CompileError.span, hspan]
        exact errorParts?_eq front back c
      · rw [hline, List.append_cons]
        exact ((joins_piece _ _).append (joins_piece _ _)).append (joins_piece _ _)
      · simp [colours_append, colours_piece]

end Highlight

end TaskFarm
