import TaskFarm.Proofs.Expr.Lexeme
import Mathlib.Data.List.Nodup

/-!
# Exact lexing

A lexing of a text says by its spans alone what its tokens are: where they lie, what lies between
them, which minus is a sign, and how far a numeral goes.  Nothing in it mentions the scanner.  The
scanner finds the one lexing that a text has, and fails at the first character that rules every
lexing out.
-/

namespace TaskFarm.Expr

/-- The tokens lex the text `rest`, which stands behind the text `before`. -/
structure Lexing (before rest : List Char) (tokens : List Token) : Prop where
  behind : ∀ t ∈ tokens, byteLength before ≤ t.span.start
  nonempty : ∀ t ∈ tokens, t.span.start < t.span.stop
  /-- The spans are in increasing order and disjoint. -/
  ordered : tokens.Pairwise fun t u => t.span.stop ≤ u.span.start
  /-- The text of a token is what stands under its span. -/
  slices : ∀ t ∈ tokens, t.span.slice? (before ++ rest) = some t.text.toList
  /-- A byte outside of all spans belongs to a blank. -/
  covers : ∀ inner c after, rest = inner ++ c :: after → ∀ offset,
    (Span.ofParts (before ++ inner) [c]).Contains offset →
    (∀ t ∈ tokens, ¬t.span.Contains offset) → Text.isBlank c = true
  /-- A minus begins a numeral exactly in the place of a sign, and is an operator elsewhere. -/
  signs : ∀ inner after, rest = inner ++ '-' :: after →
    ((∃ t ∈ tokens, t.span.start = byteLength (before ++ inner) ∧
      ∃ text, t.kind = .numeral text) ↔ SignPlace (before ++ inner)) ∧
    (¬SignPlace (before ++ inner) →
      Token.behind (before ++ inner) ['-'] (.operator .sub) ∈ tokens)
  /-- A numeral is a run of digits and points that nothing prolongs, with or without a minus. -/
  numerals : ∀ t ∈ tokens, ∀ text, t.kind = .numeral text →
    ∃ inner run after, rest = inner ++ text.toList ++ after ∧
      t.span.start = byteLength (before ++ inner) ∧
      (text.toList = run ∨ text.toList = '-' :: run) ∧
      (∀ c ∈ run, numeralChar c = true) ∧
      ∀ c, after.head? = some c → numeralChar c = false

namespace Lexing

variable {before front rest : List Char} {tokens ts us : List Token}

/-- No two tokens begin at the same place. -/
theorem start_inj (h : Lexing before rest tokens) {t u : Token} (ht : t ∈ tokens)
    (hu : u ∈ tokens) (hstart : t.span.start = u.span.start) : t = u := by
  have hnodup : (tokens.map fun t => t.span.start).Nodup := by
    refine List.pairwise_map.mpr (h.ordered.imp_of_mem fun {t u} ht _ hle => ?_)
    have := h.nonempty t ht
    omega
  exact List.inj_on_of_nodup_map hnodup ht hu hstart

/-- Each token is a lexeme at its place in the text. -/
theorem lexeme (h : Lexing before rest tokens) {t : Token} (ht : t ∈ tokens) :
    ∃ inner after, rest = inner ++ t.text.toList ++ after ∧
      t.span = Span.ofParts (before ++ inner) t.text.toList ∧
      Lexeme (before ++ inner) t.text.toList t.kind ∧ Ends t.kind after := by
  obtain ⟨front, after, hsource, hspan⟩ := Span.slice?_eq_some_iff.mp (h.slices t ht)
  have hstart : t.span.start = byteLength front := by rw [hspan]; rfl
  obtain ⟨inner, rfl, hrest⟩ : ∃ inner, front = before ++ inner ∧
      rest = inner ++ (t.text.toList ++ after) :=
    append_split_of_byteLength_le (by simpa using hsource) (hstart ▸ h.behind t ht)
  refine ⟨inner, after, by simpa using hrest, hspan, ?_⟩
  cases hkind : t.kind with
  | numeral text =>
      obtain ⟨inner', run, after', hrest', hstart', hform, hrun, hend⟩ := h.numerals t ht text hkind
      have htext : t.text = text := by simp [Token.text, hkind]
      rw [htext] at hrest ⊢
      obtain ⟨rfl, hafter⟩ : inner = inner' ∧ text.toList ++ after = text.toList ++ after' := by
        refine append_inj_of_byteLength (by simpa [hrest] using hrest') ?_
        simpa [hstart'] using hstart.symm
      obtain rfl := List.append_cancel_left hafter
      refine ⟨?_, fun _ _ => hend⟩
      rcases hform with hform | hform
      · rw [← String.ofList_toList (s := text), String.toList_ofList, hform]
        refine .unsigned ?_ hrun
        rintro rfl
        have hwidth := h.nonempty t ht
        simp [hspan, Span.ofParts, htext, hform] at hwidth
      · rw [← String.ofList_toList (s := text), String.toList_ofList, hform]
        refine .signed ((h.signs inner (run ++ after) ?_).1.mp ⟨t, ht, hstart, text, hkind⟩) hrun
        simp [hrest, hform]
  | operator op =>
      have htext : t.text.toList = [op.symbol] := by simp [Token.text, hkind, Operator.text]
      rw [htext] at hrest ⊢
      refine ⟨.operator ?_, fun _ hnumeral => by cases hnumeral⟩
      rintro rfl hplace
      have hminus : rest = inner ++ '-' :: after := by simpa [Operator.symbol] using hrest
      obtain ⟨u, hu, hstartu, text, hkindu⟩ := (h.signs inner after hminus).1.mpr hplace
      rw [h.start_inj hu ht (hstartu.trans hstart.symm), hkind] at hkindu
      cases hkindu
  | openParen =>
      have htext : t.text.toList = ['('] := by simp [Token.text, hkind]
      rw [htext]
      exact ⟨.openParen, fun _ hnumeral => by cases hnumeral⟩
  | closeParen =>
      have htext : t.text.toList = [')'] := by simp [Token.text, hkind]
      rw [htext]
      exact ⟨.closeParen, fun _ hnumeral => by cases hnumeral⟩

theorem stop_eq (h : Lexing before rest tokens) {t : Token} (ht : t ∈ tokens) :
    t.span.stop = t.span.start + byteLength t.text.toList := by
  obtain ⟨inner, after, -, hspan, -, -⟩ := h.lexeme ht
  rw [hspan]
  rfl

theorem stop_le (h : Lexing before rest tokens) {t : Token} (ht : t ∈ tokens) :
    t.span.stop ≤ byteLength (before ++ rest) := by
  obtain ⟨inner, after, rfl, hspan, -, -⟩ := h.lexeme ht
  simp only [hspan, Span.ofParts, byteLength_append]
  omega

/-- From the beginning of a token to the end of the same one or of a later one there lies a part of
the text. -/
theorem exists_slice?_join (h : Lexing before rest tokens) {first last : Token}
    (hfirst : first ∈ tokens) (hlast : last ∈ tokens)
    (horder : first = last ∨ [first, last].Sublist tokens) :
    ∃ part, (first.span.join last.span).slice? (before ++ rest) = some part ∧ part ≠ [] := by
  have hlt : first.span.start < last.span.stop := by
    have hnonempty := h.nonempty first hfirst
    have hnonempty' := h.nonempty last hlast
    rcases horder with rfl | hsub
    · exact hnonempty
    · have hle : first.span.stop ≤ last.span.start :=
        List.rel_of_pairwise_cons (h.ordered.sublist hsub) (by simp)
      omega
  exact Span.exists_slice?_join (h.slices _ hfirst) (h.slices _ hlast) hlt

/-! ## Putting lexings together -/

theorem nil (before : List Char) : Lexing before [] [] where
  behind := by simp
  nonempty := by simp
  ordered := List.Pairwise.nil
  slices := by simp
  covers := by
    intro inner c after h
    simp at h
  signs := by
    intro inner after h
    simp at h
  numerals := by simp

/-- A blank is lexed without a token. -/
theorem blank (before : List Char) {c : Char} (hc : Text.isBlank c = true) :
    Lexing before [c] [] where
  behind := by simp
  nonempty := by simp
  ordered := List.Pairwise.nil
  slices := by simp
  covers := by
    intro inner d after h
    have hd : d ∈ [c] := by simp [h]
    rw [List.mem_singleton.mp hd]
    exact fun _ _ _ => hc
  signs := by
    intro inner after h
    have hd : '-' ∈ [c] := by simp [h]
    rw [← List.mem_singleton.mp hd] at hc
    exact absurd hc (by decide)
  numerals := by simp

/-- A lexeme is lexed by its own token. -/
theorem single {before lexeme : List Char} {kind : TokenKind} (h : Lexeme before lexeme kind) :
    Lexing before lexeme [Token.behind before lexeme kind] := by
  have hpos := byteLength_pos h.ne_nil
  have htext : (Token.behind before lexeme kind).text.toList = lexeme := h.text_eq _
  refine ⟨?_, ?_, List.pairwise_singleton _ _, ?_, ?_, ?_, ?_⟩
  · simp [Token.behind, Span.ofParts]
  · simpa [Token.behind, Span.ofParts] using hpos
  · intro t ht
    obtain rfl := List.mem_singleton.mp ht
    exact Span.slice?_eq_some_iff.mpr ⟨before, [], by simp [htext], by rw [htext]; rfl⟩
  · -- every byte of the lexeme lies under the token
    rintro inner c after rfl offset hoffset hoff
    refine absurd ?_ (hoff _ (List.mem_singleton_self _))
    simp only [Token.behind, Span.Contains, Span.ofParts, byteLength_append, byteLength_cons,
      byteLength_nil] at hoffset ⊢
    omega
  · rintro inner after rfl
    obtain ⟨rfl, ⟨hplace, text, rfl⟩ | ⟨hplace, rfl, rfl⟩⟩ := h.minus
    · refine ⟨⟨fun _ => by simpa using hplace, fun _ => ?_⟩, fun hno => ?_⟩
      · exact ⟨_, List.mem_singleton_self _, by simp [Token.behind, Span.ofParts], text, rfl⟩
      · exact absurd (by simpa using hplace) hno
    · refine ⟨⟨?_, fun hyes => ?_⟩, fun _ => ?_⟩
      · rintro ⟨t, ht, -, text, hkind⟩
        obtain rfl := List.mem_singleton.mp ht
        cases hkind
      · exact absurd (by simpa using hyes) hplace
      · simp
  · intro t ht text hkind
    obtain rfl := List.mem_singleton.mp ht
    obtain rfl : kind = .numeral text := hkind
    obtain ⟨run, hform, hrun⟩ := h.numeral
    have hlexeme : lexeme = text.toList := htext.symm
    refine ⟨[], run, [], by simp [hlexeme], ?_, hform, hrun, by simp⟩
    simp [Token.behind, Span.ofParts]

/-- Two texts that stand behind each other are lexed one after the other, unless the first one ends
with a numeral that the second one prolongs. -/
theorem append (h : Lexing before front ts) (h' : Lexing (before ++ front) rest us)
    (hend : ∀ t ∈ ts, t.span.stop = byteLength (before ++ front) → Ends t.kind rest) :
    Lexing before (front ++ rest) (ts ++ us) := by
  refine ⟨?_, ?_, ?_, ?_, ?_, ?_, ?_⟩
  · intro t ht
    rcases List.mem_append.mp ht with ht | ht
    · exact h.behind t ht
    · have := h'.behind t ht
      simp only [byteLength_append] at this
      omega
  · intro t ht
    exact (List.mem_append.mp ht).elim (h.nonempty t) (h'.nonempty t)
  · refine List.pairwise_append.mpr ⟨h.ordered, h'.ordered, fun t ht u hu => ?_⟩
    exact (h.stop_le ht).trans (h'.behind u hu)
  · intro t ht
    rcases List.mem_append.mp ht with ht | ht
    · obtain ⟨outer, after, hsource, hspan⟩ := Span.slice?_eq_some_iff.mp (h.slices t ht)
      exact Span.slice?_eq_some_iff.mpr
        ⟨outer, after ++ rest, by rw [← List.append_assoc, hsource]; simp, hspan⟩
    · rw [← List.append_assoc]
      exact h'.slices t ht
  · intro inner c after hsplit offset hoffset hoff
    rcases append_eq_append_cons hsplit with ⟨middle, hfront, -⟩ | ⟨middle, rfl, hrest⟩
    · exact h.covers inner c middle hfront offset hoffset fun t ht => hoff t (by simp [ht])
    · exact h'.covers middle c after hrest offset (by simpa using hoffset)
        fun t ht => hoff t (by simp [ht])
  · intro inner after hsplit
    rcases append_eq_append_cons hsplit with ⟨middle, hfront, -⟩ | ⟨middle, rfl, hrest⟩
    · obtain ⟨hsign, hminus⟩ := h.signs inner middle hfront
      refine ⟨⟨?_, fun hplace => ?_⟩, fun hplace => by simp [hminus hplace]⟩
      · rintro ⟨t, ht, hstart, hnumeral⟩
        rcases List.mem_append.mp ht with ht | ht
        · exact hsign.mp ⟨t, ht, hstart, hnumeral⟩
        · -- a token of the second text begins behind the whole first text
          have hlater := h'.behind t ht
          simp only [hstart, hfront, byteLength_append, byteLength_cons] at hlater
          have := Char.utf8Size_pos '-'
          omega
      · obtain ⟨t, ht, hstart, hnumeral⟩ := hsign.mpr hplace
        exact ⟨t, by simp [ht], hstart, hnumeral⟩
    · obtain ⟨hsign, hminus⟩ := h'.signs middle after hrest
      rw [List.append_assoc] at hsign hminus
      refine ⟨⟨?_, fun hplace => ?_⟩, fun hplace => by simp [hminus hplace]⟩
      · rintro ⟨t, ht, hstart, hnumeral⟩
        rcases List.mem_append.mp ht with ht | ht
        · -- a token of the first text begins before the second text
          have hstop := h.stop_le ht
          have hnonempty := h.nonempty t ht
          simp only [hstart, byteLength_append] at hstop hnonempty
          omega
        · exact hsign.mp ⟨t, ht, hstart, hnumeral⟩
      · obtain ⟨t, ht, hstart, hnumeral⟩ := hsign.mpr hplace
        exact ⟨t, by simp [ht], hstart, hnumeral⟩
  · intro t ht text hkind
    rcases List.mem_append.mp ht with ht | ht
    · obtain ⟨inner, run, after, hfront, hstart, hform, hrun, hhead⟩ := h.numerals t ht text hkind
      refine ⟨inner, run, after ++ rest, by simp [hfront], hstart, hform, hrun, ?_⟩
      cases after with
      | nil =>
          refine hend t ht ?_ text hkind
          have htext : t.text = text := by simp [Token.text, hkind]
          rw [h.stop_eq ht, hstart, htext, hfront]
          simp [Nat.add_assoc]
      | cons d after =>
          intro c hc
          exact hhead c (by simpa using hc)
    · obtain ⟨inner, run, after, hrest, hstart, hrun⟩ := h'.numerals t ht text hkind
      exact ⟨front ++ inner, run, after, by simp [hrest], by simpa using hstart, hrun⟩

/-! ## Taking lexings apart -/

/-- What is left of a lexing behind a place that no token crosses. -/
theorem drop (h : Lexing before (front ++ rest) (ts ++ us))
    (hts : ∀ t ∈ ts, t.span.stop ≤ byteLength (before ++ front))
    (hus : ∀ u ∈ us, byteLength (before ++ front) ≤ u.span.start) :
    Lexing (before ++ front) rest us := by
  refine ⟨hus, fun u hu => h.nonempty u (by simp [hu]), (List.pairwise_append.mp h.ordered).2.1,
    fun u hu => ?_, ?_, ?_, ?_⟩
  · rw [List.append_assoc]
    exact h.slices u (by simp [hu])
  · intro inner c after hrest offset hoffset hoff
    refine h.covers (front ++ inner) c after (by simp [hrest]) offset (by simpa using hoffset) ?_
    intro t ht
    rcases List.mem_append.mp ht with ht | ht
    · have hstop := hts t ht
      simp only [Span.Contains, Span.ofParts, byteLength_append] at hoffset hstop ⊢
      omega
    · exact hoff t ht
  · intro inner after hrest
    obtain ⟨hsign, hminus⟩ := h.signs (front ++ inner) after (by simp [hrest])
    have hnot : ∀ t ∈ ts, t.span.start ≠ byteLength (before ++ front ++ inner) := by
      intro t ht
      have hstop := hts t ht
      have hnonempty := h.nonempty t (by simp [ht])
      simp only [byteLength_append] at hstop ⊢
      omega
    rw [← List.append_assoc] at hsign hminus
    refine ⟨⟨?_, fun hplace => ?_⟩, fun hplace => ?_⟩
    · rintro ⟨t, ht, hstart, hnumeral⟩
      exact hsign.mp ⟨t, by simp [ht], hstart, hnumeral⟩
    · obtain ⟨t, ht, hstart, hnumeral⟩ := hsign.mpr hplace
      rcases List.mem_append.mp ht with ht | ht
      · exact absurd hstart (hnot t ht)
      · exact ⟨t, ht, hstart, hnumeral⟩
    · rcases List.mem_append.mp (hminus hplace) with ht | ht
      · exact absurd rfl (hnot _ ht)
      · exact ht
  · intro u hu text hkind
    obtain ⟨outer, run, after, hsplit, hstart, hrun⟩ := h.numerals u (by simp [hu]) text hkind
    have hle : byteLength front ≤ byteLength outer := by
      have := hus u hu
      simp only [hstart, byteLength_append] at this
      omega
    obtain ⟨inner, rfl, hrest⟩ := append_split_of_byteLength_le
      (hsplit.trans (List.append_assoc ..)) hle
    exact ⟨inner, run, after, by simpa using hrest, by simpa using hstart, hrun⟩

/-- No token begins with a blank. -/
theorem tail {c : Char} (h : Lexing before (c :: rest) tokens) (hc : Text.isBlank c = true) :
    Lexing (before ++ [c]) rest tokens := by
  have hparts : Lexing before ([c] ++ rest) ([] ++ tokens) := h
  refine hparts.drop (by simp) fun u hu => ?_
  obtain ⟨inner, after, hsplit, hspan, hlexeme, -⟩ := h.lexeme hu
  cases inner with
  | nil =>
      obtain ⟨d, text, htext⟩ := List.exists_cons_of_ne_nil hlexeme.ne_nil
      have hd : d ∈ u.text.toList := by simp [htext]
      obtain rfl : c = d := by
        rw [htext] at hsplit
        exact (List.cons.inj hsplit).1
      rw [(hlexeme.readable hd).2] at hc
      cases hc
  | cons d inner =>
      obtain ⟨rfl, -⟩ := List.cons.inj hsplit
      simp [hspan, Span.ofParts, Nat.add_assoc]

/-- A character that is not blank begins the first token. -/
theorem head {c : Char} (h : Lexing before (c :: rest) tokens) (hc : Text.isBlank c = false) :
    ∃ lexeme kind after us, Lexeme before lexeme kind ∧ Ends kind after ∧
      c :: rest = lexeme ++ after ∧ tokens = Token.behind before lexeme kind :: us ∧
      Lexing (before ++ lexeme) after us := by
  obtain ⟨t, ht, hstart, hstop⟩ : ∃ t ∈ tokens, t.span.Contains (byteLength before) := by
    by_contra hno
    have hblank := h.covers [] c rest rfl (byteLength before)
      ⟨by simp [Span.ofParts], by simp [Span.ofParts, c.utf8Size_pos]⟩
      fun t ht hcontains => hno ⟨t, ht, hcontains⟩
    rw [hc] at hblank
    cases hblank
  obtain ⟨ts, us, rfl⟩ := List.append_of_mem ht
  obtain ⟨-, hordered, hearlier⟩ := List.pairwise_append.mp h.ordered
  obtain rfl : ts = [] := by
    -- an earlier token would have to begin before the text
    refine List.eq_nil_iff_forall_not_mem.mpr fun u hu => ?_
    have hbehind := h.behind u (by simp [hu])
    have hnonempty := h.nonempty u (by simp [hu])
    have hle := hearlier u hu t (by simp)
    omega
  obtain ⟨inner, after, hsplit, hspan, hlexeme, hend⟩ := h.lexeme ht
  obtain rfl : inner = [] := by
    by_contra hne
    have hpos := byteLength_pos hne
    simp only [hspan, Span.ofParts, byteLength_append] at hstart
    omega
  simp only [List.append_nil, List.nil_append] at hsplit hspan hlexeme
  have htoken : t = Token.behind before t.text.toList t.kind := by
    rw [Token.behind, ← hspan]
  refine ⟨t.text.toList, t.kind, after, us, hlexeme, hend, hsplit, by simp [← htoken], ?_⟩
  have hparts : Lexing before (t.text.toList ++ after) ([t] ++ us) := by simpa [← hsplit] using h
  refine hparts.drop ?_ fun u hu => ?_
  · intro u hu
    rw [List.mem_singleton.mp hu, hspan]
    simp [Span.ofParts]
  · have hle := (List.pairwise_cons.mp hordered).1 u hu
    rw [hspan] at hle
    simpa [Span.ofParts] using hle

end Lexing

/-! ## The scanner finds the lexing -/

/-- A text behind another one has the lexing that the scan finds, and no other one. -/
theorem lexing_iff {before rest : List Char} {tokens : List Token} :
    Lexing before rest tokens ↔ scanBehind before rest = .ok tokens := by
  -- by induction on the length, since a scan takes a whole lexeme at a time
  generalize hlength : rest.length = n
  induction n using Nat.strong_induction_on generalizing before rest tokens with
  | h n ih =>
      subst hlength
      cases rest with
      | nil =>
          constructor
          · intro h
            refine congrArg Except.ok (List.eq_nil_iff_forall_not_mem.mpr fun t ht => ?_).symm
            obtain ⟨inner, after, hsplit, -, hlexeme, -⟩ := h.lexeme ht
            simp [hlexeme.ne_nil] at hsplit
          · intro h
            cases h
            exact Lexing.nil before
      | cons c rest =>
          by_cases hblank : Text.isBlank c = true
          · rw [scanBehind_blank hblank, ← ih _ (by simp) rfl]
            refine ⟨fun h => h.tail hblank, fun h => ?_⟩
            exact (Lexing.blank before hblank).append h (by simp)
          have hblank : Text.isBlank c = false := by simpa using hblank
          constructor
          · intro h
            obtain ⟨lexeme, kind, after, us, hlexeme, hend, hsplit, rfl, hrest⟩ := h.head hblank
            have hpos := List.length_pos_iff.mpr hlexeme.ne_nil
            have hshorter : after.length < (c :: rest).length := by
              rw [hsplit, List.length_append]
              omega
            rw [hsplit, scanBehind_lexeme hlexeme hend, (ih _ hshorter rfl).mp hrest]
            rfl
          · intro h
            have hc : Readable c := by
              by_contra hc
              rw [scanBehind_unreadable hc] at h
              cases h
            obtain ⟨lexeme, kind, after, hlexeme, hend, hsplit⟩ :=
              exists_lexeme before rest hc hblank
            have hpos := List.length_pos_iff.mpr hlexeme.ne_nil
            have hshorter : after.length < (c :: rest).length := by
              rw [hsplit, List.length_append]
              omega
            rw [hsplit, scanBehind_lexeme hlexeme hend] at h
            cases hscan : scanBehind (before ++ lexeme) after with
            | error e =>
                rw [hscan] at h
                cases h
            | ok us =>
                rw [hscan] at h
                cases h
                rw [hsplit]
                refine (Lexing.single hlexeme).append ((ih _ hshorter rfl).mpr hscan) ?_
                intro t ht _
                rw [List.mem_singleton.mp ht]
                exact hend

/-- What is tokenized has only characters that may stand in a source. -/
theorem readable_of_tokenize {source : String} {tokens : List Token}
    (h : tokenize source = .ok tokens) : ∀ c ∈ source.toList, Readable c := by
  by_contra hno
  push Not at hno
  obtain ⟨e, he⟩ := (exists_namesFirstUnreadable 0).mpr hno
  cases h.symm.trans (scanFrom_eq_error.mpr he)

theorem lexing_of_tokenize {source : String} {tokens : List Token}
    (h : tokenize source = .ok tokens) : Lexing [] source.toList tokens :=
  lexing_iff.mpr ((tokenize_eq_scanBehind source).symm.trans h)

/-- A source fails to be tokenized exactly if some character may not stand in it, and the error
names the first such character and its bytes.  Otherwise its tokens are its lexing, the only one
that it has. -/
theorem tokenize_exact (source : String) :
    ((∃ e, tokenize source = .error e) ↔ ∃ c ∈ source.toList, ¬Readable c) ∧
      (∀ e, tokenize source = .error e ↔ NamesFirstUnreadable 0 source.toList e) ∧
      ∀ tokens, tokenize source = .ok tokens ↔ Lexing [] source.toList tokens := by
  have herror : ∀ e, tokenize source = .error e ↔ NamesFirstUnreadable 0 source.toList e :=
    fun _ => scanFrom_eq_error
  refine ⟨?_, herror, fun tokens => ?_⟩
  · simp only [herror]
    exact exists_namesFirstUnreadable 0
  · rw [tokenize_eq_scanBehind]
    exact lexing_iff.symm

end TaskFarm.Expr
