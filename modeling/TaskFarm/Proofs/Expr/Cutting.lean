import TaskFarm.Proofs.Expr.Lexing

/-!
# Cutting a source

What a scan finds depends on the text before it in two ways only: the spans count the bytes in front
of them, and a minus at the front of the text is a sign or an operator according to the character
before it.  Hence a part of a source that begins and ends between two tokens has the tokens that lie
in it, with their spans counted from the beginning of the part.
-/

namespace TaskFarm.Expr

/-! ## Places further behind -/

/-- What comes of a scan that begins so many bytes further behind. -/
def moved (bytes : Nat) : Except CompileError (List Token) → Except CompileError (List Token)
  | .ok tokens => .ok (tokens.map (Token.shift bytes))
  | .error e => .error (e.shift bytes)

theorem map_eq_moved {bytes : Nat} {f g : List Token → List Token}
    (h : ∀ tokens, g (tokens.map (Token.shift bytes)) = (f tokens).map (Token.shift bytes))
    {found found' : Except CompileError (List Token)} (hfound : found' = moved bytes found) :
    found'.map g = moved bytes (found.map f) := by
  subst hfound
  cases found with
  | ok tokens => exact congrArg Except.ok (h tokens)
  | error e => rfl

def Collected.shift (bytes : Nat) (n : Collected) : Collected :=
  { n with start := n.start + bytes }

theorem Collected.tokens_shift (bytes stop : Nat) (collected : Option Collected) :
    Collected.tokens (stop + bytes) (collected.map (Collected.shift bytes)) =
      (Collected.tokens stop collected).map (Token.shift bytes) := by
  cases collected <;> rfl

theorem Collected.extend_shift (bytes offset : Nat) (c : Char) (collected : Option Collected) :
    Collected.extend (offset + bytes) c (collected.map (Collected.shift bytes)) =
      (Collected.extend offset c collected).shift bytes := by
  cases collected <;> rfl

/-- A scan further behind finds the same further behind. -/
theorem scanFrom_shift (bytes offset : Nat) (previous : Option Char) (collected : Option Collected)
    (cs : List Char) :
    scanFrom (offset + bytes) previous (collected.map (Collected.shift bytes)) cs =
      moved bytes (scanFrom offset previous collected cs) := by
  induction cs generalizing offset previous collected with
  | nil => simp [scanFrom_nil, moved, Collected.tokens_shift]
  | cons c rest ih =>
      have hnext : offset + bytes + c.utf8Size = offset + c.utf8Size + bytes :=
        Nat.add_right_comm ..
      cases hrole : CharRole.of previous c with
      | blank =>
          simp only [scanFrom, hrole, hnext]
          exact map_eq_moved (fun tokens => by simp [Collected.tokens_shift]) (ih _ _ none)
      | digit =>
          simp only [scanFrom, hrole, hnext, Collected.extend_shift]
          exact ih _ _ (some _)
      | sign =>
          simp only [scanFrom, hrole, hnext]
          exact map_eq_moved (fun tokens => by simp [Collected.tokens_shift])
            (ih _ (some c) (some ⟨offset, [c]⟩))
      | operator op =>
          simp only [scanFrom, hrole, hnext]
          refine map_eq_moved (fun tokens => ?_) (ih _ _ none)
          simp [Collected.tokens_shift, Token.shift, Span.shift]
      | paren kind =>
          simp only [scanFrom, hrole, hnext]
          refine map_eq_moved (fun tokens => ?_) (ih _ _ none)
          simp [Collected.tokens_shift, Token.shift, Span.shift]
      | invalid => simp [scanFrom, hrole, hnext, moved, CompileError.shift, Span.shift]

/-- The character before a text matters only to a minus at its front. -/
theorem scanFrom_previous {previous previous' : Option Char} {cs : List Char}
    (h : cs.head? = some '-' → signFollows previous = signFollows previous') (offset : Nat)
    (collected : Option Collected) :
    scanFrom offset previous collected cs = scanFrom offset previous' collected cs := by
  cases cs with
  | nil => rfl
  | cons c rest =>
      have hrole : CharRole.of previous c = CharRole.of previous' c := by
        unfold CharRole.of
        by_cases hminus : c = '-'
        · rw [h (by rw [hminus]; rfl)]
        · simp [hminus]
      simp only [scanFrom, hrole]

/-- A text is scanned by itself as behind another one, unless it begins with a minus that is an
operator there. -/
theorem scanBehind_eq_moved {before rest : List Char}
    (h : rest.head? = some '-' → SignPlace before) :
    scanBehind before rest = moved (byteLength before) (scanBehind [] rest) := by
  have hprevious : scanFrom (byteLength before) before.getLast? none rest =
      scanFrom (byteLength before) none none rest := by
    refine scanFrom_previous (fun hminus => ?_) _ none
    rw [signFollows_getLast?.mpr (h hminus)]
    rfl
  have hshift := scanFrom_shift (byteLength before) 0 none none rest
  rw [Nat.zero_add] at hshift
  exact hprevious.trans hshift

/-! ## Parts of a source -/

/-- What lies of a lexing before a place that no token crosses. -/
theorem Lexing.take {before front rest : List Char} {ts us : List Token}
    (h : Lexing before (front ++ rest) (ts ++ us))
    (hts : ∀ t ∈ ts, t.span.stop ≤ byteLength (before ++ front))
    (hus : ∀ u ∈ us, byteLength (before ++ front) ≤ u.span.start) : Lexing before front ts := by
  -- the text of a token, as far as it is put together here, ends before the place
  have hcut : ∀ {outer text after : List Char} {t : Token}, t ∈ ts →
      before ++ (front ++ rest) = outer ++ text ++ after → t.span = Span.ofParts outer text →
      ∃ middle, before ++ front = outer ++ text ++ middle ∧ after = middle ++ rest := by
    intro outer text after t ht hsplit hspan
    refine append_split_of_byteLength_le (hsplit.symm.trans (List.append_assoc ..).symm) ?_
    have hstop := hts t ht
    rw [hspan] at hstop
    simpa [Span.ofParts] using hstop
  refine ⟨fun t ht => h.behind t (by simp [ht]), fun t ht => h.nonempty t (by simp [ht]),
    (List.pairwise_append.mp h.ordered).1, fun t ht => ?_, ?_, ?_, ?_⟩
  · obtain ⟨outer, after, hsplit, hspan⟩ :=
      Span.slice?_eq_some_iff.mp (h.slices t (by simp [ht]))
    obtain ⟨middle, hfront, -⟩ := hcut ht hsplit hspan
    exact Span.slice?_eq_some_iff.mpr ⟨outer, middle, hfront, hspan⟩
  · rintro inner c after rfl offset hoffset hoff
    refine h.covers inner c (after ++ rest) (by simp) offset hoffset fun t ht => ?_
    rcases List.mem_append.mp ht with ht | ht
    · exact hoff t ht
    · have hstart := hus t ht
      simp only [Span.Contains, Span.ofParts, byteLength_append, byteLength_cons,
        byteLength_nil] at hoffset hstart ⊢
      omega
  · rintro inner after rfl
    obtain ⟨hsign, hminus⟩ := h.signs inner (after ++ rest) (by simp)
    have hnot : ∀ u ∈ us, u.span.start ≠ byteLength (before ++ inner) := by
      intro u hu
      have hstart := hus u hu
      have := Char.utf8Size_pos '-'
      simp only [byteLength_append, byteLength_cons] at hstart ⊢
      omega
    refine ⟨⟨?_, fun hplace => ?_⟩, fun hplace => ?_⟩
    · rintro ⟨t, ht, hstart, hnumeral⟩
      exact hsign.mp ⟨t, by simp [ht], hstart, hnumeral⟩
    · obtain ⟨t, ht, hstart, hnumeral⟩ := hsign.mpr hplace
      rcases List.mem_append.mp ht with ht | ht
      · exact ⟨t, ht, hstart, hnumeral⟩
      · exact absurd hstart (hnot t ht)
    · rcases List.mem_append.mp (hminus hplace) with ht | ht
      · exact ht
      · exact absurd rfl (hnot _ ht)
  · intro t ht text hkind
    obtain ⟨inner, run, after, hsplit, hstart, hform, hrun, hend⟩ :=
      h.numerals t (by simp [ht]) text hkind
    have htext : t.text = text := by simp [Token.text, hkind]
    have hspan : t.span = Span.ofParts (before ++ inner) text.toList := by
      have hstop := h.stop_eq (t := t) (by simp [ht])
      rw [hstart, htext] at hstop
      obtain ⟨kind, start, stop⟩ := t
      simp only at hstart hstop
      rw [hstart, hstop, Span.ofParts]
    have hwhole : before ++ (front ++ rest) = before ++ inner ++ text.toList ++ after := by
      simp [hsplit]
    obtain ⟨middle, hfront, rfl⟩ := hcut ht hwhole hspan
    refine ⟨inner, run, middle, ?_, hstart, hform, hrun, fun c hc => hend c ?_⟩
    · simpa using hfront
    · rw [List.head?_append, hc]
      rfl

/-- A part of a source that begins and ends between two tokens has the tokens that lie in it. -/
theorem tokenize_part {source : String} {before part after : List Char}
    {earlier inner later : List Token} (h : tokenize source = .ok (earlier ++ inner ++ later))
    (hsource : source.toList = before ++ part ++ after)
    (hearlier : ∀ t ∈ earlier, t.span.stop ≤ byteLength before)
    (hinner : ∀ t ∈ inner, byteLength before ≤ t.span.start ∧
      t.span.stop ≤ byteLength (before ++ part))
    (hlater : ∀ t ∈ later, byteLength (before ++ part) ≤ t.span.start)
    (hminus : part.head? = some '-' → SignPlace before) :
    ∃ tokens, tokenize (String.ofList part) = .ok tokens ∧
      tokens.map (Token.shift (byteLength before)) = inner := by
  have hwhole := lexing_of_tokenize h
  rw [hsource, List.append_assoc, List.append_assoc] at hwhole
  have hbehind : Lexing before (part ++ after) (inner ++ later) := by
    refine hwhole.drop hearlier fun u hu => ?_
    rcases List.mem_append.mp hu with hu | hu
    · exact (hinner u hu).1
    · have hstart := hlater u hu
      simp only [List.nil_append, byteLength_append] at hstart ⊢
      omega
  have hpart := hbehind.take (fun t ht => (hinner t ht).2) hlater
  rw [lexing_iff, scanBehind_eq_moved hminus] at hpart
  rw [tokenize_eq_scanBehind, String.toList_ofList]
  cases hscan : scanBehind [] part with
  | error e =>
      rw [hscan] at hpart
      cases hpart
  | ok tokens =>
      rw [hscan] at hpart
      exact ⟨tokens, rfl, Except.ok.inj hpart⟩

/-- The text from the beginning of a numeral to the end of a later token has the tokens between
them. -/
theorem tokenize_slice {source : String} {earlier inner later : List Token} {first last : Token}
    (h : tokenize source = .ok (earlier ++ inner ++ later)) (hfirst : inner.head? = some first)
    (hlast : inner.getLast? = some last) (hnumeral : ∃ text, first.kind = .numeral text) :
    ∃ part tokens, (first.span.join last.span).slice? source.toList = some part ∧
      tokenize (String.ofList part) = .ok tokens ∧
      tokens.map (Token.shift first.span.start) = inner := by
  have hlexing := lexing_of_tokenize h
  obtain ⟨rest, hrest⟩ := List.head?_eq_some_iff.mp hfirst
  obtain ⟨init, hinit⟩ := List.getLast?_eq_some_iff.mp hlast
  have hfirstmem : first ∈ earlier ++ inner ++ later := by simp [hrest]
  have hlastmem : last ∈ earlier ++ inner ++ later := by simp [hinit]
  obtain ⟨hfront, -, hlater⟩ := List.pairwise_append.mp hlexing.ordered
  obtain ⟨-, hwithin, hearlier⟩ := List.pairwise_append.mp hfront
  -- the tokens between them, with a place for each of the two ends
  have hbounds : ∀ t ∈ inner, first.span.start ≤ t.span.start ∧ t.span.stop ≤ last.span.stop := by
    intro t ht
    have hnonempty := hlexing.nonempty t (by simp [ht])
    have hnonempty' := hlexing.nonempty first hfirstmem
    have hnonempty'' := hlexing.nonempty last hlastmem
    constructor
    · rw [hrest] at ht hwithin
      rcases List.mem_cons.mp ht with rfl | ht
      · exact Nat.le_refl _
      · have := (List.pairwise_cons.mp hwithin).1 t ht
        omega
    · rw [hinit] at ht hwithin
      rcases List.mem_append.mp ht with ht | ht
      · have := (List.pairwise_append.mp hwithin).2.2 t ht last (by simp)
        omega
      · rw [List.mem_singleton.mp ht]
  have hlt : first.span.start < last.span.stop := by
    have hnonempty := hlexing.nonempty first hfirstmem
    have hle := (hbounds first (by simp [hrest])).2
    omega
  obtain ⟨part, hslice, -⟩ := Span.exists_slice?_join (hlexing.slices _ hfirstmem)
    (hlexing.slices _ hlastmem) hlt
  obtain ⟨before, after, hsource, hspan⟩ := Span.slice?_eq_some_iff.mp hslice
  obtain ⟨hstart, hstop⟩ := Span.mk.inj hspan
  rw [← byteLength_append] at hstop
  simp only [List.nil_append] at hsource
  have hminus : part.head? = some '-' → SignPlace before := by
    intro hhead
    obtain ⟨rest', rfl⟩ := List.head?_eq_some_iff.mp hhead
    obtain ⟨text, hkind⟩ := hnumeral
    have hsigns := hlexing.signs before (rest' ++ after) (by simpa using hsource)
    exact hsigns.1.mp ⟨first, hfirstmem, hstart, text, hkind⟩
  have htokenize : ∃ tokens, tokenize (String.ofList part) = .ok tokens ∧
      tokens.map (Token.shift (byteLength before)) = inner := by
    apply tokenize_part h hsource
    · intro t ht
      rw [← hstart]
      exact hearlier t ht first (by simp [hrest])
    · intro t ht
      rw [← hstart, ← hstop]
      exact hbounds t ht
    · intro t ht
      rw [← hstop]
      exact hlater last (by simp [hinit]) t ht
    · exact hminus
  obtain ⟨tokens, htokens, hmap⟩ := htokenize
  exact ⟨part, tokens, hslice, htokens, hstart ▸ hmap⟩

end TaskFarm.Expr
