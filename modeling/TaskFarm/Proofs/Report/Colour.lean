import TaskFarm.Proofs.Report.Pointing
import TaskFarm.Proofs.Text.Replacing
import TaskFarm.Proofs.Wire.Identifier

/-!
# Colour adds nothing but terminal sequences

A terminal sequence begins with an escape character and a bracket and ends with the next `m`.  If
no text that a report is made of has an escape character, the sequences of a coloured report can be
told from all else, and what is left without them is the report without colour.
-/

namespace TaskFarm.Report

open TaskFarm.Expr

/-! ## Terminal sequences -/

/-- The number of characters of the terminal sequence at the front of a text, which is zero if there
is none. -/
def sequenceLength : List Char → Nat
  | c :: '[' :: rest =>
    if c = escape then ((rest.findIdx? (· == 'm')).map (· + 3)).getD 0 else 0
  | _ => 0

/-- A text with all of its terminal sequences deleted. -/
def uncoloured (cs : List Char) : List Char :=
  Text.replaced sequenceLength [] cs

theorem sequenceLength_of_ne {c : Char} (h : c ≠ escape) (rest : List Char) :
    sequenceLength (c :: rest) = 0 := by
  unfold sequenceLength
  split
  · next he =>
    obtain ⟨rfl, -⟩ := List.cons.inj he
    exact if_neg h
  · rfl

theorem uncoloured_append {front : List Char} (h : escape ∉ front) (rest : List Char) :
    uncoloured (front ++ rest) = front ++ uncoloured rest :=
  Text.replaced_append fun _ hc cs => sequenceLength_of_ne (fun he => h (he ▸ hc)) cs

theorem uncoloured_sequence {code : List Char} (h : 'm' ∉ code) (rest : List Char) :
    uncoloured (escape :: '[' :: (code ++ 'm' :: rest)) = uncoloured rest := by
  have hfind : (code ++ 'm' :: rest).findIdx? (· == 'm') = some code.length := by
    have hnone : code.findIdx? (· == 'm') = none :=
      List.findIdx?_eq_none_iff.mpr fun c hc => beq_false_of_ne fun he => h (he ▸ hc)
    simp [List.findIdx?_append, hnone, List.findIdx?_cons]
  have hlength : sequenceLength (escape :: '[' :: (code ++ 'm' :: rest)) =
      (escape :: '[' :: (code ++ ['m'])).length := by
    simp [sequenceLength, hfind]
  have hpart : uncoloured (escape :: '[' :: (code ++ ['m']) ++ rest) = [] ++ uncoloured rest :=
    Text.replaced_part (List.cons_ne_nil _ _) (by simpa using hlength)
  simpa using hpart

/-- The two sequences around a piece leave it bare. -/
theorem uncoloured_coloured {p : Piece} (h : escape ∉ p.text) (rest : List Char) :
    uncoloured (p.coloured ++ rest) = p.text ++ uncoloured rest := by
  cases hcode : p.ink.code? with
  | none =>
      rw [Piece.coloured, hcode]
      exact uncoloured_append h rest
  | some code =>
      have hopening : 'm' ∉ code.toList := by
        have hinks : ∀ ink : Ink, ∀ code ∈ ink.code?, 'm' ∉ code.toList := by
          intro ink code hmem
          cases ink with
          | severity s => cases s <;> cases hmem <;> decide
          | bare => cases hmem
          | margin | skippedMargin | unimportant | label | help => cases hmem; decide
        exact hinks p.ink code hcode
      have hclosing : uncoloured (escape :: '[' :: (['0'] ++ 'm' :: rest)) = uncoloured rest :=
        uncoloured_sequence (by decide) rest
      calc
        uncoloured (p.coloured ++ rest)
          = uncoloured (escape :: '[' :: (code.toList ++ 'm' ::
              (p.text ++ escape :: '[' :: (['0'] ++ 'm' :: rest)))) := by
            simp [Piece.coloured, hcode]
        _ = uncoloured (p.text ++ escape :: '[' :: (['0'] ++ 'm' :: rest)) :=
            uncoloured_sequence hopening _
        _ = p.text ++ uncoloured rest := by rw [uncoloured_append h, hclosing]

/-- A drawing in colour is the drawing without colour, terminal sequences apart. -/
theorem uncoloured_flatMap {d : Drawing} (h : escape ∉ textOf d) :
    uncoloured (d.flatMap Piece.coloured) = textOf d := by
  induction d with
  | nil => rfl
  | cons p d ih =>
      rw [textOf_cons, List.mem_append, not_or] at h
      rw [List.flatMap_cons, uncoloured_coloured h.1, ih h.2, textOf_cons]

/-! ## The texts of a report -/

theorem foreign_escape : Foreign escape :=
  ⟨by decide, by decide⟩

/-- The texts that come to a failure from elsewhere. -/
def textsOf : FarmError → List String
  | .compilation diagnostic _ =>
    diagnostic.message :: (diagnostic.help.toList ++ diagnostic.code.toList)
  | .evaluation (.task _ (.unknownOperator symbol)) => [symbol]
  | .evaluation _ | .ledger _ => []

variable {source : List Char} {d : Diagnostic} {line : SourceLine}

theorem mem_shownFrom {index : Nat} {cs : List Char} {c : Char} (h : c ∈ shownFrom index cs) :
    c = ' ' ∨ c ∈ cs := by
  induction cs generalizing index with
  | nil => cases h
  | cons d rest ih =>
      rw [shownFrom, List.mem_append] at h
      rcases h with h | h
      · split at h
        · exact .inl (List.eq_of_mem_replicate h)
        · exact .inr (List.mem_cons.mpr (.inl (List.mem_singleton.mp h)))
      · exact (ih h).imp_right (List.mem_cons_of_mem d)

theorem text_mem_of_mem_placed {number start : Nat} {lines : List (List Char)}
    (h : line ∈ placed number start lines) : line.text ∈ lines := by
  induction lines generalizing number start with
  | nil => cases h
  | cons text lines ih =>
      rcases List.mem_cons.mp h with rfl | h
      · exact List.mem_cons_self
      · exact List.mem_cons_of_mem text (ih h)

/-- What is drawn of a line stands in the source. -/
theorem visible_subset {offset : Nat} (h : lineAt? source offset = some line) :
    line.visible ⊆ source := by
  intro c hc
  have htext : c ∈ line.text := by
    rw [SourceLine.visible, List.mem_reverse] at hc
    exact List.mem_reverse.mp ((List.dropWhile_sublist _).mem hc)
  have hline : line ∈ sourceLines source := (List.mem_filter.mp (List.mem_of_getLast? h)).1
  rw [sourceLines] at hline
  split at hline
  · obtain rfl := List.mem_singleton.mp hline
    cases htext
  · rw [← Text.flatten_linesOf source]
    exact List.mem_flatten_of_mem (text_mem_of_mem_placed hline) htext

theorem text_subset_of_mem_underlineCell {visible : List Char} {l : Label} {i : Nat} {p : Piece}
    (h : p ∈ underlineCell visible l i) : p.text ⊆ frameMarks := by
  unfold underlineCell at h
  dsimp only at h
  split at h
  · split at h
    · exact text_subset_of_mem_cell h (by decide) (by decide)
    · exact text_subset_of_mem_cell h (by decide) (by decide)
  · split at h
    · exact text_subset_of_mem_cell h (by decide) (by decide)
    · exact text_subset_of_mem_cell h (by decide) (by decide)

theorem escape_notMem_heading (hmessage : escape ∉ d.message.toList)
    (hcode : ∀ code ∈ d.code, escape ∉ code.toList) : escape ∉ textOf (heading d) := by
  have hbracketed : escape ∉ ((d.code.map bracketed).getD "").toList := by
    cases hd : d.code with
    | none => exact List.not_mem_nil
    | some code =>
        have hspaces := Foreign.notMem_replicate foreign_escape (y := ' ') (by decide) (2 - code.length)
        simp only [Option.map_some, Option.getD_some, bracketed, String.toList_append,
          String.toList_ofList, List.mem_append, not_or]
        exact ⟨⟨⟨by decide, hcode code hd⟩, hspaces⟩, by decide⟩
  have hword : escape ∉ (headingWord d.severity).toList := by
    cases d.severity <;> decide
  simp only [textOf_heading, headingRow, String.toList_append, List.mem_append, not_or]
  exact ⟨⟨⟨⟨hbracketed, hword⟩, by decide⟩, by decide, hmessage⟩, by decide⟩

theorem escape_notMem_blankMargin (line : SourceLine) :
    escape ∉ textOf (blankMargin (Nat.toDigits 10 line.number).length) := by
  rw [textOf_blankMargin]
  exact Foreign.notMem_unnumberedMargin foreign_escape _

theorem escape_notMem_labelRows (hvisible : escape ∉ line.visible)
    (hmessage : escape ∉ d.message.toList) :
    escape ∉ textOf (labelRows (Nat.toDigits 10 line.number).length line d) := by
  have hmargin := Foreign.notMem_unnumberedMargin foreign_escape line.number
  by_cases hout : line.start + line.text.length < d.span.stop ∨ d.span.start < line.start
  · rw [labelRows, if_pos hout, textOf_append, List.mem_append, not_or]
    exact ⟨escape_notMem_blankMargin line, by decide⟩
  · have hshown : escape ∉ shownFrom 0 line.visible := fun hmem =>
      (mem_shownFrom hmem).elim (by decide) hvisible
    rw [textOf_labelRows line (by omega) (by omega) rfl]
    simp only [List.flatMap_cons, List.flatMap_nil, List.append_nil, List.mem_append, not_or,
      String.toList_append]
    refine ⟨⟨⟨Foreign.notMem_numberedMargin foreign_escape _, hshown⟩, by decide⟩,
      ⟨⟨hmargin, ?_⟩, by decide⟩, ⟨⟨hmargin, ?_⟩, by decide, hmessage⟩, by decide⟩
    · exact Foreign.notMem_cells foreign_escape fun _ _ => text_subset_of_mem_underlineCell
    · exact Foreign.notMem_cells foreign_escape fun _ _ => text_subset_of_mem_armCell

theorem escape_notMem_helpRows (line : SourceLine) (hhelp : ∀ help ∈ d.help, escape ∉ help.toList) :
    escape ∉ textOf (helpRows (Nat.toDigits 10 line.number).length d.help) := by
  cases hd : d.help with
  | none => exact List.not_mem_nil
  | some help =>
      have hmargin := Foreign.notMem_unnumberedMargin foreign_escape line.number
      simp only [textOf_helpRows, List.mem_append, not_or, String.toList_append]
      exact ⟨⟨hmargin, by decide⟩, ⟨hmargin, by decide, hhelp help hd⟩, by decide⟩

/-- A drawing has an escape character only where a text has one. -/
theorem escape_notMem_ofDiagnostic (hsource : escape ∉ source)
    (hmessage : escape ∉ d.message.toList) (hhelp : ∀ help ∈ d.help, escape ∉ help.toList)
    (hcode : ∀ code ∈ d.code, escape ∉ code.toList) : escape ∉ textOf (ofDiagnostic source d) := by
  have hheading := escape_notMem_heading hmessage hcode
  unfold ofDiagnostic
  split
  · exact hheading
  · split
    · exact hheading
    · next line hline =>
      have hvisible : escape ∉ line.visible := fun hmem => hsource (visible_subset hline hmem)
      have hplace : escape ∉ textOf (placeRows (Nat.toDigits 10 line.number).length line
          (d.span.start - line.start + 1)) := by
        rw [textOf_placeRows line.number line.start line.text]
        simp only [List.mem_append, not_or]
        exact ⟨⟨Foreign.notMem_placeRow foreign_escape _ _, by decide⟩, Foreign.notMem_frameRow foreign_escape _,
          by decide⟩
      have hclosing : escape ∉ textOf (closing (Nat.toDigits 10 line.number).length) := by
        rw [textOf_closing, List.mem_append, not_or]
        exact ⟨Foreign.notMem_closingRow foreign_escape _, by decide⟩
      simp only [textOf_append, List.mem_append, not_or]
      exact ⟨⟨⟨⟨hheading, hplace⟩, escape_notMem_labelRows hvisible hmessage⟩,
        escape_notMem_helpRows line hhelp⟩, hclosing⟩

theorem escape_notMem_uuidText (n : Nat) : escape ∉ (uuidText n).toList := by
  intro h
  rcases Wire.mem_uuidText h with h | ⟨d, hd, h⟩
  · exact absurd h (by decide)
  · have hall : ∀ d : Fin 16, escape ≠ Nat.digitChar d := by decide
    exact hall ⟨d, hd⟩ h

theorem escape_notMem_taskError {id : TaskId} {cause : TaskError}
    (h : ∀ text ∈ textsOf (.evaluation (.task id cause)), escape ∉ text.toList) :
    escape ∉ cause.message.toList := by
  cases cause with
  | divisionByZero =>
      change escape ∉ "division by zero".toList
      simp [escape]
  | unknownOperator symbol =>
      have hsymbol : escape ∉ symbol.toList := h symbol (by simp [textsOf])
      change escape ∉ ("unknown operator '" ++ symbol ++ "'").toList
      simp only [String.toList_append, List.mem_append, not_or]
      exact ⟨⟨by simp [escape], hsymbol⟩, by simp [escape]⟩

theorem escape_notMem_evalError {cause : EvalError}
    (h : ∀ text ∈ textsOf (.evaluation cause), escape ∉ text.toList) :
    escape ∉ (cause.message TaskId.text).toList := by
  cases cause with
  | task id cause =>
      change escape ∉ ("task " ++ id.text ++ " failed: " ++ cause.message).toList
      simp only [String.toList_append, List.mem_append, not_or]
      exact ⟨⟨⟨by simp [escape], escape_notMem_uuidText id.number⟩, by simp [escape]⟩,
        escape_notMem_taskError h⟩
  | taskChannelClosed =>
      change escape ∉ "task channel closed".toList
      simp [escape]
  | resultChannelClosed id =>
      change escape ∉ ("result channel closed while waiting for task " ++ id.text).toList
      rw [String.toList_append, List.mem_append, not_or]
      exact ⟨by simp [escape], escape_notMem_uuidText id.number⟩
  | depthExceeded depth maxDepth =>
      change escape ∉ ("evaluation depth " ++ toString depth ++ " exceeds maximum of " ++
        toString maxDepth).toList
      simp only [String.toList_append, List.mem_append, not_or]
      exact ⟨⟨⟨by simp [escape], Foreign.notMem_toString foreign_escape _⟩, by simp [escape]⟩,
        Foreign.notMem_toString foreign_escape _⟩

theorem escape_notMem_ledgerError (cause : LedgerError) :
    escape ∉ (cause.message ExpressionId.text).toList := by
  have hframed : ∀ {behind : String} (id : ExpressionId), escape ∉ behind.toList →
      escape ∉ ("expression " ++ id.text ++ behind).toList := by
    intro behind id hbehind
    simp only [String.toList_append, List.mem_append, not_or]
    exact ⟨⟨by simp [escape], escape_notMem_uuidText id.number⟩, hbehind⟩
  cases cause with
  | notFound id | alreadyExists id | alreadyFinished id => exact hframed id (by simp [escape])

/-- Whatever failed, terminal sequences apart its report in colour is its report without colour, in
which there are none, if no text in it has an escape character. -/
theorem uncoloured_render {source : String} {failure : FarmError}
    (hsource : escape ∉ source.toList)
    (htexts : ∀ text ∈ textsOf failure, escape ∉ text.toList) :
    uncoloured (render true source failure).toList = (render false source failure).toList ∧
      escape ∉ (render false source failure).toList := by
  have hbare : ∀ text : String, escape ∉ text.toList → escape ∉ textOf [bare text, newline] := by
    intro text htext
    simp only [textOf_cons, textOf_nil, List.append_nil, List.mem_append, not_or]
    exact ⟨htext, by decide⟩
  have hdrawing : escape ∉ textOf (ofFailure source failure) := by
    cases failure with
    | compilation diagnostic cause =>
        refine escape_notMem_ofDiagnostic hsource (htexts _ List.mem_cons_self) ?_ ?_
        · intro help hhelp
          exact htexts help (by simp [textsOf, Option.mem_toList.mpr hhelp])
        · intro code hcode
          exact htexts code (by simp [textsOf, Option.mem_toList.mpr hcode])
    | evaluation cause =>
        refine hbare _ ?_
        rw [String.toList_append, List.mem_append, not_or]
        exact ⟨by simp [escape], escape_notMem_evalError htexts⟩
    | ledger cause =>
        refine hbare _ ?_
        rw [String.toList_append, List.mem_append, not_or]
        exact ⟨by simp [escape], escape_notMem_ledgerError cause⟩
  have hcoloured : (render true source failure).toList =
      (ofFailure source failure).flatMap Piece.coloured := by simp [render, paint]
  have hplain : (render false source failure).toList = textOf (ofFailure source failure) := by
    simp [render, paint, textOf]
  rw [hcoloured, hplain]
  exact ⟨uncoloured_flatMap hdrawing, hdrawing⟩

/-- A wide character behind a tab, with a code and help, and with an `m` outside all sequences. -/
theorem uncoloured_render_wide :
    escape ∉ "1\t日 m".toList ∧
      (∀ text ∈ textsOf (.ofCompileError (.invalidCharacter '日' ⟨2, 5⟩)), escape ∉ text.toList) ∧
      uncoloured (render true "1\t日 m" (.ofCompileError (.invalidCharacter '日' ⟨2, 5⟩))).toList =
        (render false "1\t日 m" (.ofCompileError (.invalidCharacter '日' ⟨2, 5⟩))).toList ∧
      escape ∉ (render false "1\t日 m" (.ofCompileError (.invalidCharacter '日' ⟨2, 5⟩))).toList := by
  have hsource : escape ∉ "1\t日 m".toList := by simp [escape]
  have htexts : ∀ text ∈ textsOf (.ofCompileError (.invalidCharacter '日' ⟨2, 5⟩)),
      escape ∉ text.toList := by
    decide +kernel
  exact ⟨hsource, htexts, uncoloured_render hsource htexts⟩

end TaskFarm.Report
