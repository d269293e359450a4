import TaskFarm.Report.Failure
import TaskFarm.Expr.Parse
import TaskFarm.Proofs.Expr.Blame
import TaskFarm.Proofs.Report.Lines

/-!
# A report points at a character

The report of an invalid character shows the line of the character, says where in it the character
stands, and underlines it.  The drawing counts in characters while spans count in bytes, so all of
this is right for a character that has as many bytes as characters before it and is itself one byte
long, but not for every one.
-/

namespace TaskFarm.Report

open TaskFarm.Expr

variable {source above inLine tail : List Char} {c : Char}

/-! ## Rows of a report -/

/-- What stands before a numbered line. -/
def numberedMargin (number : Nat) : List Char :=
  ' ' :: (toString number).toList ++ " │ ".toList

/-- What stands before a row without a number, below a line with the given number. -/
def unnumberedMargin (number : Nat) : List Char :=
  List.replicate ((toString number).length + 2) ' ' ++ "│ ".toList

/-- The row that says where the label is. -/
def placeRow (number column : Nat) : List Char :=
  List.replicate ((toString number).length + 2) ' ' ++ "╭─[ <expr>:".toList ++
    (toString number).toList ++ ':' :: (toString column).toList ++ " ]".toList

/-- The rows of a report, the last of which is empty. -/
def rowsOf (report : String) : List (List Char) :=
  Text.piecesOf report.toList

/-- A report shows the line of a character, says where it stands, underlines its columns and no
other ones, and gives help.  The character stands behind `inLine` and before `tail` in its line, and
the lines above come before. -/
structure PointsAt (report : String) (above : List (List Char)) (inLine : List Char) (c : Char)
    (tail : List Char) (help : String) : Prop where
  place : (rowsOf report)[1]? = some (placeRow (above.length + 1) (inLine.length + 1))
  line : (rowsOf report)[3]? = some (numberedMargin (above.length + 1) ++
    shownFrom 0 (inLine ++ c :: tail.rdropWhile Text.isBlank))
  underline : ∃ marks, (rowsOf report)[4]? = some (unnumberedMargin (above.length + 1) ++ marks) ∧
    ∀ column, marks[column]?.getD ' ' ≠ ' ' ↔
      columnsFrom 0 inLine ≤ column ∧ column < columnsFrom 0 (inLine ++ [c])
  help : unnumberedMargin (above.length + 1) ++ ("Help: " ++ help).toList ∈ rowsOf report

/-! ## The label of one character -/

/-- The label of the character at an index. -/
def Label.at (index : Nat) : Label :=
  ⟨index, index + 1⟩

theorem middle_at (index : Nat) : (Label.at index).middle = index := by
  simp only [Label.middle, Label.at]
  omega

theorem covers_iff {l : Label} {i : Nat} : l.covers i = true ↔ l.start ≤ i ∧ i < l.stop := by
  simp [Label.covers]

theorem covers_at {index i : Nat} : (Label.at index).covers i = true ↔ i = index := by
  rw [covers_iff]
  simp only [Label.at]
  omega

theorem flatMap_range_at (f : Nat → Drawing) (index : Nat) :
    (List.range ((Label.at index).stop + 2)).flatMap f =
      (List.range' 0 index).flatMap f ++ f index ++ f (index + 1) ++ f (index + 2) := by
  simp [Label.at, List.range_succ, List.range_eq_range']

/-- The marks below a character that takes up some columns. -/
def marksBelow : Nat → List Char
  | 0 => []
  | columns + 1 => '┬' :: List.replicate columns '─'

theorem textOf_markCell (columns : Nat) :
    textOf (cell columns (mark '┬') (mark '─')) = marksBelow columns := by
  cases columns with
  | zero => rfl
  | succ columns => simp [cell, marksBelow, mark, textOf_replicate]

theorem length_marksBelow (columns : Nat) : (marksBelow columns).length = columns := by
  cases columns with
  | zero => rfl
  | succ columns => simp [marksBelow]

theorem mem_marksBelow {columns : Nat} {x : Char} (h : x ∈ marksBelow columns) :
    x = '┬' ∨ x = '─' := by
  cases columns with
  | zero => cases h
  | succ columns => exact (List.mem_cons.mp h).imp_right List.eq_of_mem_replicate

theorem ne_space_of_mem_marksBelow {columns : Nat} {x : Char} (h : x ∈ marksBelow columns) :
    x ≠ ' ' := by
  rcases mem_marksBelow h with rfl | rfl <;> decide

theorem newline_notMem_marksBelow (columns : Nat) : '\n' ∉ marksBelow columns := by
  intro h
  rcases mem_marksBelow h with h | h <;> exact absurd h (by decide)

/-- What stands in a row of spaces in which only some marks are no spaces. -/
theorem getD_getElem?_ne_space {marks : List Char} (hmarks : ∀ x ∈ marks, x ≠ ' ')
    (before behind index : Nat) :
    (List.replicate before ' ' ++ marks ++ List.replicate behind ' ')[index]?.getD ' ' ≠ ' ' ↔
      before ≤ index ∧ index < before + marks.length := by
  rw [List.append_assoc]
  by_cases hbefore : index < before
  · rw [List.getElem?_append_left (by simpa using hbefore), List.getElem?_replicate, if_pos hbefore]
    simp [Nat.not_le_of_lt hbefore]
  rw [List.getElem?_append_right (by simpa using hbefore), List.length_replicate]
  by_cases hmark : index - before < marks.length
  · rw [List.getElem?_append_left hmark, List.getElem?_eq_getElem hmark, Option.getD_some]
    refine ⟨fun _ => ⟨by omega, by omega⟩, fun _ => hmarks _ (List.getElem_mem hmark)⟩
  · rw [List.getElem?_append_right (Nat.le_of_not_lt hmark), List.getElem?_replicate]
    constructor
    · intro hne
      split at hne <;> exact absurd rfl hne
    · omega

/-- Only the columns of the character are underlined. -/
theorem textOf_underlineCells (inLine rest : List Char) (c : Char) :
    ∃ spaces, textOf ((List.range ((Label.at inLine.length).stop + 2)).flatMap
      (underlineCell (inLine ++ c :: rest) (Label.at inLine.length))) =
        List.replicate (columnsFrom 0 inLine) ' ' ++
          marksBelow (Text.width inLine.length c) ++ List.replicate spaces ' ' := by
  have hbefore : (List.range' 0 inLine.length).flatMap
      (underlineCell (inLine ++ c :: rest) (Label.at inLine.length)) =
        (List.range' 0 inLine.length).flatMap fun index =>
          cell (columnsAt (inLine ++ c :: rest) index) space space := by
    refine List.flatMap_congr fun index hindex => ?_
    have hne : index ≠ inLine.length := by
      simp only [List.mem_range'_1] at hindex
      omega
    simp [underlineCell, middle_at, covers_at, hne]
  have hbehind : ∀ index, inLine.length < index →
      underlineCell (inLine ++ c :: rest) (Label.at inLine.length) index =
        List.replicate (columnsAt (inLine ++ c :: rest) index) space := by
    intro index hlt
    rw [← cell_self]
    simp [underlineCell, middle_at, covers_at, Nat.ne_of_gt hlt]
  have hcolumns : columnsAt (inLine ++ c :: rest) inLine.length = Text.width inLine.length c := by
    simp [columnsAt]
  have hat : underlineCell (inLine ++ c :: rest) (Label.at inLine.length) inLine.length =
      cell (Text.width inLine.length c) (mark '┬') (mark '─') := by
    simp [underlineCell, middle_at, covers_at, hcolumns]
  have hcells := textOf_cells [] (c :: rest) inLine .bare ' '
  refine ⟨columnsAt (inLine ++ c :: rest) (inLine.length + 1) +
    columnsAt (inLine ++ c :: rest) (inLine.length + 2), ?_⟩
  rw [flatMap_range_at, hbefore, hat, hbehind _ (by omega), hbehind _ (by omega)]
  have hwide : ∀ n, textOf (List.replicate n space) = List.replicate n ' ' :=
    fun n => textOf_replicate n _ _
  simp only [textOf_append, textOf_markCell, hwide, List.replicate_add, List.append_assoc]
  congr 1

/-! ## The whole drawing -/

/-- The text of a heading. -/
def headingRow (d : Diagnostic) : List Char :=
  ((d.code.map bracketed).getD "" ++ headingWord d.severity ++ ":").toList ++
    (" " ++ d.message).toList

def frameRow (number : Nat) : List Char :=
  List.replicate ((toString number).length + 2) ' ' ++ ['│']

def closingRow (number : Nat) : List Char :=
  List.replicate ((toString number).length + 2) '─' ++ ['╯']

theorem length_digits (number : Nat) :
    (Nat.toDigits 10 number).length = (toString number).length := by
  simp [← String.length_toList]

/-! ## Characters of a frame -/

/-- The characters that everything but the texts of a report is drawn with, apart from digits. -/
def frameMarks : List Char :=
  [' ', '│', '─', '╭', '╰', '╯', '┬', '[', ']', '<', 'e', 'x', 'p', 'r', '>', ':']

/-- A character that only the texts of a report can hold. -/
def Foreign (x : Char) : Prop :=
  x ∉ frameMarks ∧ x.isDigit = false

theorem foreign_newline : Foreign '\n' :=
  ⟨by decide, by decide⟩

namespace Foreign

variable {x : Char}

theorem ne (h : Foreign x) {y : Char} (hy : y ∈ frameMarks) : x ≠ y :=
  fun he => h.1 (he ▸ hy)

theorem notMem_of_subset (h : Foreign x) {cs : List Char} (hcs : cs ⊆ frameMarks) : x ∉ cs :=
  fun hmem => h.1 (hcs hmem)

theorem notMem_replicate (h : Foreign x) {y : Char} (hy : y ∈ frameMarks) (n : Nat) :
    x ∉ List.replicate n y :=
  fun hmem => h.ne hy (List.eq_of_mem_replicate hmem)

theorem notMem_toString (h : Foreign x) (number : Nat) : x ∉ (toString number).toList := by
  intro hmem
  have hdigits : (toString number).toList = Nat.toDigits 10 number := by simp
  rw [hdigits] at hmem
  have hdigit := Nat.isDigit_of_mem_toDigits (by decide) (by decide) hmem
  rw [h.2] at hdigit
  cases hdigit

theorem notMem_unnumberedMargin (h : Foreign x) (number : Nat) : x ∉ unnumberedMargin number := by
  rw [unnumberedMargin, List.mem_append, not_or]
  exact ⟨h.notMem_replicate (by decide) _, h.notMem_of_subset (by decide)⟩

theorem notMem_numberedMargin (h : Foreign x) (number : Nat) : x ∉ numberedMargin number := by
  simp only [numberedMargin, List.cons_append, List.mem_cons, List.mem_append, not_or]
  exact ⟨h.ne (by decide), h.notMem_toString number, h.notMem_of_subset (by decide)⟩

theorem notMem_placeRow (h : Foreign x) (number column : Nat) : x ∉ placeRow number column := by
  simp only [placeRow, List.cons_append, List.append_assoc, List.mem_cons, List.mem_append, not_or]
  exact ⟨h.notMem_replicate (by decide) _, h.notMem_of_subset (by decide), h.notMem_toString number,
    h.ne (by decide), h.notMem_toString column, h.notMem_of_subset (by decide)⟩

theorem notMem_frameRow (h : Foreign x) (number : Nat) : x ∉ frameRow number := by
  rw [frameRow, List.mem_append, not_or]
  exact ⟨h.notMem_replicate (by decide) _, h.notMem_of_subset (by decide)⟩

theorem notMem_closingRow (h : Foreign x) (number : Nat) : x ∉ closingRow number := by
  rw [closingRow, List.mem_append, not_or]
  exact ⟨h.notMem_replicate (by decide) _, h.notMem_of_subset (by decide)⟩

/-- A row of cells has no other characters than its cells have. -/
theorem notMem_cells (h : Foreign x) {cells : List Nat} {f : Nat → Drawing}
    (hf : ∀ i, ∀ p ∈ f i, p.text ⊆ frameMarks) : x ∉ textOf (cells.flatMap f) := by
  intro hmem
  obtain ⟨p, hp, hx⟩ := List.mem_flatMap.mp hmem
  obtain ⟨i, -, hp⟩ := List.mem_flatMap.mp hp
  exact h.notMem_of_subset (hf i p hp) hx

end Foreign

theorem text_subset_of_mem_cell {columns : Nat} {first next p : Piece}
    (h : p ∈ cell columns first next) (hfirst : first.text ⊆ frameMarks)
    (hnext : next.text ⊆ frameMarks) : p.text ⊆ frameMarks := by
  rcases mem_cell h with rfl | rfl
  · exact hfirst
  · exact hnext

theorem text_subset_of_mem_armCell {visible : List Char} {l : Label} {i : Nat} {p : Piece}
    (h : p ∈ armCell visible l i) : p.text ⊆ frameMarks := by
  unfold armCell at h
  split at h
  · exact text_subset_of_mem_cell h (by decide) (by decide)
  · split at h
    · exact text_subset_of_mem_cell h (by decide) (by decide)
    · exact text_subset_of_mem_cell h (by decide) (by decide)

/-! ## The text of a drawing -/

theorem textOf_heading (d : Diagnostic) : textOf (heading d) = headingRow d ++ ['\n'] := by
  simp [heading, headingRow, inked, bare, newline]

theorem textOf_placeRows (number start : Nat) (text : List Char) (column : Nat) :
    textOf (placeRows (Nat.toDigits 10 number).length ⟨number, start, text⟩ column) =
      placeRow number column ++ ['\n'] ++ (frameRow number ++ ['\n']) := by
  simp [placeRows, placeRow, frameRow, inked, bare, newline, length_digits]

theorem textOf_blankMargin (number : Nat) :
    textOf (blankMargin (Nat.toDigits 10 number).length) = unnumberedMargin number := by
  simp [blankMargin, unnumberedMargin, bare, inked, length_digits, List.replicate_succ]

theorem textOf_sourceRow (line : SourceLine) (l : Label) :
    textOf (sourceRow line l) =
      numberedMargin line.number ++ shownFrom 0 line.visible ++ ['\n'] := by
  have hcells := textOf_sourceCells l 0 line.visible
  simp only [Nat.add_zero] at hcells
  simp [sourceRow, numberedMargin, bare, inked, newline, hcells]

theorem textOf_helpRows (number : Nat) (help : String) :
    textOf (helpRows (Nat.toDigits 10 number).length (some help)) =
      unnumberedMargin number ++ ['\n'] ++
        (unnumberedMargin number ++ ("Help: " ++ help).toList ++ ['\n']) := by
  simp [helpRows, textOf_blankMargin, bare, inked, newline]

theorem textOf_closing (number : Nat) :
    textOf (closing (Nat.toDigits 10 number).length) = closingRow number ++ ['\n'] := by
  simp [closing, closingRow, inked, newline, length_digits]

/-- The arm that leads to the message is a row without a line break in it. -/
theorem newline_notMem_arm (visible : List Char) (l : Label) :
    '\n' ∉ textOf ((List.range (l.stop + 2)).flatMap (armCell visible l)) :=
  Foreign.notMem_cells foreign_newline fun _ _ => text_subset_of_mem_armCell

/-- A label inside its line is drawn as the line, its underline and its message. -/
theorem textOf_labelRows (line : SourceLine) {d : Diagnostic} {l : Label}
    (hstop : d.span.stop ≤ line.start + line.text.length) (hstart : line.start ≤ d.span.start)
    (hl : (⟨d.span.start - line.start, d.span.stop - line.start⟩ : Label) = l) :
    textOf (labelRows (Nat.toDigits 10 line.number).length line d) =
      [numberedMargin line.number ++ shownFrom 0 line.visible,
        unnumberedMargin line.number ++
          textOf ((List.range (l.stop + 2)).flatMap (underlineCell line.visible l)),
        unnumberedMargin line.number ++
          textOf ((List.range (l.stop + 2)).flatMap (armCell line.visible l)) ++
            (" " ++ d.message).toList].flatMap (· ++ ['\n']) := by
  have hdrawn : ¬(line.start + line.text.length < d.span.stop ∨ d.span.start < line.start) := by
    omega
  rw [labelRows, if_neg hdrawn, hl]
  simp [underlineRow, messageRow, textOf_sourceRow, textOf_blankMargin, newline, bare]

/-- A label of one character inside its line is drawn in nine rows. -/
theorem textOf_ofDiagnostic {above below : List (List Char)} {d : Diagnostic} {help : String}
    (hlines : Text.linesOf source = above ++ (inLine ++ c :: tail) :: below)
    (hc : Text.isBlank c = false)
    (hspan : d.span = ⟨(above.flatten ++ inLine).length, (above.flatten ++ inLine).length + 1⟩)
    (hhelp : d.help = some help) :
    ∃ spaces arm, '\n' ∉ arm ∧ textOf (ofDiagnostic source d) =
      [headingRow d, placeRow (above.length + 1) (inLine.length + 1), frameRow (above.length + 1),
        numberedMargin (above.length + 1) ++
          shownFrom 0 (inLine ++ c :: tail.rdropWhile Text.isBlank),
        unnumberedMargin (above.length + 1) ++ (List.replicate (columnsFrom 0 inLine) ' ' ++
          marksBelow (Text.width inLine.length c) ++ List.replicate spaces ' '),
        unnumberedMargin (above.length + 1) ++ arm ++ (" " ++ d.message).toList,
        unnumberedMargin (above.length + 1),
        unnumberedMargin (above.length + 1) ++ ("Help: " ++ help).toList,
        closingRow (above.length + 1)].flatMap (· ++ ['\n']) := by
  have hsource : source = above.flatten ++ (inLine ++ c :: tail) ++ below.flatten := by
    rw [← Text.flatten_linesOf source, hlines]
    simp
  have hinside : isOutside source.length d = false := by
    have hlength : (above.flatten ++ inLine).length + 1 ≤ source.length := by
      rw [hsource]
      simp only [List.length_append, List.length_cons]
      omega
    simp only [isOutside, hspan, Bool.or_eq_false_iff, Bool.and_eq_false_iff,
      decide_eq_false_iff_not]
    omega
  have hline : lineAt? source d.span.start =
      some ⟨above.length + 1, above.flatten.length, inLine ++ c :: tail⟩ := by
    rw [hspan]
    exact lineAt?_eq hlines
  have hcolumn : d.span.start - above.flatten.length + 1 = inLine.length + 1 := by
    simp only [hspan, List.length_append]
    omega
  have hlabel := textOf_labelRows (d := d) (l := Label.at inLine.length)
    ⟨above.length + 1, above.flatten.length, inLine ++ c :: tail⟩
    (by simp only [hspan, List.length_append, List.length_cons]; omega)
    (by simp only [hspan, List.length_append]; omega)
    (by simp only [hspan, Label.at, List.length_append, Label.mk.injEq]; omega)
  obtain ⟨spaces, hunderline⟩ := textOf_underlineCells inLine (tail.rdropWhile Text.isBlank) c
  refine ⟨spaces, _, newline_notMem_arm (inLine ++ c :: tail.rdropWhile Text.isBlank)
    (Label.at inLine.length), ?_⟩
  rw [visible_eq hc, hunderline] at hlabel
  simp only [ofDiagnostic, hinside, hline, hcolumn, hhelp, Bool.false_eq_true, if_false,
    textOf_append, textOf_heading, textOf_placeRows, hlabel, textOf_helpRows, textOf_closing]
  simp

/-! ## The rows of a drawing -/

theorem newline_notMem_headingRow {e : CompileError} (h : '\n' ∉ e.message.toList) :
    '\n' ∉ headingRow e.diagnostic := by
  have hcode : '\n' ∉ (bracketed e.code ++ headingWord .error ++ ":").toList := by
    cases e <;> simp [CompileError.code, bracketed, headingWord]
  simp only [headingRow, CompileError.diagnostic, Option.map_some, Option.getD_some,
    List.mem_append, not_or]
  exact ⟨hcode, by simpa using h⟩

theorem newline_notMem_help (e : CompileError) : '\n' ∉ ("Help: " ++ e.help).toList := by
  cases e <;> simp [CompileError.help]

theorem rowsOf_render (source : String) (e : CompileError) :
    rowsOf (render false source (.ofCompileError e)) =
      Text.piecesOf (textOf (ofDiagnostic source.toList e.diagnostic)) := by
  simp [rowsOf, render, paint, ofFailure, FarmError.ofCompileError, textOf]

/-- The rows of a report whose label is one character. -/
theorem exists_rowsOf_render {source : String} {above below : List (List Char)} {e : CompileError}
    (hlines : Text.linesOf source.toList = above ++ (inLine ++ c :: tail) :: below)
    (hc : Text.isBlank c = false)
    (hspan : e.span = ⟨(above.flatten ++ inLine).length, (above.flatten ++ inLine).length + 1⟩)
    (hmessage : '\n' ∉ e.message.toList) :
    ∃ spaces arm, rowsOf (render false source (.ofCompileError e)) =
      [headingRow e.diagnostic, placeRow (above.length + 1) (inLine.length + 1),
        frameRow (above.length + 1),
        numberedMargin (above.length + 1) ++
          shownFrom 0 (inLine ++ c :: tail.rdropWhile Text.isBlank),
        unnumberedMargin (above.length + 1) ++ (List.replicate (columnsFrom 0 inLine) ' ' ++
          marksBelow (Text.width inLine.length c) ++ List.replicate spaces ' '),
        unnumberedMargin (above.length + 1) ++ arm ++ (" " ++ e.message).toList,
        unnumberedMargin (above.length + 1),
        unnumberedMargin (above.length + 1) ++ ("Help: " ++ e.help).toList,
        closingRow (above.length + 1), []] := by
  obtain ⟨spaces, arm, harm, htext⟩ := textOf_ofDiagnostic hlines hc
    (show e.diagnostic.span = _ from hspan) (show e.diagnostic.help = some e.help from rfl)
  have hmargin := Foreign.notMem_unnumberedMargin foreign_newline (above.length + 1)
  have hspaces : ∀ n, '\n' ∉ List.replicate n ' ' := Foreign.notMem_replicate foreign_newline (by decide)
  refine ⟨spaces, arm, ?_⟩
  rw [rowsOf_render, htext, Text.piecesOf_flatMap]
  · rfl
  simp only [List.forall_mem_cons, List.mem_append, not_or]
  refine ⟨newline_notMem_headingRow hmessage, Foreign.notMem_placeRow foreign_newline _ _,
    Foreign.notMem_frameRow foreign_newline _,
    ⟨Foreign.notMem_numberedMargin foreign_newline _, newline_notMem_shownFrom _ _⟩,
    ⟨hmargin, ⟨hspaces _, newline_notMem_marksBelow _⟩, hspaces _⟩,
    ⟨⟨hmargin, harm⟩, by simpa [CompileError.diagnostic] using hmessage⟩, hmargin,
    ⟨hmargin, newline_notMem_help e⟩, Foreign.notMem_closingRow foreign_newline _, by simp⟩

/-- The report of an error about one character points at it. -/
theorem pointsAt_of_span {source : String} {above below : List (List Char)} {e : CompileError}
    (hlines : Text.linesOf source.toList = above ++ (inLine ++ c :: tail) :: below)
    (hc : Text.isBlank c = false)
    (hspan : e.span = ⟨(above.flatten ++ inLine).length, (above.flatten ++ inLine).length + 1⟩)
    (hmessage : '\n' ∉ e.message.toList) :
    PointsAt (render false source (.ofCompileError e)) above inLine c tail e.help := by
  obtain ⟨spaces, arm, hrows⟩ := exists_rowsOf_render hlines hc hspan hmessage
  refine ⟨?_, ?_, ⟨List.replicate (columnsFrom 0 inLine) ' ' ++
    marksBelow (Text.width inLine.length c) ++ List.replicate spaces ' ', ?_, ?_⟩, ?_⟩
  · simp only [hrows, List.getElem?_cons_succ, List.getElem?_cons_zero]
  · simp only [hrows, List.getElem?_cons_succ, List.getElem?_cons_zero]
  · simp only [hrows, List.getElem?_cons_succ, List.getElem?_cons_zero]
  · intro column
    rw [getD_getElem?_ne_space fun _ => ne_space_of_mem_marksBelow, length_marksBelow,
      columnsFrom_append, columnsFrom, columnsFrom, Nat.zero_add, Nat.add_zero]
  · simp only [hrows, List.mem_cons, true_or, or_true]

/-! ## Invalid characters -/

theorem byteLength_eq_length {cs : List Char} (h : ∀ d ∈ cs, d.utf8Size = 1) :
    byteLength cs = cs.length := by
  induction cs with
  | nil => rfl
  | cons c cs ih =>
      rw [byteLength_cons, h c List.mem_cons_self, ih fun d hd => h d (List.mem_cons_of_mem c hd),
        List.length_cons, Nat.add_comm]

theorem isBlank_of_not_readable (hc : ¬Readable c) : Text.isBlank c = false := by
  by_contra hblank
  exact hc (.inl (by simpa using hblank))

theorem newline_notMem_invalidCharacter (hc : ¬Readable c) (span : Span) :
    '\n' ∉ (CompileError.invalidCharacter c span).message.toList := by
  have hne : '\n' ≠ c := by
    rintro rfl
    exact hc (.inl Text.isBlank_newline)
  change '\n' ∉ ("invalid character: " ++ String.singleton c).toList
  simp [hne]

/-- Only the scanner finds invalid characters. -/
theorem namesFirstUnreadable_of_parse {source : String} {span : Span}
    (h : parse source = .error (.invalidCharacter c span)) :
    NamesFirstUnreadable 0 source.toList (.invalidCharacter c span) := by
  obtain htokens | ⟨tokens, -, hlisting | ⟨listing, hlisting, harena⟩⟩ := parse_eq_error h
  · exact scanFrom_eq_error.mp htokens
  · obtain ⟨t, -, ⟨text, -, heq⟩ | ⟨-, heq⟩⟩ := postOrder_blames_token hlisting <;> cases heq
  · cases unjoined_of_ofPostOrder hlisting harena

/-- An error about an invalid character is about the first one that may not stand in the source,
which stands in one of its lines.  If that character and all before it take one byte each, the
report points at it. -/
theorem parse_invalidCharacter_pointsAt {source : String} {c : Char} {span : Span}
    (h : parse source = .error (.invalidCharacter c span)) :
    ∃ above inLine tail below,
      Text.linesOf source.toList = above ++ (inLine ++ c :: tail) :: below ∧
      (∀ d ∈ above.flatten ++ inLine, Readable d) ∧ ¬Readable c ∧
      ((∀ d ∈ above.flatten ++ inLine ++ [c], d.utf8Size = 1) →
        PointsAt (render false source (.ofCompileError (.invalidCharacter c span)))
          above inLine c tail (CompileError.invalidCharacter c span).help) := by
  obtain ⟨front, d, back, hsource, hfront, hd, heq⟩ := namesFirstUnreadable_of_parse h
  cases heq
  rw [← Text.flatten_linesOf source.toList] at hsource
  obtain ⟨above, inLine, tail, below, hlines, rfl⟩ := exists_line_of_flatten hsource
  refine ⟨above, inLine, tail, below, hlines, hfront, hd, fun hbytes => ?_⟩
  have hstart : byteLength (above.flatten ++ inLine) = (above.flatten ++ inLine).length :=
    byteLength_eq_length fun d hd => hbytes d (List.mem_append_left _ hd)
  have hsize : c.utf8Size = 1 := hbytes c (by simp)
  refine pointsAt_of_span hlines (isBlank_of_not_readable hd) ?_
    (newline_notMem_invalidCharacter hd _)
  simp only [CompileError.span, hstart, hsize, Nat.zero_add]

theorem parse_invalidCharacter_pointsAt_second_line :
    parse "1\n+\t# 2" = .error (.invalidCharacter '#' ⟨4, 5⟩) ∧
      ∃ above inLine tail below,
        Text.linesOf "1\n+\t# 2".toList = above ++ (inLine ++ '#' :: tail) :: below ∧
        PointsAt (render false "1\n+\t# 2" (.ofCompileError (.invalidCharacter '#' ⟨4, 5⟩)))
          above inLine '#' tail (CompileError.invalidCharacter '#' ⟨4, 5⟩).help := by
  have herror : parse "1\n+\t# 2" = .error (.invalidCharacter '#' ⟨4, 5⟩) := rfl
  have hbytes : ∀ d ∈ "1\n+\t# 2".toList, d.utf8Size = 1 := by
    simp [Char.utf8Size]
  obtain ⟨above, inLine, tail, below, hlines, -, -, hpoints⟩ :=
    parse_invalidCharacter_pointsAt herror
  have hsource : "1\n+\t# 2".toList =
      above.flatten ++ inLine ++ ['#'] ++ (tail ++ below.flatten) := by
    rw [← Text.flatten_linesOf "1\n+\t# 2".toList, hlines]
    simp
  exact ⟨herror, above, inLine, tail, below, hlines, hpoints fun d hd =>
    hbytes d (hsource ▸ List.mem_append_left _ hd)⟩

/-- The invalid character of `1 × 2` takes two bytes, so two columns are underlined. -/
theorem parse_invalidCharacter_not_pointsAt :
    parse "1 × 2" = .error (.invalidCharacter '×' ⟨2, 4⟩) ∧
      Text.linesOf "1 × 2".toList = [['1', ' '] ++ '×' :: [' ', '2']] ∧
      ¬PointsAt (render false "1 × 2" (.ofCompileError (.invalidCharacter '×' ⟨2, 4⟩)))
        [] ['1', ' '] '×' [' ', '2'] (CompileError.invalidCharacter '×' ⟨2, 4⟩).help := by
  refine ⟨rfl, by decide, fun h => ?_⟩
  obtain ⟨marks, hrow, hmarks⟩ := h.underline
  have hdrawn : (rowsOf (render false "1 × 2"
      (.ofCompileError (.invalidCharacter '×' ⟨2, 4⟩))))[4]? =
        some (unnumberedMargin 1 ++ [' ', ' ', '─', '┬', ' ', ' ']) := by
    rw [rowsOf_render]
    decide +kernel
  have heq : marks = [' ', ' ', '─', '┬', ' ', ' '] :=
    List.append_cancel_left (Option.some.inj (hrow.symm.trans hdrawn))
  have hbehind := (hmarks 3).mp (by rw [heq]; decide)
  exact absurd hbehind.2 (by decide +kernel)

end TaskFarm.Report
