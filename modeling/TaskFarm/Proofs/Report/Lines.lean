import TaskFarm.Report.Failure
import TaskFarm.Proofs.Expr.Span
import Mathlib.Data.List.DropRight

/-!
# Lines, rows and columns

A source is cut into lines, and each of its characters stands in one of them.  The drawing of a line
shows blanks as spaces, so a character takes up columns according to its index in the line.
-/

namespace TaskFarm

/-! ## Rows of a text -/

namespace Text

theorem isBlank_newline : isBlank '\n' = true := by
  decide

theorem piecesOf_append {row : List Char} (h : '\n' ∉ row) (rest : List Char) :
    piecesOf (row ++ '\n' :: rest) = row :: piecesOf rest := by
  induction row with
  | nil => rfl
  | cons c row ih =>
      have hc : c ≠ '\n' := fun heq => h (by simp [heq])
      have hrow := ih fun hmem => h (List.mem_cons_of_mem c hmem)
      rw [List.cons_append, piecesOf.eq_3 _ _ hc, hrow]
      rfl

/-- A text that is made of rows is cut into these rows again. -/
theorem piecesOf_flatMap {rows : List (List Char)} (h : ∀ row ∈ rows, '\n' ∉ row) :
    piecesOf (rows.flatMap (· ++ ['\n'])) = rows ++ [[]] := by
  induction rows with
  | nil => rfl
  | cons row rows ih =>
      have hrow := piecesOf_append (h row List.mem_cons_self) (rows.flatMap (· ++ ['\n']))
      rw [ih fun row hmem => h row (List.mem_cons_of_mem _ hmem)] at hrow
      simpa using hrow

end Text

namespace Report

open TaskFarm.Expr

variable {source above inLine tail front back : List Char} {c : Char} {lines : List (List Char)}

/-! ## Lines of a source -/

/-- A character of joined lines stands in one of them. -/
theorem exists_line_of_flatten (h : lines.flatten = front ++ c :: back) :
    ∃ above inLine tail below, lines = above ++ (inLine ++ c :: tail) :: below ∧
      front = above.flatten ++ inLine := by
  induction lines generalizing front with
  | nil => simp at h
  | cons line lines ih =>
      rcases append_eq_append_cons h with ⟨tail, rfl, -⟩ | ⟨middle, rfl, hrest⟩
      · exact ⟨[], front, tail, lines, rfl, rfl⟩
      · obtain ⟨above, inLine, tail, below, rfl, rfl⟩ := ih hrest
        exact ⟨line :: above, inLine, tail, below, rfl, by simp⟩

theorem placed_append (number start : Nat) (lines lines' : List (List Char)) :
    placed number start (lines ++ lines') = placed number start lines ++
      placed (number + lines.length) (start + lines.flatten.length) lines' := by
  induction lines generalizing number start with
  | nil => simp [placed]
  | cons line lines ih =>
      simp [placed, ih, Nat.add_assoc, Nat.add_comm 1]

theorem start_le_of_mem_placed {number start : Nat} {line : SourceLine}
    (h : line ∈ placed number start lines) : start ≤ line.start := by
  induction lines generalizing number start with
  | nil => cases h
  | cons text lines ih =>
      rcases List.mem_cons.mp h with rfl | h
      · exact Nat.le_refl _
      · exact Nat.le_of_add_right_le (ih h)

/-- The line of a character is found by the number of characters before it. -/
theorem lineAt?_eq {above below : List (List Char)}
    (h : Text.linesOf source = above ++ (inLine ++ c :: tail) :: below) :
    lineAt? source (above.flatten ++ inLine).length =
      some ⟨above.length + 1, above.flatten.length, inLine ++ c :: tail⟩ := by
  have hlines : sourceLines source = placed 1 0 (Text.linesOf source) := by
    rw [sourceLines]
    split
    · next hnil => simp [hnil] at h
    · rfl
  have hbelow : (placed (above.length + 2) (above.flatten.length + (inLine ++ c :: tail).length)
      below).filter (fun line => line.start ≤ (above.flatten ++ inLine).length) = [] := by
    refine List.filter_eq_nil_iff.mpr fun line hline => ?_
    have hstart := start_le_of_mem_placed hline
    simp only [List.length_append, List.length_cons] at hstart ⊢
    simp only [decide_eq_true_eq]
    omega
  rw [lineAt?, hlines, h, placed_append, placed, List.filter_append,
    List.filter_cons_of_pos (by simp), Nat.zero_add, Nat.add_comm 1, hbelow]
  simp

/-- What is drawn of a line: all up to its last character that is not blank. -/
theorem visible_eq (hc : Text.isBlank c = false) (number start : Nat) :
    (⟨number, start, inLine ++ c :: tail⟩ : SourceLine).visible =
      inLine ++ c :: tail.rdropWhile Text.isBlank := by
  simp only [SourceLine.visible, List.rdropWhile, List.reverse_append, List.reverse_cons,
    List.append_assoc, List.dropWhile_append]
  split
  · next hnil =>
    have hdrop : (tail.reverse.dropWhile Text.isBlank) = [] := by simpa using hnil
    simp [hc, hdrop]
  · simp

/-! ## Columns of a line -/

/-- Characters as they are drawn from an index of their line on: a blank becomes spaces, as many as
it is wide. -/
def shownFrom (index : Nat) : List Char → List Char
  | [] => []
  | c :: rest =>
    (if Text.isBlank c then List.replicate (Text.width index c) ' ' else [c]) ++
      shownFrom (index + 1) rest

/-- The columns that characters take up from an index of their line on. -/
def columnsFrom (index : Nat) : List Char → Nat
  | [] => 0
  | c :: rest => Text.width index c + columnsFrom (index + 1) rest

theorem columnsFrom_append (index : Nat) (cs cs' : List Char) :
    columnsFrom index (cs ++ cs') = columnsFrom index cs + columnsFrom (index + cs.length) cs' := by
  induction cs generalizing index with
  | nil => simp [columnsFrom]
  | cons c cs ih =>
      have hindex : index + 1 + cs.length = index + (cs.length + 1) := by omega
      simp only [List.cons_append, columnsFrom, ih, List.length_cons, hindex, Nat.add_assoc]

theorem newline_notMem_shownFrom (index : Nat) (cs : List Char) : '\n' ∉ shownFrom index cs := by
  induction cs generalizing index with
  | nil => simp [shownFrom]
  | cons c rest ih =>
      rw [shownFrom, List.mem_append, not_or]
      refine ⟨?_, ih _⟩
      split
      · simp [List.mem_replicate]
      · next hblank =>
        rw [List.mem_singleton]
        rintro rfl
        exact hblank Text.isBlank_newline

/-- The text of a drawing. -/
def textOf (d : Drawing) : List Char :=
  d.flatMap Piece.text

@[simp] theorem textOf_nil : textOf [] = [] := rfl

@[simp] theorem textOf_cons (p : Piece) (d : Drawing) : textOf (p :: d) = p.text ++ textOf d := rfl

@[simp] theorem textOf_append (d d' : Drawing) : textOf (d ++ d') = textOf d ++ textOf d' :=
  List.flatMap_append

theorem textOf_replicate (n : Nat) (ink : Ink) (x : Char) :
    textOf (List.replicate n ⟨ink, [x]⟩) = List.replicate n x := by
  induction n with
  | zero => rfl
  | succ n ih => rw [List.replicate_succ, textOf_cons, ih]; rfl

theorem textOf_sourceCells (l : Label) (index : Nat) (cs : List Char) :
    textOf ((cs.mapIdx fun i => sourceCell l (i + index)).flatten) = shownFrom index cs := by
  induction cs generalizing index with
  | nil => rfl
  | cons c rest ih =>
      have hnext := ih (index + 1)
      simp only [← Nat.add_assoc, Nat.add_right_comm _ index] at hnext
      rw [List.mapIdx_cons, List.flatten_cons, textOf_append, shownFrom, hnext, Nat.zero_add]
      congr 1
      rw [sourceCell]
      split
      · exact textOf_replicate _ _ _
      · rfl

/-- A cell with the same piece in each column. -/
theorem cell_self (columns : Nat) (p : Piece) : cell columns p p = List.replicate columns p := by
  rw [cell, ← List.replicate_succ, List.take_replicate]
  congr 1
  omega

theorem mem_cell {columns : Nat} {first next p : Piece} (h : p ∈ cell columns first next) :
    p = first ∨ p = next := by
  rcases List.mem_cons.mp (List.mem_of_mem_take h) with rfl | h
  · exact .inl rfl
  · exact .inr (List.eq_of_mem_replicate h)

/-- Cells of one piece below characters of a line are as wide as the characters. -/
theorem textOf_cells (before rest : List Char) (cs : List Char) (ink : Ink) (x : Char) :
    textOf ((List.range' before.length cs.length).flatMap fun index =>
      cell (columnsAt (before ++ cs ++ rest) index) ⟨ink, [x]⟩ ⟨ink, [x]⟩) =
        List.replicate (columnsFrom before.length cs) x := by
  induction cs generalizing before with
  | nil => rfl
  | cons c cs ih =>
      have hcolumns : columnsAt (before ++ c :: cs ++ rest) before.length =
          Text.width before.length c := by
        simp [columnsAt]
      have hnext := ih (before ++ [c])
      rw [List.length_append, List.length_singleton, List.append_assoc before] at hnext
      rw [List.length_cons, List.range'_succ, List.flatMap_cons, textOf_append, cell_self,
        textOf_replicate, hcolumns, columnsFrom, List.replicate_add]
      congr 1

end Report

end TaskFarm
