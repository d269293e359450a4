import TaskFarm.FarmError
import TaskFarm.Report.Drawing
import TaskFarm.Text.Width

/-!
# Reporting a failure

A failure to read an expression is drawn against its source; every other failure is one line.

A diagnostic is drawn as a heading, the line of the source that it is about with its place
underlined, and its help.  The drawing counts in characters: the ends of the span are taken as
character offsets into the source.  Only labels that stay within one line are drawn.
-/

namespace TaskFarm.Report

open TaskFarm.Expr (Diagnostic Severity)

def headingWord : Severity → String
  | .error => "Error"
  | .warning => "Warning"
  | .info => "Advice"

/-- A code in brackets, at least two characters wide. -/
def bracketed (code : String) : String :=
  "[" ++ code ++ String.ofList (List.replicate (2 - code.length) ' ') ++ "] "

def heading (d : Diagnostic) : Drawing :=
  let code := (d.code.map bracketed).getD ""
  [inked (.severity d.severity) (code ++ headingWord d.severity ++ ":"), bare (" " ++ d.message),
    newline]

/-- A line of a source: its number from one, the character offset of its start, and its text with
the terminator. -/
structure SourceLine where
  number : Nat
  start : Nat
  text : List Char

/-- The lines of a list, numbered and placed from a first number and offset on. -/
def placed (number start : Nat) : List (List Char) → List SourceLine
  | [] => []
  | text :: rest => ⟨number, start, text⟩ :: placed (number + 1) (start + text.length) rest

/-- The lines of a source; the empty source has one empty line. -/
def sourceLines (source : List Char) : List SourceLine :=
  match Text.linesOf source with
  | [] => [⟨1, 0, []⟩]
  | lines => placed 1 0 lines

/-- The last line that starts at or before a character offset. -/
def lineAt? (source : List Char) (offset : Nat) : Option SourceLine :=
  ((sourceLines source).filter fun line => line.start ≤ offset).getLast?

/-- The characters of a line that are drawn: white space at its end is not. -/
def SourceLine.visible (line : SourceLine) : List Char :=
  (line.text.reverse.dropWhile Text.isBlank).reverse

/-- The label of a drawing, counted in characters from the start of its line. -/
structure Label where
  start : Nat
  stop : Nat

namespace Label

/-- The character under which the message hangs. -/
def middle (l : Label) : Nat :=
  (l.start + l.stop) / 2

def covers (l : Label) (index : Nat) : Bool :=
  l.start ≤ index && index < l.stop

end Label

/-- A character of the source line: white space is drawn as spaces, as wide as it is. -/
def sourceCell (l : Label) (index : Nat) (c : Char) : Drawing :=
  let ink := if l.covers index then Ink.label else Ink.unimportant
  if Text.isBlank c then
    List.replicate (Text.width index c) ⟨ink, [' ']⟩
  else
    [⟨ink, [c]⟩]

/-- The columns of a drawn line at an index; there is one for each index behind its end. -/
def columnsAt (visible : List Char) (index : Nat) : Nat :=
  match visible[index]? with
  | some c => Text.width index c
  | none => 1

/-- A cell of some columns: one piece in the first, then another one in each further column. -/
def cell (columns : Nat) (first next : Piece) : Drawing :=
  (first :: List.replicate (columns - 1) next).take columns

/-- The space of a cell without a mark. -/
def space : Piece :=
  ⟨.bare, [' ']⟩

def mark (c : Char) : Piece :=
  ⟨.label, [c]⟩

/-- The underline below a character. -/
def underlineCell (visible : List Char) (l : Label) (index : Nat) : Drawing :=
  let columns := columnsAt visible index
  if index = l.middle then
    if l.covers index then cell columns (mark '┬') (mark '─')
    else cell columns (mark '│') (mark ' ')
  else if l.covers index then
    cell columns (mark '─') (mark '─')
  else
    cell columns space space

/-- The arm that leads from below a character to the message. -/
def armCell (visible : List Char) (l : Label) (index : Nat) : Drawing :=
  let columns := columnsAt visible index
  if index = l.middle then
    cell columns (mark '╰') (mark '─')
  else if l.middle < index then
    cell columns (mark '─') (mark '─')
  else
    cell columns space space

/-- The margin beside a line that is not numbered. -/
def blankMargin (digits : Nat) : Drawing :=
  let gap := String.ofList (List.replicate (digits + 1) ' ')
  [bare " ", inked .skippedMargin (gap ++ "│"), bare " "]

/-- The source line with its number. -/
def sourceRow (line : SourceLine) (l : Label) : Drawing :=
  [bare " ", inked .margin (toString line.number ++ " │"), bare " "] ++
    (line.visible.mapIdx (sourceCell l)).flatten ++ [newline]

/-- The row below the source line that underlines the label. -/
def underlineRow (digits : Nat) (line : SourceLine) (l : Label) : Drawing :=
  blankMargin digits ++
    (List.range (l.stop + 2)).flatMap (underlineCell line.visible l) ++ [newline]

def messageRow (digits : Nat) (line : SourceLine) (l : Label) (message : String) : Drawing :=
  blankMargin digits ++
    (List.range (l.stop + 2)).flatMap (armCell line.visible l) ++ [bare (" " ++ message), newline]

/-- The lines that say where the label is. -/
def placeRows (digits : Nat) (line : SourceLine) (column : Nat) : Drawing :=
  let indent := String.ofList (List.replicate (digits + 2) ' ')
  [bare indent, inked .margin "╭", inked .margin "─", inked .margin "[",
    bare (" <expr>:" ++ toString line.number ++ ":" ++ toString column ++ " "), inked .margin "]",
    newline, bare indent, inked .margin "│", newline]

/-- The label inside its line.  Labels that run into another line are outside these drawings, since
they would take several rows of source: an empty margin stands in their place. -/
def labelRows (digits : Nat) (line : SourceLine) (d : Diagnostic) : Drawing :=
  if line.start + line.text.length < d.span.stop ∨ d.span.start < line.start then
    blankMargin digits ++ [newline]
  else
    let l : Label := ⟨d.span.start - line.start, d.span.stop - line.start⟩
    sourceRow line l ++ underlineRow digits line l ++ messageRow digits line l d.message

def helpRows (digits : Nat) : Option String → Drawing
  | none => []
  | some help =>
    blankMargin digits ++ newline :: blankMargin digits ++
      [inked .help "Help", bare (": " ++ help), newline]

def closing (digits : Nat) : Drawing :=
  [inked .margin (String.ofList (List.replicate (digits + 2) '─') ++ "╯"), newline]

/-- The span lies outside a source of that many characters. -/
def isOutside (size : Nat) (d : Diagnostic) : Bool :=
  size < d.span.start || (d.span.start < d.span.stop && size < d.span.stop - 1)

/-- The drawing of a diagnostic about a source.  Where the span lies outside the source, only the
heading is drawn. -/
def ofDiagnostic (source : List Char) (d : Diagnostic) : Drawing :=
  if isOutside source.length d then
    heading d
  else
    match lineAt? source d.span.start with
    | none => heading d
    | some line =>
      let digits := (Nat.toDigits 10 line.number).length
      heading d ++ placeRows digits line (d.span.start - line.start + 1) ++
        labelRows digits line d ++ helpRows digits d.help ++ closing digits

/-- The drawing of a failure of a source. -/
def ofFailure (source : String) : FarmError → Drawing
  | .compilation diagnostic _ => ofDiagnostic source.toList diagnostic
  | .evaluation cause =>
    [bare ("Evaluation error: " ++ cause.message TaskId.text), newline]
  | .ledger cause =>
    [bare ("Store error: " ++ cause.message ExpressionId.text), newline]

/-- The text of a failure of a source, in colour or without. -/
def render (colour : Bool) (source : String) (failure : FarmError) : String :=
  paint colour (ofFailure source failure)

end TaskFarm.Report
