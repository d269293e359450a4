import TaskFarm.Expr.CompileError

/-!
# Drawings

A drawing is a sequence of inked pieces of text.  Painted in colour, an inked piece stands between
two terminal sequences; painted without colour, each piece is written bare.
-/

namespace TaskFarm.Report

open TaskFarm.Expr (Severity)

inductive Ink where
  /-- The colour of the terminal. -/
  | bare
  /-- The frame of the drawing. -/
  | margin
  /-- The frame beside lines that are not numbered. -/
  | skippedMargin
  /-- Source text outside the label. -/
  | unimportant
  /-- The label and the source text under it. -/
  | label
  | help
  | severity (s : Severity)
  deriving DecidableEq, Repr

/-- The parameters of the terminal sequence that sets an ink; the bare one needs none. -/
def Ink.code? : Ink → Option String
  | .bare => none
  | .margin => some "38;5;246"
  | .skippedMargin => some "38;5;240"
  | .unimportant => some "38;5;249"
  | .label => some "38;5;155"
  | .help => some "38;5;115"
  | .severity .error => some "31"
  | .severity .warning => some "33"
  | .severity .info => some "38;5;147"

structure Piece where
  ink : Ink
  text : List Char

/-- Inked pieces in the order in which they are written. -/
abbrev Drawing := List Piece

/-- The character that opens a terminal sequence. -/
def escape : Char := Char.ofNat 0x1B

/-- A piece between the sequences that set its ink and take it back. -/
def Piece.coloured (p : Piece) : List Char :=
  match p.ink.code? with
  | none => p.text
  | some code =>
    escape :: '[' :: (code.toList ++ 'm' :: p.text ++ [escape, '[', '0', 'm'])

def paint (colour : Bool) (d : Drawing) : String :=
  String.ofList (d.flatMap fun p => if colour then p.coloured else p.text)

/-- A piece in the colour of the terminal. -/
def bare (text : String) : Piece :=
  ⟨.bare, text.toList⟩

def inked (ink : Ink) (text : String) : Piece :=
  ⟨ink, text.toList⟩

def newline : Piece :=
  ⟨.bare, ['\n']⟩

end TaskFarm.Report
