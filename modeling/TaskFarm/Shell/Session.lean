import TaskFarm.Decimal.Positional
import TaskFarm.Expr.Printer
import TaskFarm.Farm.Evaluation
import TaskFarm.Report.Failure
import TaskFarm.Text.Blank

/-!
# A session

A session takes lines one after the other.  A line without its outer white space is an expression
to evaluate, or asks for the history; an empty one does nothing.  What a session says is a list of
utterances, each of which goes to the output or to the error output.
-/

namespace TaskFarm.Shell

open TaskFarm.Expr (Arena)

/-- Something that a session says. -/
inductive Utterance where
  /-- The tree that an expression was read as. -/
  | tree (arena : Arena)
  | value (value : Float)
  /-- A line of the history. -/
  | entry (record : Record)
  | failure (source : String) (cause : FarmError)

/-- The line of the history for a record. -/
def entryText (r : Record) : String :=
  let line := r.status.text ++ "  " ++ r.expression
  match r.result with
  | some value => line ++ " = " ++ Decimal.text value
  | none => line

namespace Utterance

def output : Utterance → String
  | .tree arena => "=== Parsed AST ===\n" ++ arena.text ++ "\n\n"
  | .value x => Decimal.text x ++ "\n"
  | .entry record => entryText record ++ "\n"
  | .failure _ _ => ""

def errorOutput : Utterance → String
  | .failure source cause => Report.render true source cause
  | _ => ""

end Utterance

/-- The line that asks for the history. -/
def listRequest : String := ":list"

/-- Evaluate an expression and say what came of it. -/
def evaluate (f : Farm) (source : String) : List Utterance × Farm :=
  match f.evaluate source with
  | (some (.ok value), f) => ([.value value], f)
  | (some (.error cause), f) => ([.failure source cause], f)
  | (none, f) => ([], f)

/-- Show the tree of an expression and evaluate it; one that cannot be read is not taken in. -/
def evaluateShown (f : Farm) (source : String) : List Utterance × Farm :=
  match Expr.parse source with
  | .error cause => ([.failure source (.ofCompileError cause)], f)
  | .ok arena =>
    let (said, f) := evaluate f source
    (.tree arena :: said, f)

def takeLine (debugParse : Bool) (f : Farm) (line : String) : List Utterance × Farm :=
  let source := Text.trim line
  if source.isEmpty then
    ([], f)
  else if source == listRequest then
    (f.ledger.records.map .entry, f)
  else if debugParse then
    evaluateShown f source
  else
    evaluate f source

def takeLines (debugParse : Bool) (f : Farm) : List String → List Utterance × Farm
  | [] => ([], f)
  | line :: rest =>
    let (said, f) := takeLine debugParse f line
    let (others, f) := takeLines debugParse f rest
    (said ++ others, f)

/-- The farm at the beginning of a session. -/
def openFarm (settings : Settings) : Farm :=
  (Farm.opened settings .regular).hire

end TaskFarm.Shell
