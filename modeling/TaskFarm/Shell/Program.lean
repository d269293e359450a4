import TaskFarm.Shell.Arguments
import TaskFarm.Shell.Session
import TaskFarm.Text.Blank

/-!
# The program

The program evaluates the expression among its arguments, or else every line of its input.
-/

namespace TaskFarm.Shell

/-- What the program leaves behind. -/
structure Transcript where
  code : Nat
  output : String
  /-- The reports of failures and of wrong usage.  The lines of a log, such as the warning that an
  expression was rejected, may go to the error output as well, depending on the environment and
  stamped with the time; they are no part of a transcript. -/
  errorOutput : String

def usage : String :=
  "Evaluate arithmetic expressions on a pool of workers\n\n" ++
  "Usage: quotient [OPTIONS] [EXPRESSION]\n\n" ++
  "Arguments:\n" ++
  "  [EXPRESSION]  Expression to evaluate (if not provided, reads from stdin)\n\n" ++
  "Options:\n" ++
  "      --workers <WORKERS>        Number of workers\n" ++
  "      --add-ms <ADD_MS>          Simulated cost of an addition, in milliseconds\n" ++
  "      --sub-ms <SUB_MS>          Simulated cost of a subtraction, in milliseconds\n" ++
  "      --mul-ms <MUL_MS>          Simulated cost of a multiplication, in milliseconds\n" ++
  "      --div-ms <DIV_MS>          Simulated cost of a division, in milliseconds\n" ++
  "      --backoff-ms <BACKOFF_MS>  " ++
  "How long an idle worker waits before polling again, in milliseconds\n" ++
  "      --debug-parse              Print the parsed AST (for debugging)\n" ++
  "  -h, --help                     Print help\n"

def inputLines (input : String) : List String :=
  (Text.piecesOf input.toList).map String.ofList

/-- The lines to take: the expression alone if there is one. -/
def Arguments.lines (a : Arguments) (input : String) : List String :=
  match a.expression with
  | some source => [source]
  | .none => inputLines input

/-- What is left behind when a list of utterances was said. -/
def Transcript.ofUtterances (said : List Utterance) : Transcript :=
  { code := 0
    output := String.join (said.map Utterance.output)
    errorOutput := String.join (said.map Utterance.errorOutput) }

/-- A whole run of the program. -/
def run (args : List String) (env : String → Option String) (input : String) : Transcript :=
  match readArguments args with
  | .error e => { code := 2, output := "", errorOutput := "error: " ++ e.message ++ "\n" }
  | .ok .help => { code := 0, output := usage, errorOutput := "" }
  | .ok (.work a) =>
    .ofUtterances (takeLines a.debugParse (openFarm (a.settings env)) (a.lines input)).1

/-- The program reads its input, which it does not if the arguments say all. -/
def readsInput (args : List String) : Bool :=
  match readArguments args with
  | .ok (.work a) => a.expression.isNone
  | _ => false

end TaskFarm.Shell
