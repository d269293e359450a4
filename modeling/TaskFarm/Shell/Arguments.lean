import TaskFarm.Settings

/-!
# Command line arguments

The arguments are read from left to right.  An option that takes a number has it behind an equals
sign or as the next argument, and is given at most once.  One argument may be the expression; after
two dashes every argument counts as one, whatever it begins with.
-/

namespace TaskFarm.Shell

inductive NumberOption where
  | workers
  | addCost
  | subCost
  | mulCost
  | divCost
  | backoff
  deriving DecidableEq, Repr

namespace NumberOption

def all : List NumberOption :=
  [.workers, .addCost, .subCost, .mulCost, .divCost, .backoff]

def flag : NumberOption → String
  | .workers => "--workers"
  | .addCost => "--add-ms"
  | .subCost => "--sub-ms"
  | .mulCost => "--mul-ms"
  | .divCost => "--div-ms"
  | .backoff => "--backoff-ms"

/-- The least number that an option admits. -/
def least : NumberOption → Nat
  | .backoff => 1
  | _ => 0

/-- The option with a written form. -/
def ofFlag? (flag : String) : Option NumberOption :=
  all.find? fun o => o.flag == flag

/-- The number that a text says, if the option admits it. -/
def number? (o : NumberOption) (text : String) : Option Nat :=
  (Settings.word? text.toList).bind fun n => if o.least ≤ n then some n else none

/-- The settings with the number of an option in place. -/
def apply (o : NumberOption) (n : Nat) (s : Settings) : Settings :=
  match o with
  | .workers => s.withWorkers n
  | .addCost => { s with costs := { s.costs with add := n } }
  | .subCost => { s with costs := { s.costs with sub := n } }
  | .mulCost => { s with costs := { s.costs with mul := n } }
  | .divCost => { s with costs := { s.costs with div := n } }
  | .backoff => { s with workers := { s.workers with backoff := n } }

end NumberOption

/-- What the arguments ask for. -/
structure Arguments where
  /-- The numbers that were given, each option at most once. -/
  numbers : List (NumberOption × Nat)
  /-- The tree of each expression is shown. -/
  debugParse : Bool
  expression : Option String
  deriving DecidableEq, Repr

/-- Why the arguments make no sense. -/
inductive UsageError where
  | unknownOption (text : String)
  | missingNumber (o : NumberOption)
  | noNumber (o : NumberOption) (text : String)
  | repeatedOption (text : String)
  /-- A second expression. -/
  | unexpected (text : String)
  deriving DecidableEq, Repr

def UsageError.message : UsageError → String
  | .unknownOption text => "unknown option '" ++ text ++ "'"
  | .missingNumber o => "option '" ++ o.flag ++ "' needs a number"
  | .noNumber o text => "'" ++ text ++ "' is no number for option '" ++ o.flag ++ "'"
  | .repeatedOption text => "option '" ++ text ++ "' is given twice"
  | .unexpected text => "unexpected argument '" ++ text ++ "'"

inductive Invocation where
  | work (a : Arguments)
  | help
  deriving DecidableEq, Repr

/-- What a single argument is. -/
inductive Argument where
  | help
  | debugParse
  /-- An option that takes a number, with the text behind an equals sign. -/
  | number (o : NumberOption) (value : Option String)
  | separator
  | text
  | unknown

/-- The part of a text before the first equals sign, and the part behind it. -/
def splitAtEquals : List Char → List Char × Option (List Char)
  | [] => ([], none)
  | '=' :: rest => ([], some rest)
  | c :: rest =>
    let (name, value) := splitAtEquals rest
    (c :: name, value)

/-- What an argument is, judged by its beginning. -/
def Argument.of (text : String) : Argument :=
  match text.toList with
  | ['-', '-'] => .separator
  | '-' :: '-' :: _ =>
    if text == "--help" then .help
    else if text == "--debug-parse" then .debugParse
    else
      let (name, value) := splitAtEquals text.toList
      match NumberOption.ofFlag? (String.ofList name) with
      | some o => .number o (value.map String.ofList)
      | none => .unknown
  | '-' :: 'h' :: _ => .help
  | '-' :: _ :: _ => .unknown
  | _ => .text

namespace Arguments

def none : Arguments :=
  { numbers := [], debugParse := false, expression := .none }

def addNumber (a : Arguments) (o : NumberOption) (text : String) : Except UsageError Arguments :=
  if a.numbers.any fun given => given.1 == o then
    .error (.repeatedOption o.flag)
  else
    match o.number? text with
    | some n => .ok { a with numbers := a.numbers ++ [(o, n)] }
    | .none => .error (.noNumber o text)

def addExpression (a : Arguments) (text : String) : Except UsageError Arguments :=
  match a.expression with
  | some _ => .error (.unexpected text)
  | .none => .ok { a with expression := some text }

def addDebugParse (a : Arguments) : Except UsageError Arguments :=
  if a.debugParse then .error (.repeatedOption "--debug-parse")
  else .ok { a with debugParse := true }

/-- Read the arguments behind two dashes. -/
def readRest (a : Arguments) : List String → Except UsageError Invocation
  | [] => .ok (.work a)
  | text :: rest =>
    match a.addExpression text with
    | .ok a => a.readRest rest
    | .error e => .error e

def read (a : Arguments) : List String → Except UsageError Invocation
  | [] => .ok (.work a)
  | text :: rest =>
    match Argument.of text, rest with
    | .help, _ => .ok .help
    | .separator, rest => a.readRest rest
    | .debugParse, rest =>
      match a.addDebugParse with
      | .ok a => a.read rest
      | .error e => .error e
    | .number o (some value), rest =>
      match a.addNumber o value with
      | .ok a => a.read rest
      | .error e => .error e
    | .number o .none, [] => .error (.missingNumber o)
    | .number o .none, value :: rest =>
      match a.addNumber o value with
      | .ok a => a.read rest
      | .error e => .error e
    | .text, rest =>
      match a.addExpression text with
      | .ok a => a.read rest
      | .error e => .error e
    | .unknown, _ => .error (.unknownOption text)

/-- The settings that are looked up, with the numbers that were given in place. -/
def settings (a : Arguments) (env : String → Option String) : Settings :=
  a.numbers.foldl (fun s (o, n) => o.apply n s) (Settings.ofLookup env)

end Arguments

/-- What the arguments of the program ask for. -/
def readArguments (args : List String) : Except UsageError Invocation :=
  Arguments.none.read args

end TaskFarm.Shell
