import TaskFarm.Decimal.Numeral
import TaskFarm.Expr.Span
import TaskFarm.Ledger
import TaskFarm.Task.Basic
import TaskFarm.Wire.JsonText

/-!
# Tasks, results and records as JSON

Each type has an encoder and a decoder.  A structure is an object whose optional fields are left
out when they are empty; the decoder also takes a list of the fields in their order, and it skips
fields that it does not know.  A name out of a fixed list is a string, or an object with that one
field whose value is null.
-/

namespace TaskFarm.Wire

open TaskFarm.Expr (Operator Span)
open Json (hexValue?)

/-! ## Identifiers -/

/-- The number that thirty-two hexadecimal digits spell. -/
def uuidDigits? (digits : List Char) : Option Nat :=
  if digits.length = 32 then hexValue? digits else none

/-- The number of an identifier with hyphens. -/
def hyphenated? (cs : List Char) : Option Nat :=
  let at8 (n : Nat) := cs[n]? == some '-'
  if cs.length = 36 ∧ at8 8 ∧ at8 13 ∧ at8 18 ∧ at8 23 then
    uuidDigits? (cs.take 8 ++ (cs.drop 9).take 4 ++ (cs.drop 14).take 4 ++ (cs.drop 19).take 4 ++
      cs.drop 24)
  else
    none

/-- The number of an identifier: digits of either case with or without hyphens, or the hyphenated
form in braces or behind a resource name. -/
def uuid? (text : String) : Option Nat :=
  let cs := text.toList
  let urn := ['u', 'r', 'n', ':', 'u', 'u', 'i', 'd', ':']
  if cs.length = 32 then
    uuidDigits? cs
  else if cs.length = 36 then
    hyphenated? cs
  else if cs.length = 38 ∧ cs.head? = some '\x7b' ∧ cs.getLast? = some '\x7d' then
    hyphenated? ((cs.drop 1).take 36)
  else if cs.length = 45 ∧ cs.take 9 = urn then
    hyphenated? (cs.drop 9)
  else
    none

namespace Json

/-! ## Parts of a decoder -/

def toUuid? : Json → Option Nat
  | .string text => uuid? text
  | _ => none

def toText? : Json → Option String
  | .string text => some text
  | _ => none

/-- A natural number, written as an integer. -/
def toNatural? : Json → Option Nat
  | .natural n => some n
  | _ => none

/-- A double; integers stand for the nearest one. -/
def toFloat? : Json → Option Float
  | .natural n => some (Decimal.Scientific.nearest ⟨n, 0⟩)
  | .negative n => some (-(Decimal.Scientific.nearest ⟨n, 0⟩))
  | .float x => some x
  | _ => none

/-- The name that a value stands for. -/
def toName? : Json → Option String
  | .string text => some text
  | .object [(text, .null)] => some text
  | _ => none

/-- The fields of a structure by name, out of an object or out of a list in the order of names. -/
def toFields? (names : List String) : Json → Option (List (String × Json))
  | .object fields => some fields
  | .array items => if items.length ≤ names.length then some (names.zip items) else none
  | _ => none

/-- A field that may be absent or null. -/
def optional? {α : Type} (decode : Json → Option α) (fields : List (String × Json))
    (name : String) : Option (Option α) :=
  match field? fields name with
  | none | some .null => some none
  | some value => (decode value).map some

/-- A field that has to be there. -/
def required? {α : Type} (decode : Json → Option α) (fields : List (String × Json))
    (name : String) : Option α :=
  (field? fields name).bind decode

/-- A field that is written only when it has a value. -/
def unlessEmpty (name : String) : Option Json → List (String × Json)
  | none => []
  | some value => [(name, value)]

/-- A double; where there is no such number, null. -/
def ofFloat (x : Float) : Json :=
  if x.isFinite then .float x else .null

/-! ## The types -/

def ofOperator (op : Operator) : Json :=
  .string op.text

def toOperator? (j : Json) : Option Operator :=
  j.toName?.bind Operator.ofText?

def ofStatus (s : Status) : Json :=
  .string s.text

def toStatus? (j : Json) : Option Status :=
  j.toName?.bind Status.ofText?

def ofSpan (s : Span) : Json :=
  .object [("start", .natural s.start), ("end", .natural s.stop)]

/-- The span of a JSON value; no other field may stand beside its two. -/
def toSpan? (j : Json) : Option Span := do
  let fields ← j.toFields? ["start", "end"]
  if fields.all fun entry => entry.1 == "start" || entry.1 == "end" then
    let start ← required? toNatural? fields "start"
    let stop ← required? toNatural? fields "end"
    pure ⟨start, stop⟩
  else
    none

def ofTaskError : TaskError → Json
  | .divisionByZero => .object [("kind", .string "division_by_zero")]
  | .unknownOperator symbol =>
    .object [("kind", .string "unknown_operator"), ("detail", .string symbol)]

def toTaskError? (j : Json) : Option TaskError := do
  let fields ← j.toFields? ["kind", "detail"]
  let kind ← required? toName? fields "kind"
  if kind = "division_by_zero" then
    match j, field? fields "detail" with
    | .object _, none | _, some .null => some .divisionByZero
    | _, _ => none
  else if kind = "unknown_operator" then
    (required? toText? fields "detail").map .unknownOperator
  else
    none

def ofTask (t : Task) : Json :=
  .object <|
    [("id", .string t.id.text), ("arg1", ofFloat t.arg1), ("arg2", ofFloat t.arg2),
      ("operation", .string t.operation), ("operation_time", .natural t.duration)] ++
    unlessEmpty "error" (t.error.map ofTaskError)

def toTask? (j : Json) : Option Task := do
  let fields ← j.toFields? ["id", "arg1", "arg2", "operation", "operation_time", "error"]
  let id ← required? toUuid? fields "id"
  let arg1 ← required? toFloat? fields "arg1"
  let arg2 ← required? toFloat? fields "arg2"
  let operation ← required? toText? fields "operation"
  let duration ← required? toNatural? fields "operation_time"
  let error ← optional? toTaskError? fields "error"
  pure { id := ⟨id⟩, arg1, arg2, operation, duration, error }

def ofResult (r : TaskResult) : Json :=
  .object <|
    [("task_id", .string r.id.text), ("result", ofFloat r.value)] ++
    unlessEmpty "error" (r.error.map ofTaskError)

def toResult? (j : Json) : Option TaskResult := do
  let fields ← j.toFields? ["task_id", "result", "error"]
  let id ← required? toUuid? fields "task_id"
  let value ← required? toFloat? fields "result"
  let error ← optional? toTaskError? fields "error"
  pure { id := ⟨id⟩, value, error }

/-- The JSON of an expression's record; its number is not written. -/
def ofRecord (r : Record) : Json :=
  .object <|
    [("id", .string r.id.text), ("expression", .string r.expression),
      ("status", ofStatus r.status)] ++
    unlessEmpty "result" (r.result.map ofFloat)

/-- The expression's record of a JSON value, with the number zero. -/
def toRecord? (j : Json) : Option Record := do
  let fields ← j.toFields? ["id", "expression", "status", "result"]
  let id ← required? toUuid? fields "id"
  let expression ← required? toText? fields "expression"
  let status ← required? toStatus? fields "status"
  let result ← optional? toFloat? fields "result"
  pure { id := ⟨id⟩, expression, status, result, seq := 0 }

end Json

end TaskFarm.Wire
