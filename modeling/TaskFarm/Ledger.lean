import TaskFarm.Task.Basic

/-!
# The ledger of expressions

Every expression that was handed in has a record, which starts out as processing and moves exactly
once to done, with a value, or to error.  The ledger keeps the records in the order in which they
were created.
-/

namespace TaskFarm

/-- The name of an expression. -/
structure ExpressionId where
  number : Nat
  deriving DecidableEq, Repr, Inhabited

def ExpressionId.text (id : ExpressionId) : String :=
  uuidText id.number

inductive Status where
  | processing
  | done
  | error
  deriving DecidableEq, Repr

namespace Status

def all : List Status :=
  [.processing, .done, .error]

def text : Status → String
  | .processing => "processing"
  | .done => "DONE"
  | .error => "error"

/-- The status with a written form. -/
def ofText? (text : String) : Option Status :=
  all.find? fun status => status.text == text

/-- The expression will not change any more. -/
def isTerminal (s : Status) : Bool :=
  s != .processing

end Status

inductive Ending where
  | done (value : Float)
  | failed

/-- What is known about an expression. -/
structure Record where
  id : ExpressionId
  expression : String
  status : Status
  result : Option Float
  /-- The number of records that were created before this one. -/
  seq : Nat

namespace Record

/-- The record of an expression that was just handed in. -/
def processing (id : ExpressionId) (expression : String) : Record :=
  { id, expression, status := .processing, result := none, seq := 0 }

def finish (r : Record) : Ending → Record
  | .done value => { r with status := .done, result := some value }
  | .failed => { r with status := .error, result := none }

end Record

inductive LedgerError where
  | notFound (id : ExpressionId)
  | alreadyExists (id : ExpressionId)
  | alreadyFinished (id : ExpressionId)
  deriving DecidableEq, Repr

/-- The wording of a refusal, with expressions named by `name`. -/
def LedgerError.message (name : ExpressionId → String) : LedgerError → String
  | .notFound id => "expression " ++ name id ++ " not found"
  | .alreadyExists id => "expression " ++ name id ++ " already exists"
  | .alreadyFinished id => "expression " ++ name id ++ " has already finished"

/-- The records of all expressions, the oldest first. -/
structure Ledger where
  records : List Record

namespace Ledger

def empty : Ledger :=
  ⟨[]⟩

/-- The record of an expression. -/
def get? (l : Ledger) (id : ExpressionId) : Option Record :=
  l.records.find? fun r => r.id == id

/-- Add a record, which gets the next number, unless its expression has one already. -/
def create (l : Ledger) (r : Record) : Except LedgerError Ledger :=
  match l.get? r.id with
  | some _ => .error (.alreadyExists r.id)
  | none => .ok ⟨l.records ++ [{ r with seq := l.records.length }]⟩

def replace (l : Ledger) (record : Record) : Ledger :=
  ⟨l.records.map fun r => if r.id == record.id then record else r⟩

/-- Note how an expression ended; the record as it is now, and the new ledger. -/
def finish (l : Ledger) (id : ExpressionId) (ending : Ending) :
    Except LedgerError (Record × Ledger) :=
  match l.get? id with
  | none => .error (.notFound id)
  | some r =>
    if r.status.isTerminal then
      .error (.alreadyFinished id)
    else
      .ok (r.finish ending, l.replace (r.finish ending))

end Ledger

end TaskFarm
