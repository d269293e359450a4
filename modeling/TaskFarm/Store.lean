import Std.Data.HashMap
import TaskFarm.Ledger

/-!
# The store of records

The store keeps the records in a hash table, in no order of their own, and numbers them as they are
created.  Whoever asks for all records gets them sorted by their numbers.
-/

namespace TaskFarm

instance : Hashable ExpressionId :=
  ⟨fun id => hash id.number⟩

/-- The records by the expressions they are about, and the number of the next record. -/
structure Store where
  slots : Std.HashMap ExpressionId Record
  nextSeq : Nat

/-- Something asked of a store. -/
inductive Request where
  | create (r : Record)
  | finish (id : ExpressionId) (ending : Ending)
  | get (id : ExpressionId)
  | list

/-- What a store says to a request. -/
inductive Answer where
  | created
  | finished (r : Record)
  | found (r : Option Record)
  | listed (records : List Record)
  | refused (e : LedgerError)

namespace Store

def empty : Store :=
  ⟨∅, 0⟩

/-- The record of an expression. -/
def get? (s : Store) (id : ExpressionId) : Option Record :=
  s.slots[id]?

/-- All records in the order of their creation. -/
def list (s : Store) : List Record :=
  (s.slots.toList.map Prod.snd).mergeSort fun a b => a.seq ≤ b.seq

/-- The store with a record put in the slot of an expression. -/
def put (s : Store) (id : ExpressionId) (r : Record) : Store :=
  { s with slots := s.slots.insert id r }

/-- Hand out the next number. -/
def number (s : Store) : Nat × Store :=
  (s.nextSeq, { s with nextSeq := s.nextSeq + 1 })

/-- Put a record in a vacant slot under the next number; whether it was vacant, and the store
afterwards. -/
def create (s : Store) (r : Record) : Except LedgerError Unit × Store :=
  match s.get? r.id with
  | some _ => (.error (.alreadyExists r.id), s)
  | none =>
    let (seq, s) := s.number
    (.ok (), s.put r.id { r with seq })

/-- Note how an expression ended; the record as it is now, and the store afterwards. -/
def finish (s : Store) (id : ExpressionId) (ending : Ending) : Except LedgerError Record × Store :=
  match s.get? id with
  | none => (.error (.notFound id), s)
  | some r =>
    if r.status.isTerminal then
      (.error (.alreadyFinished id), s)
    else
      let r := r.finish ending
      (.ok r, s.put id r)

/-- Do what is asked; what there is to say, and the store afterwards. -/
def answer (s : Store) : Request → Answer × Store
  | .create r =>
    match s.create r with
    | (.ok (), s) => (.created, s)
    | (.error e, s) => (.refused e, s)
  | .finish id ending =>
    match s.finish id ending with
    | (.ok r, s) => (.finished r, s)
    | (.error e, s) => (.refused e, s)
  | .get id => (.found (s.get? id), s)
  | .list => (.listed s.list, s)

/-- Everything said in a conversation, and the store afterwards. -/
def converse (s : Store) : List Request → List (Request × Answer) × Store
  | [] => ([], s)
  | q :: qs =>
    let (said, s) := s.answer q
    let (more, s) := s.converse qs
    ((q, said) :: more, s)

end Store

end TaskFarm
