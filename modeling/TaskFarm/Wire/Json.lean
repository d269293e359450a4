/-!
# JSON values

The data that tasks, results and records are exchanged in.  Numbers keep the kind in which they
were written: a natural number, a negative integer, or a number with a fraction or an exponent.
The fields of an object keep their order.
-/

namespace TaskFarm.Wire

inductive Json where
  | null
  | boolean (value : Bool)
  | natural (value : Nat)
  /-- The integer `-value`. -/
  | negative (value : Nat)
  | float (value : Float)
  | string (value : String)
  | array (items : List Json)
  | object (fields : List (String × Json))
  deriving Inhabited

namespace Json

/-- The value of a field; the last one wins if a name is repeated. -/
def field? (fields : List (String × Json)) (name : String) : Option Json :=
  (fields.reverse.find? fun entry => entry.1 == name).map Prod.snd

/-- The value of a field of an object; other values have no fields. -/
def get? (j : Json) (name : String) : Option Json :=
  match j with
  | .object fields => field? fields name
  | _ => none

end Json

end TaskFarm.Wire
