import TaskFarm.Expr.Operator

/-!
# The cost of operations

Every operator has a cost in milliseconds, which the tasks made from it carry as their duration.
-/

namespace TaskFarm

open TaskFarm.Expr (Operator)

/-- The cost of each operator, in milliseconds. -/
structure CostTable where
  add : Nat
  sub : Nat
  mul : Nat
  div : Nat
  deriving DecidableEq, Repr

namespace CostTable

def uniform (cost : Nat) : CostTable :=
  ⟨cost, cost, cost, cost⟩

/-- Ten milliseconds for every operator. -/
def standard : CostTable :=
  uniform 10

def of (costs : CostTable) : Operator → Nat
  | .add => costs.add
  | .sub => costs.sub
  | .mul => costs.mul
  | .div => costs.div

end CostTable

end TaskFarm
