import TaskFarm.Decimal.Numeral
import TaskFarm.Expr.CompileError
import TaskFarm.Expr.Token

/-!
# Expression trees in an arena

The nodes of a tree lie in one array, in post-order, so that a child has a smaller index than
its parent.  The tree never changes once it is built.
-/

namespace TaskFarm.Expr

/-- A node of an expression tree; children are named by their index. -/
inductive Node where
  | number (value : Float)
  | binary (op : Operator) (left right : Nat)

/-- A node and the part of the source that it covers. -/
structure Entry where
  node : Node
  span : Span

/-- An expression tree. -/
structure Arena where
  entries : Array Entry
  root : Nat

/-- A forest in the making: the nodes so far, and the roots that wait for a parent, the latest
one first. -/
structure Forest where
  entries : Array Entry
  roots : List Nat

namespace Forest

def empty : Forest :=
  ⟨#[], []⟩

/-- The place of a node; a node that is not there has none. -/
def spanAt (f : Forest) (i : Nat) : Span :=
  match f.entries[i]? with
  | some entry => entry.span
  | none => ⟨0, 0⟩

/-- The forest with one more node, which replaces the given number of roots. -/
def add (f : Forest) (node : Node) (span : Span) (below : List Nat) : Forest :=
  { entries := f.entries.push ⟨node, span⟩, roots := f.entries.size :: below }

/-- The forest after the next token of a post-order listing.  A numeral becomes a leaf; an
operator takes the latest root as its right child and the one before as its left child. -/
def grow (f : Forest) (t : Token) : Except CompileError Forest :=
  match t.kind with
  | .numeral text =>
    match Decimal.parse? text with
    | some value => .ok (f.add (.number value) t.span f.roots)
    | none => .error (.malformedToken text t.span)
  | .operator op =>
    match f.roots with
    | right :: left :: below =>
      .ok (f.add (.binary op left right) ((f.spanAt left).join (f.spanAt right)) below)
    | _ => .error (.malformed (.missingOperand op) t.span)
  | .openParen | .closeParen => .error (.malformed .parenthesis t.span)

/-- The tree of a finished forest, which has exactly one root. -/
def toArena (f : Forest) : Except CompileError Arena :=
  match f.roots with
  | [root] => .ok ⟨f.entries, root⟩
  | [] => .error (.malformed .empty ⟨0, 0⟩)
  | last :: others =>
    let second := (last :: others).getD (others.length - 1) last
    .error (.malformed (.unjoined f.roots.length) ((f.spanAt second).join (f.spanAt last)))

end Forest

namespace Arena

/-- The tree whose post-order listing is the given token list. -/
def ofPostOrder (tokens : List Token) : Except CompileError Arena :=
  (tokens.foldlM Forest.grow Forest.empty).bind Forest.toArena

def node? (a : Arena) (i : Nat) : Option Node :=
  a.entries[i]?.map Entry.node

def span? (a : Arena) (i : Nat) : Option Span :=
  a.entries[i]?.map Entry.span

def size (a : Arena) : Nat :=
  a.entries.size

def Entry.isOperator (e : Entry) : Bool :=
  match e.node with
  | .number _ => false
  | .binary _ _ _ => true

/-- The number of operators, which is the number of tasks that an evaluation hands out. -/
def operatorCount (a : Arena) : Nat :=
  a.entries.countP Entry.isOperator

/-- The height of the next node, given the heights of all nodes before it. -/
def heightAfter (heights : Array Nat) (e : Entry) : Nat :=
  match e.node with
  | .number _ => 1
  | .binary _ left right => 1 + max (heights.getD left 0) (heights.getD right 0)

/-- The heights of all nodes.  Children come before their parents, so one pass suffices. -/
def heights (a : Arena) : Array Nat :=
  a.entries.foldl (fun found e => found.push (heightAfter found e)) #[]

/-- The height of the tree; a single number has height one. -/
def depth (a : Arena) : Nat :=
  a.heights.getD a.root 0

end Arena

end TaskFarm.Expr
