import TaskFarm.Expr.Printer
import TaskFarm.Proofs.Expr.Shape

/-!
# The text of a tree

The writer of an arena works through a stack of pieces.  The text of a tree says by recursion what
it writes, and three pieces for each node are enough to write all of it.
-/

namespace TaskFarm.Expr

namespace OpTree

variable {α : Type}

/-- The tree with all its parentheses. -/
def text : OpTree α → List Char
  | leaf _ v => (Decimal.text v).toList
  | branch _ op l r => '(' :: l.text ++ [' ', op.symbol, ' '] ++ r.text ++ [')']

/-- The number of pieces in which the tree is written. -/
def pieces : OpTree α → Nat
  | leaf _ _ => 1
  | branch _ _ l r => l.pieces + r.pieces + 3

/-- Each node is one piece, and each operator adds two more. -/
theorem pieces_eq (t : OpTree α) : t.pieces = t.postOrder.length + 2 * t.operators.length := by
  induction t with
  | leaf i v => rfl
  | branch i op l r ihl ihr =>
      simp only [pieces, postOrder, operators, List.length_append, List.length_singleton, ihl, ihr]
      omega

end OpTree

namespace Arena

/-- The writer comes to the end of a stack in so many pieces, and these are the characters that it
has written then. -/
inductive Writes (a : Arena) : Nat → List Unwritten → List Char → Prop where
  | done : Writes a 0 [] []
  | piece (u : Unwritten) {n : Nat} {stack : List Unwritten} {chars : List Char}
    (h : Writes a n ((a.writePiece u).2 ++ stack) chars) :
    Writes a (n + 1) (u :: stack) ((a.writePiece u).1 ++ chars)

variable {a : Arena} {t : OpTree Nat} {n : Nat} {stack : List Unwritten} {chars : List Char}

/-- A writer that comes to an end does so with any number of pieces to spare. -/
theorem Writes.write_eq (h : a.Writes n stack chars) (spare : Nat) :
    a.write (n + spare) stack = chars := by
  induction h with
  | done => cases spare <;> rfl
  | @piece u n stack chars h ih =>
      rw [Nat.add_right_comm]
      simp only [write, ih]

theorem writePiece_number {i : Nat} {v : Float} (hnode : a.node? i = some (.number v)) :
    a.writePiece (.node i) = ((Decimal.text v).toList, []) := by
  simp [writePiece, hnode]

theorem writePiece_binary {i left right : Nat} {op : Operator}
    (hnode : a.node? i = some (.binary op left right)) :
    a.writePiece (.node i) = (['('], [.node left, .operator op, .node right, .close]) := by
  simp [writePiece, hnode]

/-- On top of other pieces, a node has its whole tree written. -/
theorem writes_tree (ht : t.LiesIn a.entries) (h : a.Writes n stack chars) :
    a.Writes (t.pieces + n) (.node t.label :: stack) (t.text ++ chars) := by
  induction t generalizing n stack chars with
  | leaf i v =>
      have hpiece := writePiece_number (a := a) ht
      have hleaf : a.Writes n ((a.writePiece (.node i)).2 ++ stack) chars := by
        rw [hpiece]
        exact h
      have hall := hleaf.piece
      rw [hpiece, Nat.add_comm] at hall
      exact hall
  | branch i op l r ihl ihr =>
      obtain ⟨hnode, hl, hr⟩ := ht
      have hpiece := writePiece_binary (a := a) hnode
      -- from the bottom of the stack to its top
      have hclose : a.Writes (n + 1) (.close :: stack) (')' :: chars) := .piece .close h
      have hright := ihr hr hclose
      have hop : a.Writes _ (.operator op :: .node r.label :: .close :: stack)
          (' ' :: op.symbol :: ' ' :: (r.text ++ ')' :: chars)) := .piece (.operator op) hright
      have hleft := ihl hl hop
      have hbranch : a.Writes (l.pieces + (r.pieces + (n + 1) + 1))
          ((a.writePiece (.node i)).2 ++ stack)
          (l.text ++ ' ' :: op.symbol :: ' ' :: (r.text ++ ')' :: chars)) := by
        rw [hpiece]
        exact hleft
      have hall := hbranch.piece
      have hcount : l.pieces + (r.pieces + (n + 1) + 1) + 1 =
          (OpTree.branch i op l r).pieces + n := by
        simp only [OpTree.pieces]
        omega
      have htext : ['('] ++ (l.text ++ ' ' :: op.symbol :: ' ' :: (r.text ++ ')' :: chars)) =
          (OpTree.branch i op l r).text ++ chars := by
        simp [OpTree.text]
      rw [hpiece, hcount, htext] at hall
      exact hall

/-- The writer of an arena comes to its end, and has written the text of the tree. -/
theorem Shows.writes (h : a.Shows t) :
    a.Writes (a.size + 2 * a.operatorCount) [.node a.root] t.text := by
  have hall := writes_tree h.liesIn .done
  rw [List.append_nil, Nat.add_zero, t.pieces_eq, ← h.size_eq, ← h.operatorCount_eq, h.root_eq]
    at hall
  exact hall

theorem Shows.text_eq (h : a.Shows t) : a.text = String.ofList t.text := by
  have hle : a.operatorCount ≤ a.size := by
    rw [h.operatorCount_eq, h.size_eq]
    exact t.operators_sublist_postOrder.length_le
  obtain ⟨spare, hspare⟩ : ∃ spare, 3 * a.size = a.size + 2 * a.operatorCount + spare :=
    ⟨2 * (a.size - a.operatorCount), by omega⟩
  rw [Arena.text, hspare, h.writes.write_eq]

end Arena

end TaskFarm.Expr
