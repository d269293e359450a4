/-!
# White space and lines

The characters with the property `White_Space`, twenty-five of them, and the text left when
they are cut off at both ends.

Some of them end lines.  A line ends after CR LF, or after one of CR, LF, VT, FF, U+0085, U+2028
and U+2029, which stay part of the line.  The lines of a text join to the text again, and a
terminator at the very end starts no further line.  Input that is read line by line is cut at its
line feeds alone.
-/

namespace TaskFarm.Text

/-- The closed ranges of code points with the property `White_Space`. -/
def blankRanges : List (Nat × Nat) :=
  [(0x09, 0x0D), (0x20, 0x20), (0x85, 0x85), (0xA0, 0xA0), (0x1680, 0x1680), (0x2000, 0x200A),
    (0x2028, 0x2029), (0x202F, 0x202F), (0x205F, 0x205F), (0x3000, 0x3000)]

/-- The code point lies in one of the ranges. -/
def inRanges (ranges : List (Nat × Nat)) (code : Nat) : Bool :=
  ranges.any fun range => range.1 ≤ code && code ≤ range.2

def isBlank (c : Char) : Bool :=
  inRanges blankRanges c.toNat

/-- The characters left when white space is cut off at both ends. -/
def trimBlanks (cs : List Char) : List Char :=
  (((cs.dropWhile isBlank).reverse).dropWhile isBlank).reverse

/-- The text left when white space is cut off at both ends. -/
def trim (text : String) : String :=
  String.ofList (trimBlanks text.toList)

def isLineEnd (c : Char) : Bool :=
  (0x0A ≤ c.toNat && c.toNat ≤ 0x0D) || c.toNat == 0x85 || c.toNat == 0x2028 || c.toNat == 0x2029

/-- Put a character in front of the first line of a list of lines. -/
def consLine (c : Char) : List (List Char) → List (List Char)
  | [] => [[c]]
  | line :: lines => (c :: line) :: lines

/-- The lines of a text, each with its terminator; the empty text has none. -/
def linesOf : List Char → List (List Char)
  | [] => []
  | '\r' :: '\n' :: rest => ['\r', '\n'] :: linesOf rest
  | c :: rest => if isLineEnd c then [c] :: linesOf rest else consLine c (linesOf rest)

/-- The pieces of a text between its line feeds, which belong to none of them. -/
def piecesOf : List Char → List (List Char)
  | [] => [[]]
  | '\n' :: rest => [] :: piecesOf rest
  | c :: rest => consLine c (piecesOf rest)

/-- Joining the lines of a text gives the text back. -/
theorem flatten_linesOf (cs : List Char) : (linesOf cs).flatten = cs := by
  fun_induction linesOf cs with
  | case1 => rfl
  | case2 rest ih => simp [ih]
  | case3 c rest _ _ ih => simp [ih]
  | case4 c rest _ _ ih =>
    cases hlines : linesOf rest with
    | nil => simp [consLine, hlines] at ih ⊢; exact ih
    | cons line lines => simp [consLine, hlines] at ih ⊢; exact ih

end TaskFarm.Text
