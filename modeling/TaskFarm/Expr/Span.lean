/-!
# Spans

Places in a source text are counted in bytes of its UTF-8 form.  A span is a half-open range
of such places; slicing by it succeeds exactly when both ends lie on character boundaries of
the text and do not cross.
-/

namespace TaskFarm.Expr

/-- A half-open range of byte offsets. -/
structure Span where
  start : Nat
  stop : Nat
  deriving DecidableEq, Repr, Inhabited

namespace Span

/-- The span from the start of `a` to the end of `b`. -/
def join (a b : Span) : Span :=
  ⟨a.start, b.stop⟩

def shift (bytes : Nat) (s : Span) : Span :=
  ⟨s.start + bytes, s.stop + bytes⟩

end Span

/-- The number of bytes that characters take in UTF-8. -/
def byteLength : List Char → Nat
  | [] => 0
  | c :: cs => c.utf8Size + byteLength cs

@[simp] theorem byteLength_nil : byteLength [] = 0 := rfl

@[simp] theorem byteLength_cons (c : Char) (cs : List Char) :
    byteLength (c :: cs) = c.utf8Size + byteLength cs := rfl

/-- The text split at a byte offset, unless the offset is inside a character or past the end. -/
def splitAtByte? : Nat → List Char → Option (List Char × List Char)
  | 0, cs => some ([], cs)
  | _ + 1, [] => none
  | offset + 1, c :: cs =>
    if c.utf8Size ≤ offset + 1 then
      (splitAtByte? (offset + 1 - c.utf8Size) cs).map fun parts => (c :: parts.1, parts.2)
    else
      none

/-- The text under a span, if the span fits the source. -/
def Span.slice? (s : Span) (source : List Char) : Option (List Char) :=
  if s.start ≤ s.stop then
    (splitAtByte? s.start source).bind fun parts =>
      (splitAtByte? (s.stop - s.start) parts.2).map Prod.fst
  else
    none

end TaskFarm.Expr
