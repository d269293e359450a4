import TaskFarm.Proofs.Expr.Cutting

/-!
# White space between two texts

White space ends the numeral before it and is no place for a sign.  So what a scan finds in two
texts with white space between them is what it finds in the first one, followed by what it finds in
the second one, unless this begins with a minus: by itself that is a sign, and behind white space an
operator.
-/

namespace TaskFarm.Expr

/-- What is found first, with what is found behind it; the first error counts. -/
def followedBy (first second : Except CompileError (List Token)) :
    Except CompileError (List Token) :=
  first.bind fun tokens => prepend tokens second

variable {first second : Except CompileError (List Token)}

@[simp] theorem followedBy_ok (tokens : List Token) :
    followedBy (.ok tokens) second = prepend tokens second := rfl

@[simp] theorem followedBy_error (e : CompileError) :
    followedBy (.error e) second = .error e := rfl

/-- Tokens that are put in front of all come before those that were found first. -/
theorem map_followedBy {f : List Token → List Token}
    (h : ∀ tokens later, f (tokens ++ later) = f tokens ++ later) :
    (followedBy first second).map f = followedBy (first.map f) second := by
  cases first with
  | error e => rfl
  | ok tokens =>
      cases second with
      | error e => rfl
      | ok later => exact congrArg Except.ok (h tokens later)

/-- A blank parts what a scan finds before it from what it finds behind it. -/
theorem scanFrom_append_blank {b : Char} (hb : Text.isBlank b = true) (rest : List Char)
    (offset : Nat) (previous : Option Char) (collected : Option Collected) (cs : List Char) :
    scanFrom offset previous collected (cs ++ b :: rest) =
      followedBy (scanFrom offset previous collected cs)
        (scanFrom (offset + byteLength (cs ++ [b])) (some b) none rest) := by
  induction cs generalizing offset previous collected with
  | nil =>
      simp only [List.nil_append, scanFrom, role_blank hb, followedBy_ok, byteLength_cons,
        byteLength_nil, Nat.add_zero]
      rfl
  | cons c cs ih =>
      have hoffset : offset + byteLength (c :: cs ++ [b]) =
          offset + c.utf8Size + byteLength (cs ++ [b]) := by
        simp only [List.cons_append, byteLength_cons, Nat.add_assoc]
      rw [List.cons_append, hoffset]
      cases hrole : CharRole.of previous c with
      | blank =>
          simp only [scanFrom, hrole, ih]
          exact map_followedBy fun tokens later => by simp
      | digit => simp only [scanFrom, hrole, ih]
      | sign =>
          simp only [scanFrom, hrole, ih]
          exact map_followedBy fun tokens later => by simp
      | operator op =>
          simp only [scanFrom, hrole, ih]
          exact map_followedBy fun tokens later => by simp
      | paren kind =>
          simp only [scanFrom, hrole, ih]
          exact map_followedBy fun tokens later => by simp
      | invalid => simp only [scanFrom, hrole, followedBy_error]

theorem scanBehind_append_blank {b : Char} (hb : Text.isBlank b = true)
    (before cs rest : List Char) :
    scanBehind before (cs ++ b :: rest) =
      followedBy (scanBehind before cs) (scanBehind (before ++ (cs ++ [b])) rest) := by
  have hprevious : (before ++ (cs ++ [b])).getLast? = some b := by
    rw [← List.append_assoc, List.getLast?_concat]
  rw [scanBehind, scanFrom_append_blank hb, scanBehind, scanBehind, hprevious,
    byteLength_append before]

/-- A scan finds nothing in white space. -/
theorem scanBehind_gap {gap : List Char} (hgap : ∀ c ∈ gap, Text.isBlank c = true)
    (before rest : List Char) :
    scanBehind before (gap ++ rest) = scanBehind (before ++ gap) rest := by
  induction gap generalizing before with
  | nil => rw [List.nil_append, List.append_nil]
  | cons c gap ih =>
      have hrest := ih (fun d hd => hgap d (List.mem_cons_of_mem c hd)) (before ++ [c])
      rw [List.cons_append, scanBehind_blank (hgap c List.mem_cons_self), hrest, List.append_assoc,
        List.singleton_append]

/-- White space between two texts parts their tokens.  All places of the second text are further
behind by what stands in front of it, that of its error too, which counts if the first text has
none. -/
theorem tokenize_spaced {left gap right : String} (hgap : gap ≠ "")
    (hblank : ∀ c ∈ gap.toList, Text.isBlank c = true) (hminus : right.toList.head? ≠ some '-') :
    tokenize (left ++ gap ++ right) =
      followedBy (tokenize left) (moved (byteLength (left ++ gap).toList) (tokenize right)) := by
  obtain ⟨b, blanks, hsplit⟩ : ∃ b blanks, gap.toList = b :: blanks :=
    List.exists_cons_of_ne_nil fun hnil => hgap (String.toList_eq_nil_iff.mp hnil)
  have hb : Text.isBlank b = true := hblank b (by simp [hsplit])
  have hblanks : ∀ c ∈ blanks, Text.isBlank c = true := fun c hc => hblank c (by simp [hsplit, hc])
  have hfront : (left ++ gap).toList = left.toList ++ [b] ++ blanks := by
    simp [hsplit]
  have hright : scanBehind (left ++ gap).toList right.toList =
      moved (byteLength (left ++ gap).toList) (scanBehind [] right.toList) :=
    scanBehind_eq_moved fun hhead => absurd hhead hminus
  calc
    tokenize (left ++ gap ++ right)
      = scanBehind [] (left.toList ++ b :: (blanks ++ right.toList)) := by
        rw [tokenize_eq_scanBehind, String.toList_append, hfront]
        simp
    _ = followedBy (scanBehind [] left.toList)
          (scanBehind (left.toList ++ [b]) (blanks ++ right.toList)) :=
        scanBehind_append_blank hb [] left.toList _
    _ = followedBy (scanBehind [] left.toList) (scanBehind (left ++ gap).toList right.toList) := by
        rw [scanBehind_gap hblanks, hfront]
    _ = followedBy (tokenize left) (moved (byteLength (left ++ gap).toList) (tokenize right)) := by
        rw [hright, tokenize_eq_scanBehind, tokenize_eq_scanBehind]

/-- Two blanks, one of them of two bytes, between an unfinished numeral and a text with an invalid
character. -/
theorem tokenize_spaced_invalid :
    "\u00a0\t" ≠ "" ∧ (∀ c ∈ "\u00a0\t".toList, Text.isBlank c = true) ∧
      "(x".toList.head? ≠ some '-' ∧
      tokenize ("2*-3." ++ "\u00a0\t" ++ "(x") =
        followedBy (tokenize "2*-3.") (moved 8 (tokenize "(x")) ∧
      tokenize ("2*-3." ++ "\u00a0\t" ++ "(x") = .error (.invalidCharacter 'x' ⟨9, 10⟩) := by
  have hgap : "\u00a0\t" ≠ "" := by decide
  have hblank : ∀ c ∈ "\u00a0\t".toList, Text.isBlank c = true := List.all_eq_true.mp (by decide)
  have hminus : "(x".toList.head? ≠ some '-' := by decide
  have hspaced : tokenize ("2*-3." ++ "\u00a0\t" ++ "(x") =
      followedBy (tokenize "2*-3.") (moved 8 (tokenize "(x")) :=
    tokenize_spaced hgap hblank hminus
  refine ⟨hgap, hblank, hminus, hspaced, ?_⟩
  rw [hspaced]
  decide +kernel

end TaskFarm.Expr
