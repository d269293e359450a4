import TaskFarm.Proofs.Expr.Printing
import TaskFarm.Proofs.Report.Lines
import TaskFarm.Proofs.Report.Masking
import TaskFarm.Proofs.Shell.History

/-!
# Sessions that show trees

A session may show the tree of each expression before it answers it.  Two sessions take the same
lines, one of which shows trees: they make the same reports, and but for the trees they put out the
same until the history is asked for behind a line that cannot be read.  Such a line has a record
only where no trees are shown.
-/

namespace TaskFarm.Shell

/-! ## Outputs without trees -/

def treeHeading : List Char :=
  "=== Parsed AST ===".toList

/-- The number of rows of the tree that is shown at the front of some rows: its heading, the tree
and an empty row.  It is zero if there is none. -/
def treeRows : List (List Char) → Nat
  | heading :: _ :: [] :: _ => if heading = treeHeading then 3 else 0
  | _ => 0

/-- An output with each tree deleted that is shown in it. -/
def withoutTrees (output : List Char) : List Char :=
  ['\n'].intercalate (Text.replaced treeRows [] (Text.piecesOf output))

/-- The text in which a line feed ends each of some rows. -/
def ended (rows : List (List Char)) : List Char :=
  rows.flatMap (· ++ ['\n'])

namespace Utterance

/-- The rows that an utterance puts out if it does not show a tree. -/
def answerRows : Utterance → List (List Char)
  | .value x => [(Decimal.text x).toList]
  | .entry record => [(entryText record).toList]
  | .tree _ | .failure _ _ => []

/-- All rows that an utterance puts out. -/
def rows : Utterance → List (List Char)
  | .tree arena => [treeHeading, arena.text.toList, []]
  | u => u.answerRows

theorem toList_output (u : Utterance) : u.output.toList = ended u.rows := by
  cases u with
  | tree arena =>
      have hheading : "=== Parsed AST ===\n".toList = treeHeading ++ ['\n'] := by decide
      have hgap : "\n\n".toList = ['\n', '\n'] := by decide
      change ("=== Parsed AST ===\n" ++ arena.text ++ "\n\n").toList = _
      rw [String.toList_append, String.toList_append, hheading, hgap]
      simp [rows, ended]
  | value x =>
      change (Decimal.text x ++ "\n").toList = _
      simp [rows, answerRows, ended]
  | entry record =>
      change (entryText record ++ "\n").toList = _
      simp [rows, answerRows, ended]
  | failure source cause => rfl

theorem ne_treeHeading {u : Utterance} {row : List Char} (h : row ∈ u.answerRows) :
    row ≠ treeHeading := by
  cases u with
  | tree | failure => cases h
  | value x =>
      rw [List.mem_singleton.mp h]
      intro he
      exact notMem_decimal (c := '=') (by decide) (by decide) x (by rw [he]; decide)
  | entry record =>
      rw [List.mem_singleton.mp h]
      intro he
      have hfirst : ∀ s : Status, ∃ c rest, s.text.toList = c :: rest ∧ c ≠ '=' := by
        intro s
        cases s <;> exact ⟨_, _, rfl, by decide⟩
      obtain ⟨c, rest, hc, hne⟩ := hfirst record.status
      obtain ⟨behind, hbehind⟩ : ∃ behind, (entryText record).toList = c :: behind := by
        unfold entryText
        split <;> simp [hc]
      exact hne (List.cons.inj (hbehind.symm.trans he)).1

end Utterance

theorem intercalate_newline (rows : List (List Char)) :
    ['\n'].intercalate (rows ++ [[]]) = ended rows := by
  induction rows with
  | nil => rfl
  | cons row rows ih =>
      obtain ⟨next, others, hothers⟩ : ∃ next others, rows ++ [[]] = next :: others :=
        List.exists_cons_of_ne_nil (by simp)
      rw [List.cons_append, hothers, List.intercalate_cons_cons, ← hothers, ih]
      rfl

theorem treeRows_of_ne {row : List Char} (h : row ≠ treeHeading) (rest : List (List Char)) :
    treeRows (row :: rest) = 0 := by
  unfold treeRows
  split
  · next he =>
    obtain ⟨rfl, -⟩ := List.cons.inj he
    exact if_neg h
  · rfl

theorem replaced_answerRows (u : Utterance) (rest : List (List Char)) :
    Text.replaced treeRows [] (u.answerRows ++ rest) =
      u.answerRows ++ Text.replaced treeRows [] rest :=
  Text.replaced_append fun _ hrow => treeRows_of_ne (Utterance.ne_treeHeading hrow)

/-- Of the rows of what is said, those of trees are deleted. -/
theorem replaced_rows (said : List Utterance) (rest : List (List Char)) :
    Text.replaced treeRows [] (said.flatMap Utterance.rows ++ rest) =
      said.flatMap Utterance.answerRows ++ Text.replaced treeRows [] rest := by
  induction said with
  | nil => rfl
  | cons u said ih =>
      rw [List.flatMap_cons, List.flatMap_cons, List.append_assoc, List.append_assoc, ← ih]
      cases u with
      | tree arena => exact Text.replaced_part (by simp [Utterance.rows]) rfl
      | value x => exact replaced_answerRows (.value x) _
      | entry record => exact replaced_answerRows (.entry record) _
      | failure source cause => exact replaced_answerRows (.failure source cause) _

theorem toList_join_output (said : List Utterance) :
    (String.join (said.map Utterance.output)).toList = ended (said.flatMap Utterance.rows) := by
  rw [String.toList_join, List.flatMap_map, ended, List.flatMap_assoc]
  exact List.flatMap_congr fun u _ => u.toList_output

/-- The rows that are put out, trees apart. -/
def answersOf (said : List Utterance) : List (List Char) :=
  said.flatMap Utterance.answerRows

/-- If no row is broken, what is left of an output without trees are the answers in it. -/
theorem withoutTrees_output {said : List Utterance}
    (h : ∀ u ∈ said, ∀ row ∈ u.rows, '\n' ∉ row) :
    withoutTrees (String.join (said.map Utterance.output)).toList =
      ended (answersOf said) := by
  have hrows : ∀ row ∈ said.flatMap Utterance.rows, '\n' ∉ row := by
    intro row hrow
    obtain ⟨u, hu, hrow⟩ := List.mem_flatMap.mp hrow
    exact h u hu row hrow
  rw [withoutTrees, toList_join_output, ended, Text.piecesOf_flatMap hrows, replaced_rows]
  exact intercalate_newline _

theorem ended_length_le {rows rows' : List (List Char)} (h : rows.Sublist rows') :
    (ended rows).length ≤ (ended rows').length :=
  (h.map _).flatten.length_le

/-- Rows some of which are left out make another text. -/
theorem ended_eq_iff {rows rows' : List (List Char)} (h : rows.Sublist rows') :
    ended rows = ended rows' ↔ rows = rows' := by
  refine ⟨fun he => ?_, congrArg ended⟩
  induction h with
  | slnil => rfl
  | @cons rows rows' row h ih =>
      have hle := ended_length_le h
      rw [he] at hle
      simp [ended] at hle
      omega
  | @cons_cons rows rows' row h ih =>
      exact congrArg (row :: ·) (ih (List.append_cancel_left he))

/-! ## Masked reports -/

/-- What is reported, with the names of tasks masked. -/
def maskedReports (said : List Utterance) : List Char :=
  said.flatMap fun u => Report.masked u.errorOutput.toList

theorem masked_errorOutput (said : List Utterance) :
    Report.masked (String.join (said.map Utterance.errorOutput)).toList = maskedReports said := by
  rw [String.toList_join, List.flatMap_map]
  induction said with
  | nil => rfl
  | cons u said ih =>
      rw [List.flatMap_cons, maskedReports, List.flatMap_cons, ← maskedReports, ← ih]
      cases u with
      | tree | value | entry => rfl
      | failure source cause => exact Report.masked_render_append true source cause _

/-- Outcomes that differ in the name of a task alone are put out and listed alike, and their reports
are masked to the same text. -/
theorem said_of_sameButForTask {outcome outcome' : Except FarmError Float}
    (h : SameButForTask outcome outcome') (source : String) :
    answersOf [.ofOutcome source outcome] = answersOf [.ofOutcome source outcome'] ∧
      maskedReports [.ofOutcome source outcome] = maskedReports [.ofOutcome source outcome'] ∧
      (Turn.answer source outcome).historyLine? = (Turn.answer source outcome').historyLine? := by
  rcases h with rfl | ⟨id, id', cause, rfl, rfl⟩
  · exact ⟨rfl, rfl, rfl⟩
  · have hmasked := Report.masked_render_task true source id id' cause
    refine ⟨rfl, ?_, rfl⟩
    simp only [maskedReports, List.flatMap_singleton]
    exact hmasked

/-! ## One line -/

variable {settings : Settings} {f shown plain : Farm} {line : String}

/-- What a farm lists when it is asked for its history. -/
def listed (f : Farm) : List String :=
  f.ledger.records.map entryText

/-- A line with an expression that cannot be read. -/
structure Unreadable (line : String) : Prop where
  ne_blank : Text.trim line ≠ ""
  ne_listRequest : Text.trim line ≠ listRequest
  parse_eq : ∃ cause, Expr.parse (Text.trim line) = .error cause

instance : DecidablePred Unreadable := fun line =>
  decidable_of_iff
    (Text.trim line ≠ "" ∧ Text.trim line ≠ listRequest ∧
      (Expr.parse (Text.trim line)).toOption.isNone = true) <| by
    cases hparse : Expr.parse (Text.trim line) with
    | error cause =>
        exact ⟨fun ⟨hblank, hlist, _⟩ => ⟨hblank, hlist, cause, hparse⟩,
          fun h => ⟨h.ne_blank, h.ne_listRequest, rfl⟩⟩
    | ok arena =>
        refine ⟨fun h => (Bool.false_ne_true h.2.2).elim, fun h => ?_⟩
        obtain ⟨cause, hcause⟩ := h.parse_eq
        cases hparse.symm.trans hcause

/-- Two farms that have taken the same lines, one of which shows trees: what it lists the other one
lists too. -/
structure Abreast (settings : Settings) (shown plain : Farm) : Prop where
  shown_idle : shown.Idle settings
  plain_idle : plain.Idle settings
  sublist : (listed shown).Sublist (listed plain)

/-- Two farms, one of which shows trees, take a line. -/
structure TakeAlike (settings : Settings) (shown plain : Farm) (line : String) : Prop where
  abreast : Abreast settings (takeLine true shown line).2 (takeLine false plain line).2
  reports : maskedReports (takeLine true shown line).1 = maskedReports (takeLine false plain line).1
  answers : (answersOf (takeLine true shown line).1).Sublist
    (answersOf (takeLine false plain line).1)
  answers_eq : answersOf (takeLine true shown line).1 = answersOf (takeLine false plain line).1 ↔
    (Text.trim line = listRequest → listed shown = listed plain)
  listed_eq : listed (takeLine true shown line).2 = listed (takeLine false plain line).2 ↔
    listed shown = listed plain ∧ ¬Unreadable line

theorem takeAlike_blank (h : Abreast settings shown plain) (hblank : Text.trim line = "") :
    TakeAlike settings shown plain line := by
  have hreadable : ¬Unreadable line := fun h => h.ne_blank hblank
  have hlist : Text.trim line ≠ listRequest := by
    rw [hblank]
    decide
  constructor
  all_goals rw [takeLine_blank true shown hblank, takeLine_blank false plain hblank]
  · exact h
  · simp [hlist]
  · simp [hreadable]

theorem takeAlike_listRequest (h : Abreast settings shown plain)
    (hlist : Text.trim line = listRequest) : TakeAlike settings shown plain line := by
  have hreadable : ¬Unreadable line := fun h => h.ne_listRequest hlist
  have hsilent : ∀ f : Farm, maskedReports (f.ledger.records.map .entry) = [] := fun f =>
    List.flatMap_eq_nil_iff.mpr fun u hu => by
      obtain ⟨record, -, rfl⟩ := List.mem_map.mp hu
      rfl
  have hentries : ∀ f : Farm, answersOf (f.ledger.records.map .entry) =
      (listed f).map String.toList := by
    intro f
    rw [answersOf, listed, List.flatMap_map, List.map_map]
    exact List.map_eq_flatMap.symm
  constructor
  all_goals rw [takeLine_listRequest true shown hlist, takeLine_listRequest false plain hlist]
  · exact h
  · rw [hsilent, hsilent]
  · rw [hentries, hentries]
    exact h.sublist.map _
  · rw [hentries, hentries, List.map_inj_right fun _ _ => String.toList_inj.mp]
    exact ⟨fun he _ => he, fun he => he hlist⟩
  · simp [hreadable]

/-- Where trees are shown, a line that cannot be read leaves no record behind. -/
theorem takeAlike_unreadable (h : Abreast settings shown plain) (hunreadable : Unreadable line) :
    TakeAlike settings shown plain line := by
  obtain ⟨hblank, hlist, cause, hparse⟩ := hunreadable
  obtain ⟨outcome, htells⟩ := exists_tellsOutcome h.plain_idle (Text.trim line)
  obtain rfl : outcome = .error (.ofCompileError cause) := by
    cases htells.answers with
    | unreadable hparse' =>
      cases hparse.symm.trans hparse'
      rfl
    | evaluated hparse' => cases hparse.symm.trans hparse'
  have hshown : takeLine true shown line =
      ([.failure (Text.trim line) (.ofCompileError cause)], shown) := by
    rw [(takeLine_expression shown hblank hlist).2, evaluateShown, hparse]
  have hrecorded : listed (evaluate plain (Text.trim line)).2 =
    listed plain ++ ["error  " ++ Text.trim line] := htells.recorded
  constructor
  all_goals rw [hshown, (takeLine_expression plain hblank hlist).1]
  · refine ⟨h.shown_idle, htells.idle, ?_⟩
    rw [hrecorded]
    exact h.sublist.trans (List.sublist_append_left _ _)
  · rw [htells.said]
    rfl
  · rw [htells.said]
    exact .refl _
  · rw [htells.said]
    exact ⟨fun _ he => absurd he hlist, fun _ => rfl⟩
  · have hmore := h.sublist.length_le
    have hne : listed shown ≠ listed plain ++ ["error  " ++ Text.trim line] := by
      intro he
      have hlength := congrArg List.length he
      rw [List.length_append, List.length_singleton] at hlength
      omega
    rw [hrecorded]
    simp only [hne, false_iff, not_and, not_not]
    exact fun _ => ⟨hblank, hlist, cause, hparse⟩

theorem takeAlike_readable (h : Abreast settings shown plain) (hblank : Text.trim line ≠ "")
    (hlist : Text.trim line ≠ listRequest) (hreadable : ¬Unreadable line) :
    TakeAlike settings shown plain line := by
  obtain ⟨arena, hparse⟩ : ∃ arena, Expr.parse (Text.trim line) = .ok arena := by
    cases hparse : Expr.parse (Text.trim line) with
    | ok arena => exact ⟨arena, rfl⟩
    | error cause => exact absurd ⟨hblank, hlist, cause, hparse⟩ hreadable
  obtain ⟨outcome, htells⟩ := exists_tellsOutcome h.shown_idle (Text.trim line)
  obtain ⟨outcome', htells'⟩ := exists_tellsOutcome h.plain_idle (Text.trim line)
  obtain ⟨hanswers, hreports, hlines⟩ :=
    said_of_sameButForTask (htells.answers.sameButForTask htells'.answers) (Text.trim line)
  have hshown : takeLine true shown line =
      ([.tree arena, .ofOutcome (Text.trim line) outcome],
        (evaluate shown (Text.trim line)).2) := by
    rw [(takeLine_expression shown hblank hlist).2, evaluateShown, hparse]
    simp only [htells.said]
  have hrecorded := htells.recorded
  have hrecorded' := htells'.recorded
  rw [← listed, ← listed] at hrecorded hrecorded'
  rw [hlines] at hrecorded
  constructor
  all_goals rw [hshown, (takeLine_expression plain hblank hlist).1]
  · refine ⟨htells.idle, htells'.idle, ?_⟩
    rw [hrecorded, hrecorded']
    exact h.sublist.append_right _
  · rw [htells'.said]
    exact hreports
  · rw [htells'.said, ← hanswers]
    exact .refl _
  · rw [htells'.said]
    exact ⟨fun _ he => absurd he hlist, fun _ => hanswers⟩
  · rw [hrecorded, hrecorded']
    simp [hreadable]

theorem takeAlike (h : Abreast settings shown plain) (line : String) :
    TakeAlike settings shown plain line := by
  by_cases hblank : Text.trim line = ""
  · exact takeAlike_blank h hblank
  by_cases hlist : Text.trim line = listRequest
  · exact takeAlike_listRequest h hlist
  by_cases hunreadable : Unreadable line
  · exact takeAlike_unreadable h hunreadable
  · exact takeAlike_readable h hblank hlist hunreadable

/-! ## Rows that are not broken -/

theorem unbroken_listed (h : f.Idle settings) (hbefore : ∀ entry ∈ listed f, '\n' ∉ entry.toList)
    (hline : '\n' ∉ line.toList) :
    ∀ entry ∈ listed (takeLine false f line).2, '\n' ∉ entry.toList := by
  intro entry hentry
  obtain ⟨turn, hturn⟩ := exists_takesTurn h line
  rw [listed, hturn.recorded, List.mem_append, Option.mem_toList] at hentry
  rcases hentry with hearlier | hlast
  · exact hbefore entry hearlier
  · exact hturn.suits.newline_notMem hline hlast

theorem newline_notMem_text {arena : Expr.Arena} {t : Expr.OpTree Nat} (h : arena.Shows t) :
    '\n' ∉ arena.text.toList := by
  rw [h.text_eq, String.toList_ofList]
  clear h
  induction t with
  | leaf i v => exact newline_notMem_decimal v
  | branch i op l r ihl ihr =>
      have hsymbol : '\n' ≠ op.symbol := by cases op <;> decide
      simp [Expr.OpTree.text, ihl, ihr, hsymbol]

/-- What is said of an expression is a value or a failure. -/
theorem cases_evaluate {source : String} {u : Utterance} (hu : u ∈ (evaluate f source).1) :
    (∃ x, u = .value x) ∨ ∃ cause, u = .failure source cause := by
  unfold evaluate at hu
  split at hu
  · exact .inl ⟨_, List.mem_singleton.mp hu⟩
  · exact .inr ⟨_, List.mem_singleton.mp hu⟩
  · cases hu

theorem unbroken_evaluate {source : String} {u : Utterance} (hu : u ∈ (evaluate f source).1)
    {row : List Char} (hrow : row ∈ u.rows) : '\n' ∉ row := by
  rcases cases_evaluate hu with ⟨x, rfl⟩ | ⟨cause, rfl⟩
  · rw [List.mem_singleton.mp hrow]
    exact newline_notMem_decimal x
  · cases hrow

/-- If nothing that is listed is broken, no row is broken when a line is taken. -/
theorem unbroken_takeLine (hbefore : ∀ entry ∈ listed f, '\n' ∉ entry.toList) {u : Utterance}
    (hu : u ∈ (takeLine true f line).1) {row : List Char} (hrow : row ∈ u.rows) : '\n' ∉ row := by
  by_cases hblank : Text.trim line = ""
  · rw [takeLine_blank true f hblank] at hu
    cases hu
  by_cases hlist : Text.trim line = listRequest
  · rw [takeLine_listRequest true f hlist] at hu
    obtain ⟨record, hrecord, rfl⟩ := List.mem_map.mp hu
    rw [List.mem_singleton.mp hrow]
    exact hbefore _ (List.mem_map_of_mem hrecord)
  rw [(takeLine_expression f hblank hlist).2, evaluateShown] at hu
  split at hu
  · obtain rfl := List.mem_singleton.mp hu
    cases hrow
  · next arena hparse =>
    rcases List.mem_cons.mp hu with rfl | hu
    · obtain ⟨t, ht⟩ := Expr.Arena.exists_shows_of_parse hparse
      have hheading : '\n' ∉ treeHeading := by decide
      simp only [Utterance.rows, List.mem_cons, List.not_mem_nil, or_false] at hrow
      rcases hrow with rfl | rfl | rfl
      · exact hheading
      · exact newline_notMem_text ht
      · exact List.not_mem_nil
    · exact unbroken_evaluate hu hrow

/-- A broken line does no harm if it is the last one, since nothing is listed after it. -/
theorem unbroken_takeLines {lines : List String} (h : Abreast settings shown plain)
    (hbefore : ∀ entry ∈ listed plain, '\n' ∉ entry.toList)
    (hlines : ∀ line ∈ lines.dropLast, '\n' ∉ line.toList) :
    ∀ u ∈ (takeLines true shown lines).1, ∀ row ∈ u.rows, '\n' ∉ row := by
  induction lines generalizing shown plain with
  | nil => simp [takeLines]
  | cons line rest ih =>
      intro u hu row hrow
      rw [takeLines_cons] at hu
      have hshown : ∀ entry ∈ listed shown, '\n' ∉ entry.toList :=
        fun entry hentry => hbefore entry (h.sublist.subset hentry)
      rcases List.mem_append.mp hu with hfirst | hlater
      · exact unbroken_takeLine hshown hfirst hrow
      · cases rest with
        | nil => simp [takeLines] at hlater
        | cons next rest =>
            rw [List.dropLast_cons_cons] at hlines
            have hline := hlines line List.mem_cons_self
            have hothers : ∀ other ∈ (next :: rest).dropLast, '\n' ∉ other.toList :=
              fun other hother => hlines other (List.mem_cons_of_mem line hother)
            exact ih (takeAlike h line).abreast (unbroken_listed h.plain_idle hbefore hline)
              hothers u hlater row hrow

/-! ## All lines -/

theorem maskedReports_append (said later : List Utterance) :
    maskedReports (said ++ later) = maskedReports said ++ maskedReports later :=
  List.flatMap_append

theorem answersOf_append (said later : List Utterance) :
    answersOf (said ++ later) = answersOf said ++ answersOf later :=
  List.flatMap_append

/-- No listing stands behind a line that cannot be read. -/
def ListsOnlyReadable (lines : List String) : Prop :=
  lines.Pairwise fun line later => Unreadable line → Text.trim later ≠ listRequest

instance : DecidablePred ListsOnlyReadable := fun lines =>
  inferInstanceAs (Decidable (lines.Pairwise _))

/-- Two farms, one of which shows trees, take some lines. -/
structure TakeAllAlike (shown plain : Farm) (lines : List String) : Prop where
  reports : maskedReports (takeLines true shown lines).1 =
    maskedReports (takeLines false plain lines).1
  answers : (answersOf (takeLines true shown lines).1).Sublist
    (answersOf (takeLines false plain lines).1)
  answers_eq :
    answersOf (takeLines true shown lines).1 = answersOf (takeLines false plain lines).1 ↔
      ListsOnlyReadable lines ∧
        (listed shown = listed plain ∨ ∀ line ∈ lines, Text.trim line ≠ listRequest)

theorem append_eq_iff_of_sublist {α : Type} {front front' back back' : List α}
    (hfront : front.Sublist front') (hback : back.Sublist back') :
    front ++ back = front' ++ back' ↔ front = front' ∧ back = back' := by
  constructor
  · intro he
    have hlength := congrArg List.length he
    have hle := hfront.length_le
    have hle' := hback.length_le
    rw [List.length_append, List.length_append] at hlength
    exact ⟨hfront.eq_of_length (by omega), hback.eq_of_length (by omega)⟩
  · rintro ⟨rfl, rfl⟩
    rfl

theorem takeAllAlike (h : Abreast settings shown plain) (lines : List String) :
    TakeAllAlike shown plain lines := by
  -- The farms differ from line to line, so all that the induction keeps is that they are abreast.
  induction lines generalizing shown plain with
  | nil =>
      constructor
      · rfl
      · exact .refl _
      · simp [takeLines, ListsOnlyReadable]
  | cons line rest ih =>
      obtain ⟨habreast, hreports, hanswers, hanswers_eq, hlisted_eq⟩ := takeAlike h line
      obtain ⟨hreports', hanswers', hanswers_eq'⟩ := ih habreast
      constructor
      all_goals rw [takeLines_cons, takeLines_cons]
      · rw [maskedReports_append, maskedReports_append, hreports, hreports']
      · rw [answersOf_append, answersOf_append]
        exact hanswers.append hanswers'
      · rw [answersOf_append, answersOf_append, append_eq_iff_of_sublist hanswers hanswers',
          hanswers_eq, hanswers_eq', hlisted_eq, ListsOnlyReadable, ListsOnlyReadable,
          List.pairwise_cons, List.forall_mem_cons]
        have hlater : (∀ later ∈ rest, Unreadable line → Text.trim later ≠ listRequest) ↔
            (Unreadable line → ∀ later ∈ rest, Text.trim later ≠ listRequest) :=
          ⟨fun h hline later hmem => h later hmem hline,
            fun h later hmem hline => h hline later hmem⟩
        rw [hlater]
        constructor
        · rintro ⟨hnow, hrest, ⟨hsame, hreadable⟩ | hnone⟩
          · exact ⟨⟨fun hline => absurd hline hreadable, hrest⟩, .inl hsame⟩
          · refine ⟨⟨fun _ => hnone, hrest⟩, ?_⟩
            by_cases hlist : Text.trim line = listRequest
            · exact .inl (hnow hlist)
            · exact .inr ⟨hlist, hnone⟩
        · rintro ⟨⟨hnext, hrest⟩, hsame | ⟨hlist, hnone⟩⟩
          · refine ⟨fun _ => hsame, hrest, ?_⟩
            by_cases hline : Unreadable line
            · exact .inr (hnext hline)
            · exact .inl ⟨hsame, hline⟩
          · exact ⟨fun he => absurd he hlist, hrest, .inr hnone⟩

/-! ## The program -/

/-- Where no trees are shown, all rows that are put out are answers. -/
theorem rows_takeLine (f : Farm) (line : String) :
    (takeLine false f line).1.flatMap Utterance.rows = answersOf (takeLine false f line).1 := by
  refine List.flatMap_congr fun u hu => ?_
  by_cases hblank : Text.trim line = ""
  · rw [takeLine_blank false f hblank] at hu
    cases hu
  by_cases hlist : Text.trim line = listRequest
  · rw [takeLine_listRequest false f hlist] at hu
    obtain ⟨record, -, rfl⟩ := List.mem_map.mp hu
    rfl
  rw [(takeLine_expression f hblank hlist).1] at hu
  rcases cases_evaluate hu with ⟨x, rfl⟩ | ⟨cause, rfl⟩
  · rfl
  · rfl

theorem rows_takeLines (f : Farm) (lines : List String) :
    (takeLines false f lines).1.flatMap Utterance.rows = answersOf (takeLines false f lines).1 := by
  induction lines generalizing f with
  | nil => rfl
  | cons line rest ih =>
      rw [takeLines_cons, answersOf_append, List.flatMap_append, rows_takeLine, ih]

/-- No line of the program but the last one is broken. -/
theorem unbroken_lines (a : Arguments) (input : String) :
    ∀ line ∈ (a.lines input).dropLast, '\n' ∉ line.toList := by
  intro line hline
  unfold Arguments.lines at hline
  split at hline
  · cases hline
  · obtain ⟨piece, hpiece, rfl⟩ := List.mem_map.mp (List.mem_of_mem_dropLast hline)
    simpa using newline_notMem_piecesOf hpiece

/-- Whatever the program is asked to evaluate, its reports do not depend on whether trees are shown,
but for the names of tasks.  With the trees deleted, its output at most lacks some rows, and it lacks
none just if the history is not asked for behind a line that cannot be read.  Only reports are
compared, not the lines of a log: where trees are shown, a line that cannot be read is not taken in
and nobody logs that it was rejected. -/
theorem run_debugParse {args shownArgs : List String} {a : Arguments}
    (hplain : readArguments args = .ok (.work { a with debugParse := false }))
    (hshown : readArguments shownArgs = .ok (.work { a with debugParse := true }))
    (env : String → Option String) (input : String) :
    (run shownArgs env input).code = (run args env input).code ∧
      Report.masked (run shownArgs env input).errorOutput.toList =
        Report.masked (run args env input).errorOutput.toList ∧
      (∃ rows rows', rows.Sublist rows' ∧
        withoutTrees (run shownArgs env input).output.toList = ended rows ∧
        (run args env input).output.toList = ended rows') ∧
      (withoutTrees (run shownArgs env input).output.toList = (run args env input).output.toList ↔
        ListsOnlyReadable (a.lines input)) := by
  have hidle : (openFarm (a.settings env)).Idle (a.settings env) :=
    Farm.idle_opened (count_settings a env)
  have habreast :
      Abreast (a.settings env) (openFarm (a.settings env)) (openFarm (a.settings env)) :=
    ⟨hidle, hidle, .refl _⟩
  have hempty : listed (openFarm (a.settings env)) = [] := rfl
  have hunbroken := unbroken_takeLines habreast (by simp [hempty]) (unbroken_lines a input)
  obtain ⟨hreports, hanswers, hanswers_eq⟩ := takeAllAlike habreast (a.lines input)
  have hrun : run args env input =
      .ofUtterances (takeLines false (openFarm (a.settings env)) (a.lines input)).1 := by
    rw [run, hplain]
    rfl
  have hrun' : run shownArgs env input =
      .ofUtterances (takeLines true (openFarm (a.settings env)) (a.lines input)).1 := by
    rw [run, hshown]
    rfl
  have houtput : withoutTrees (run shownArgs env input).output.toList =
      ended (answersOf (takeLines true (openFarm (a.settings env)) (a.lines input)).1) := by
    rw [hrun']
    exact withoutTrees_output hunbroken
  have houtput' : (run args env input).output.toList =
      ended (answersOf (takeLines false (openFarm (a.settings env)) (a.lines input)).1) := by
    rw [hrun, ← rows_takeLines]
    exact toList_join_output _
  refine ⟨?_, ?_, ⟨_, _, hanswers, houtput, houtput'⟩, ?_⟩
  · rw [hrun, hrun']
    rfl
  · rw [hrun, hrun']
    simp only [Transcript.ofUtterances, masked_errorOutput, hreports]
  · rw [houtput, houtput', ended_eq_iff hanswers, hanswers_eq]
    exact and_iff_left (.inl rfl)

/-- A line that cannot be read is missing from the history where trees are shown. -/
theorem run_debugParse_unreadable :
    withoutTrees (run ["--debug-parse"] (fun _ => none) "2 +\n:list\n").output.toList ≠
      (run [] (fun _ => none) "2 +\n:list\n").output.toList := by
  decide +kernel

/-- A sum, a division by zero, the history and at last a line that cannot be read. -/
theorem run_debugParse_readable :
    ∃ args shownArgs input, ∃ a : Arguments,
      readArguments args = .ok (.work { a with debugParse := false }) ∧
      readArguments shownArgs = .ok (.work { a with debugParse := true }) ∧
      ListsOnlyReadable (a.lines input) ∧
      (run shownArgs (fun _ => none) input).code = (run args (fun _ => none) input).code ∧
      Report.masked (run shownArgs (fun _ => none) input).errorOutput.toList =
        Report.masked (run args (fun _ => none) input).errorOutput.toList ∧
      withoutTrees (run shownArgs (fun _ => none) input).output.toList =
        (run args (fun _ => none) input).output.toList := by
  let a : Arguments := { numbers := [(.workers, 2)], debugParse := false, expression := none }
  have hplain : readArguments ["--workers", "2"] = .ok (.work { a with debugParse := false }) := by
    decide +kernel
  have hshown : readArguments ["--workers", "2", "--debug-parse"] =
      .ok (.work { a with debugParse := true }) := by
    decide +kernel
  have hlines : ListsOnlyReadable (a.lines "1+2\n1/0\n:list\n2*") := by
    decide +kernel
  obtain ⟨hcode, hreports, -, houtput⟩ :=
    run_debugParse hplain hshown (fun _ => none) "1+2\n1/0\n:list\n2*"
  exact ⟨_, _, _, a, hplain, hshown, hlines, hcode, hreports, houtput.mpr hlines⟩

end TaskFarm.Shell
