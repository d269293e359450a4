import Mathlib
import TaskFarm.Proofs.Decimal.Written
import TaskFarm.Proofs.Farm.Answers
import TaskFarm.Shell.Program

/-!
# The history that a session lists

A session takes a turn for each of its lines: it is silent, lists the history or answers an
expression.  Its main statement says that a listing shows one line for each answer given before, in
their order, and that this line repeats the value that was written out then, or tells that a failure
was.
-/

namespace TaskFarm.Shell

/-- What a session makes of a line. -/
inductive Turn where
  | silence
  | listing (entries : List String)
  | answer (source : String) (outcome : Except FarmError Float)

namespace Turn

def output : Turn → String
  | silence => ""
  | listing entries => String.join (entries.map fun entry => entry ++ "\n")
  | answer _ (.ok value) => Decimal.text value ++ "\n"
  | answer _ (.error _) => ""

def errorOutput : Turn → String
  | answer source (.error cause) => Report.render true source cause
  | _ => ""

/-- The line that the history has for a turn. -/
def historyLine? : Turn → Option String
  | answer source (.ok value) => some ("DONE  " ++ source ++ " = " ++ Decimal.text value)
  | answer source (.error _) => some ("error  " ++ source)
  | _ => none

/-- A turn is what a line asks for; an answer gives the value of the tree of the line, or the
reason why there is none. -/
inductive Suits (maxDepth : Nat) (line : String) : Turn → Prop
  | silence : Text.trim line = "" → Suits maxDepth line .silence
  | listing (entries : List String) : Text.trim line = ":list" →
      Suits maxDepth line (.listing entries)
  | answer {outcome : Except FarmError Float} : Text.trim line ≠ "" → Text.trim line ≠ ":list" →
      Answers maxDepth (Text.trim line) outcome →
      Suits maxDepth line (.answer (Text.trim line) outcome)

end Turn

/-- What is left behind after some turns. -/
def Transcript.ofTurns (turns : List Turn) : Transcript :=
  { code := 0
    output := String.join (turns.map Turn.output)
    errorOutput := String.join (turns.map Turn.errorOutput) }

/-- A session whose history had the given entries before takes turns for some lines. -/
structure KeepsHistory (maxDepth : Nat) (f : Farm) (before lines : List String)
    (turns : List Turn) : Prop where
  suits : List.Forall₂ (Turn.Suits maxDepth) lines turns
  said : ∀ k, Transcript.ofUtterances (takeLines false f (lines.take k)).1 =
    .ofTurns (turns.take k)
  /-- A listing shows what was answered before it. -/
  listed : ∀ earlier entries later, turns = earlier ++ .listing entries :: later →
    entries = before ++ earlier.filterMap Turn.historyLine?
  /-- Only answers leave records behind. -/
  recorded : ∀ k, (takeLines false f (lines.take k)).2.ledger.records.map entryText =
    before ++ (turns.take k).filterMap Turn.historyLine?
  /-- No record is left processing. -/
  ended : ∀ k, ∀ record ∈ (takeLines false f (lines.take k)).2.ledger.records,
    record.status ≠ .processing

/-! ## One line of text for each entry -/

theorem newline_notMem_piecesOf {cs piece : List Char} (h : piece ∈ Text.piecesOf cs) :
    '\n' ∉ piece := by
  fun_induction Text.piecesOf cs generalizing piece with
  | case1 =>
      rw [List.mem_singleton.mp h]
      exact List.not_mem_nil
  | case2 rest ih =>
      rcases List.mem_cons.mp h with rfl | hlater
      · exact List.not_mem_nil
      · exact ih hlater
  | case3 c rest hc ih =>
      cases hpieces : Text.piecesOf rest with
      | nil =>
          rw [hpieces] at h
          rw [List.mem_singleton.mp h]
          simpa using fun he : '\n' = c => hc he.symm
      | cons first others =>
          rw [hpieces] at h
          rcases List.mem_cons.mp h with rfl | hlater
          · have hfirst : '\n' ∉ first := ih (hpieces ▸ List.mem_cons_self)
            simpa [hfirst] using fun he : '\n' = c => hc he.symm
          · exact ih (hpieces ▸ List.mem_cons_of_mem _ hlater)

theorem mem_of_mem_trim {line : String} {c : Char} (h : c ∈ (Text.trim line).toList) :
    c ∈ line.toList := by
  rw [Text.trim, String.toList_ofList, Text.trimBlanks, List.mem_reverse] at h
  have hfront := (List.dropWhile_sublist _).mem h
  exact (List.dropWhile_sublist _).mem (List.mem_reverse.mp hfront)

/-- A number is written with digits, a point, a sign or one of the words for the other numbers. -/
theorem notMem_decimal {c : Char} (hdigit : Decimal.isDigit c = false)
    (hother : c ∉ ['-', '.', 'N', 'a', 'i', 'n', 'f']) (x : Float) :
    c ∉ (Decimal.text x).toList := by
  have hplain : ∀ {cs : List Char}, Decimal.Plain cs → c ∉ cs := by
    intro cs h hmem
    rcases h.digit_or_point hmem with hd | rfl
    · exact Bool.false_ne_true (hdigit.symm.trans hd)
    · exact hother (by decide)
  simp only [List.mem_cons, List.not_mem_nil, or_false, not_or] at hother
  rw [Decimal.text, String.toList_ofList]
  generalize Decimal.signBit x.toBits = negative
  have hsign : c ∉ (if negative then ['-'] else [] : List Char) := by
    cases negative <;> simp [hother]
  cases Decimal.Reading.ofBits x.toBits with
  | notANumber => simp [Decimal.Reading.text, hother]
  | infinite => simp [Decimal.Reading.text, hsign, hother]
  | finite magnitude =>
      simp [Decimal.Reading.text, hsign, hplain (Decimal.plain_positional _)]

theorem newline_notMem_decimal (x : Float) : '\n' ∉ (Decimal.text x).toList :=
  notMem_decimal (by decide) (by decide) x

theorem Turn.Suits.newline_notMem {maxDepth : Nat} {line : String} {turn : Turn}
    (h : turn.Suits maxDepth line) (hline : '\n' ∉ line.toList) {entry : String}
    (hentry : turn.historyLine? = some entry) : '\n' ∉ entry.toList := by
  cases h with
  | silence => cases hentry
  | listing => cases hentry
  | @answer outcome hblank hlist _ =>
      have hsource : '\n' ∉ (Text.trim line).toList := fun hmem => hline (mem_of_mem_trim hmem)
      cases outcome with
      | ok value =>
          rw [← Option.some.inj hentry]
          simp [hsource, newline_notMem_decimal]
      | error cause =>
          rw [← Option.some.inj hentry]
          simp [hsource]

/-! ## One turn -/

variable {settings : Settings} {f : Farm} {line source : String}

theorem takeLine_blank (debugParse : Bool) (f : Farm) (h : Text.trim line = "") :
    takeLine debugParse f line = ([], f) := by
  simp [takeLine, h]

theorem takeLine_listRequest (debugParse : Bool) (f : Farm) (h : Text.trim line = listRequest) :
    takeLine debugParse f line = (f.ledger.records.map .entry, f) := by
  simp [takeLine, h, listRequest]

theorem takeLine_expression (f : Farm) (hblank : Text.trim line ≠ "")
    (hlist : Text.trim line ≠ listRequest) :
    takeLine false f line = evaluate f (Text.trim line) ∧
      takeLine true f line = evaluateShown f (Text.trim line) := by
  simp [takeLine, hblank, hlist]

theorem join_append (left right : List String) :
    String.join (left ++ right) = String.join left ++ String.join right := by
  simp [String.join_eq, ← String.ofList_append]

theorem join_singleton (text : String) : String.join [text] = text := by
  simp [String.join_eq]

theorem join_map_empty {α : Type} (xs : List α) : String.join (xs.map fun _ => "") = "" := by
  simp [String.join_eq]

/-- What some turns leave behind is put together from what each of them does. -/
theorem ofUtterances_append {said others : List Utterance} {turns later : List Turn}
    (h : Transcript.ofUtterances said = .ofTurns turns)
    (hlater : Transcript.ofUtterances others = .ofTurns later) :
    Transcript.ofUtterances (said ++ others) = .ofTurns (turns ++ later) := by
  simp only [Transcript.ofUtterances, Transcript.ofTurns, Transcript.mk.injEq, true_and] at h hlater ⊢
  simp only [List.map_append, join_append, h, hlater, and_self]

/-- The history repeats the answer that its record notes. -/
theorem entryText_eq {record : Record} {outcome : Except FarmError Float}
    (hexpression : record.expression = source) (hnotes : record.Notes outcome) :
    (Turn.answer source outcome).historyLine? = some (entryText record) := by
  cases outcome with
  | ok value =>
      have hdone : Status.done.text ++ "  " = "DONE  " := by decide
      simp [Turn.historyLine?, entryText, hexpression, hnotes.1, hnotes.2, hdone]
  | error cause =>
      have hfailed : Status.error.text ++ "  " = "error  " := by decide
      simp [Turn.historyLine?, entryText, hexpression, hnotes.1, hnotes.2, hfailed]

/-- What is said of an outcome. -/
def Utterance.ofOutcome (source : String) : Except FarmError Float → Utterance
  | .ok x => .value x
  | .error cause => .failure source cause

/-- A farm says what an expression comes to, and lists it from then on. -/
structure TellsOutcome (settings : Settings) (f : Farm) (source : String)
    (outcome : Except FarmError Float) : Prop where
  said : (evaluate f source).1 = [.ofOutcome source outcome]
  answers : Answers settings.maxDepth source outcome
  idle : (evaluate f source).2.Idle settings
  recorded : (evaluate f source).2.ledger.records.map entryText =
    f.ledger.records.map entryText ++ (Turn.answer source outcome).historyLine?.toList

theorem exists_tellsOutcome (h : f.Idle settings) (source : String) :
    ∃ outcome, TellsOutcome settings f source outcome := by
  obtain ⟨outcome, f', record, hevaluate, hanswers, hidle, hrecords, hexpression, hnotes⟩ :=
    h.evaluate source
  have hevaluated : evaluate f source = ([.ofOutcome source outcome], f') := by
    rw [evaluate, hevaluate]
    cases outcome <;> rfl
  refine ⟨outcome, ?_⟩
  constructor
  · rw [hevaluated]
  · exact hanswers
  · rwa [hevaluated]
  · rw [hevaluated, hrecords, entryText_eq hexpression hnotes]
    simp

/-- A farm takes a turn. -/
structure TakesTurn (settings : Settings) (f : Farm) (line : String) (turn : Turn) : Prop where
  suits : turn.Suits settings.maxDepth line
  said : Transcript.ofUtterances (takeLine false f line).1 = .ofTurns [turn]
  listed : ∀ entries, turn = .listing entries → entries = f.ledger.records.map entryText
  idle : (takeLine false f line).2.Idle settings
  recorded : (takeLine false f line).2.ledger.records.map entryText =
    f.ledger.records.map entryText ++ turn.historyLine?.toList

theorem takesTurn_silence (h : f.Idle settings) (hblank : Text.trim line = "") :
    TakesTurn settings f line .silence := by
  have htake := takeLine_blank false f hblank
  constructor
  · exact .silence hblank
  · rw [htake]
    rfl
  · exact nofun
  · rwa [htake]
  · simp [htake, Turn.historyLine?]

theorem takesTurn_listing (h : f.Idle settings) (hlist : Text.trim line = ":list") :
    TakesTurn settings f line (.listing (f.ledger.records.map entryText)) := by
  have htake := takeLine_listRequest false f hlist
  constructor
  · exact .listing _ hlist
  · rw [htake]
    have hsilent : (f.ledger.records.map .entry).map Utterance.errorOutput =
        f.ledger.records.map fun _ => "" := by
      rw [List.map_map]
      rfl
    simp only [Transcript.ofUtterances, Transcript.ofTurns, Turn.output, Turn.errorOutput, hsilent,
      join_map_empty, join_singleton, List.map_map, List.map_cons, List.map_nil]
    rfl
  · intro entries he
    cases he
    rfl
  · rwa [htake]
  · simp [htake, Turn.historyLine?]

theorem takesTurn_answer (h : f.Idle settings) (hblank : Text.trim line ≠ "")
    (hlist : Text.trim line ≠ ":list") :
    ∃ outcome, TakesTurn settings f line (.answer (Text.trim line) outcome) := by
  obtain ⟨outcome, htells⟩ := exists_tellsOutcome h (Text.trim line)
  have htake := (takeLine_expression f hblank hlist).1
  refine ⟨outcome, ?_⟩
  constructor
  · exact .answer hblank hlist htells.answers
  · rw [htake, htells.said]
    cases outcome <;> rfl
  · exact nofun
  · rw [htake]
    exact htells.idle
  · rw [htake]
    exact htells.recorded

/-- An idle farm takes a turn for every line. -/
theorem exists_takesTurn (h : f.Idle settings) (line : String) :
    ∃ turn, TakesTurn settings f line turn := by
  by_cases hblank : Text.trim line = ""
  · exact ⟨_, takesTurn_silence h hblank⟩
  · by_cases hlist : Text.trim line = ":list"
    · exact ⟨_, takesTurn_listing h hlist⟩
    · obtain ⟨outcome, hturn⟩ := takesTurn_answer h hblank hlist
      exact ⟨_, hturn⟩

/-! ## All turns -/

theorem takeLines_cons (debugParse : Bool) (f : Farm) (line : String) (rest : List String) :
    takeLines debugParse f (line :: rest) =
      ((takeLine debugParse f line).1 ++
          (takeLines debugParse (takeLine debugParse f line).2 rest).1,
        (takeLines debugParse (takeLine debugParse f line).2 rest).2) := by
  rw [takeLines]

theorem keepsHistory_nil (h : f.Idle settings) :
    KeepsHistory settings.maxDepth f (f.ledger.records.map entryText) [] [] := by
  constructor
  · exact .nil
  · simp [takeLines, Transcript.ofUtterances, Transcript.ofTurns]
  · simp
  · simp [takeLines]
  · simpa [takeLines] using h.ended

/-- A turn in front of a session. -/
theorem TakesTurn.keepsHistory {turn : Turn} (hidle : f.Idle settings)
    (h : TakesTurn settings f line turn) {rest : List String} {turns : List Turn}
    (hrest : KeepsHistory settings.maxDepth (takeLine false f line).2
      ((takeLine false f line).2.ledger.records.map entryText) rest turns) :
    KeepsHistory settings.maxDepth f (f.ledger.records.map entryText) (line :: rest)
      (turn :: turns) := by
  obtain ⟨hsuits, hsaid, hlisted, hrecorded, hended⟩ := hrest
  rw [h.recorded] at hlisted hrecorded
  constructor
  · exact .cons h.suits hsuits
  · intro k
    cases k with
    | zero => simp [takeLines, Transcript.ofUtterances, Transcript.ofTurns]
    | succ k =>
        rw [List.take_succ_cons, List.take_succ_cons, takeLines_cons]
        exact ofUtterances_append h.said (hsaid k)
  · intro earlier entries later he
    cases earlier with
    | nil =>
        have hfirst := h.listed entries (List.cons.inj he).1
        rw [hfirst, List.filterMap_nil, List.append_nil]
    | cons first earlier =>
        obtain ⟨rfl, hothers⟩ := List.cons.inj he
        rw [hlisted earlier entries later hothers, List.append_assoc]
        cases hentry : turn.historyLine? <;> simp [hentry]
  · intro k
    cases k with
    | zero => simp [takeLines]
    | succ k =>
        rw [List.take_succ_cons, List.take_succ_cons, takeLines_cons]
        refine (hrecorded k).trans ?_
        cases hentry : turn.historyLine? <;> simp [hentry]
  · intro k
    cases k with
    | zero => simpa [takeLines] using hidle.ended
    | succ k =>
        rw [List.take_succ_cons, takeLines_cons]
        exact hended k

/-- What an idle farm says to any lines keeps to its history. -/
theorem exists_keepsHistory (h : f.Idle settings) (lines : List String) :
    ∃ turns, KeepsHistory settings.maxDepth f (f.ledger.records.map entryText) lines turns := by
  induction lines generalizing f with
  | nil => exact ⟨[], keepsHistory_nil h⟩
  | cons line rest ih =>
      obtain ⟨turn, hturn⟩ := exists_takesTurn h line
      obtain ⟨turns, hrest⟩ := ih hturn.idle
      exact ⟨turn :: turns, hturn.keepsHistory h hrest⟩

theorem KeepsHistory.exists_suits {maxDepth : Nat} {before lines : List String} {turns : List Turn}
    (h : KeepsHistory maxDepth f before lines turns) {turn : Turn} (hturn : turn ∈ turns) :
    ∃ line ∈ lines, turn.Suits maxDepth line := by
  obtain ⟨k, hk, rfl⟩ := List.getElem_of_mem hturn
  have hlt : k < lines.length := h.suits.length_eq ▸ hk
  exact ⟨lines[k], List.getElem_mem hlt, h.suits.get hlt hk⟩

/-! ## The program -/

theorem count_apply {o : NumberOption} {n : Nat} {s : Settings} (h : 0 < s.workers.count) :
    0 < (o.apply n s).workers.count := by
  cases o with
  | workers => exact Nat.lt_of_lt_of_le Nat.zero_lt_one (Nat.le_max_left 1 n)
  | addCost | subCost | mulCost | divCost | backoff => exact h

/-- There is always a worker. -/
theorem count_settings (a : Arguments) (env : String → Option String) :
    0 < (a.settings env).workers.count := by
  have hfirst : 0 < (Settings.ofLookup env).workers.count :=
    Nat.lt_of_lt_of_le Nat.zero_lt_one (Nat.le_max_left 1 _)
  rw [Arguments.settings]
  generalize Settings.ofLookup env = s at hfirst ⊢
  induction a.numbers generalizing s with
  | nil => exact hfirst
  | cons number rest ih => exact ih _ (count_apply hfirst)

/-- However the program is set up, the history that it lists between the lines of its input agrees
with what it wrote out for them: each entry is a line of its own, which stands for one earlier
answer.  The trees of expressions are not to be shown. -/
theorem run_keepsHistory {args : List String} {a : Arguments}
    (hargs : readArguments args = .ok (.work a)) (hdebug : a.debugParse = false)
    (hpiped : a.expression = none) (env : String → Option String) (input : String) :
    ∃ turns, KeepsHistory (a.settings env).maxDepth (openFarm (a.settings env)) []
        (inputLines input) turns ∧
      run args env input = .ofTurns turns ∧
      ∀ entry ∈ turns.filterMap Turn.historyLine?, '\n' ∉ entry.toList := by
  have hidle : (openFarm (a.settings env)).Idle (a.settings env) :=
    Farm.idle_opened (count_settings a env)
  obtain ⟨turns, hkeeps⟩ := exists_keepsHistory hidle (inputLines input)
  refine ⟨turns, hkeeps, ?_, ?_⟩
  · have hlines : a.lines input = inputLines input := by
      rw [Arguments.lines, hpiped]
    have hall := hkeeps.said (inputLines input).length
    rw [List.take_length, hkeeps.suits.length_eq, List.take_length] at hall
    rw [run, hargs]
    simp only [hdebug, hlines, hall]
  · intro entry hentry
    obtain ⟨turn, hturn, hentry⟩ := List.mem_filterMap.mp hentry
    obtain ⟨line, hline, hsuits⟩ := hkeeps.exists_suits hturn
    obtain ⟨piece, hpiece, rfl⟩ := List.mem_map.mp hline
    exact hsuits.newline_notMem (by simpa using newline_notMem_piecesOf hpiece) hentry

example : (run [] (fun _ => none) "1+2\n\n 1/0 \n:list\n2*\n\t:list\n").output =
    "3\nDONE  1+2 = 3\nerror  1/0\nDONE  1+2 = 3\nerror  1/0\nerror  2*\n" := by
  decide +kernel

/-- A sum, a division by zero and a text that cannot be read, with empty lines between them. -/
theorem run_keepsHistory_mixed :
    ∃ args a, readArguments args = .ok (.work a) ∧ a.debugParse = false ∧ a.expression = none ∧
      ∃ turns, KeepsHistory (a.settings fun _ => none).maxDepth (openFarm (a.settings fun _ => none))
          [] (inputLines "1+2\n\n 1/0 \n:list\n2*\n\t:list\n") turns ∧
        run args (fun _ => none) "1+2\n\n 1/0 \n:list\n2*\n\t:list\n" = .ofTurns turns ∧
        ∀ entry ∈ turns.filterMap Turn.historyLine?, '\n' ∉ entry.toList := by
  have hargs : readArguments ["--workers", "2"] = .ok (.work
      { numbers := [(.workers, 2)], debugParse := false, expression := none }) := by decide +kernel
  exact ⟨_, _, hargs, rfl, rfl, run_keepsHistory hargs rfl rfl _ _⟩

end TaskFarm.Shell
