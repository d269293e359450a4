import Mathlib.Algebra.Group.Nat.Defs
import Mathlib.Data.List.DropRight
import Mathlib.Data.Nat.Digits.Defs
import TaskFarm.Proofs.Expr.Lexeme
import TaskFarm.Settings

/-!
# What settings are taken from

Six settings are looked up, each under a name of its own.  A text says a number with decimal digits,
which may have a plus sign in front of them and white space around all; where it does, this is the
setting, if it is not below the least one, and where it says none, the setting is the standard one.
However often the number of workers is changed then, there is a worker, and the queue has room for
four tasks of each, as far as 64 bits can tell.
-/

namespace TaskFarm

/-! ## White space around a text -/

namespace Text

/-- Only white space is cut off. -/
theorem exists_trimBlanks (cs : List Char) :
    ∃ before after, cs = before ++ trimBlanks cs ++ after ∧
      ∀ c ∈ before ++ after, isBlank c = true := by
  refine ⟨cs.takeWhile isBlank, (cs.dropWhile isBlank).rtakeWhile isBlank, ?_, fun c hc => ?_⟩
  · have hback : trimBlanks cs ++ (cs.dropWhile isBlank).rtakeWhile isBlank =
        cs.dropWhile isBlank := List.rdropWhile_append_rtakeWhile
    rw [List.append_assoc, hback, List.takeWhile_append_dropWhile]
  · rcases List.mem_append.mp hc with hc | hc
    · exact List.mem_takeWhile_imp hc
    · exact List.mem_rtakeWhile_imp hc

/-- White space around characters that are not blank is cut off. -/
theorem trimBlanks_append {before core after : List Char} (hne : core ≠ [])
    (hcore : ∀ c ∈ core, isBlank c = false) (hblank : ∀ c ∈ before ++ after, isBlank c = true) :
    trimBlanks (before ++ core ++ after) = core := by
  have hkeep : ∀ cs rest : List Char, cs ≠ [] → (∀ c ∈ cs, isBlank c = false) →
      (cs ++ rest).dropWhile isBlank = cs ++ rest := by
    intro cs rest hcs hall
    obtain ⟨c, cs, rfl⟩ := List.exists_cons_of_ne_nil hcs
    exact List.dropWhile_cons_of_neg (by simp [hall c])
  have hfront : (before ++ core ++ after).dropWhile isBlank = core ++ after := by
    rw [List.append_assoc, List.dropWhile_append_of_pos fun c hc => hblank c (by simp [hc]),
      hkeep core after hne hcore]
  have hback : (core ++ after).reverse.dropWhile isBlank = core.reverse := by
    have hrest := hkeep core.reverse [] (by simpa using hne) (by simpa using hcore)
    rw [List.append_nil] at hrest
    rw [List.reverse_append,
      List.dropWhile_append_of_pos fun c hc => hblank c (by simp [List.mem_reverse.mp hc]), hrest]
  rw [trimBlanks, hfront, hback, List.reverse_reverse]

end Text

namespace Settings

/-! ## Numbers in texts -/

/-- Decimal digits, and the number that they write. -/
structure Writes (digits : List Char) (value : Nat) : Prop where
  nonempty : digits ≠ []
  inRange : ∀ c ∈ digits, '0' ≤ c ∧ c ≤ '9'
  value_eq : value = Nat.ofDigits 10 (digits.reverse.map fun c => c.toNat - '0'.toNat)

/-- A text says a number of 64 bits: digits, behind a plus sign or not, between white space. -/
def Says (text : String) (value : Nat) : Prop :=
  value < 2 ^ 64 ∧ ∃ before sign digits after : List Char,
    text.toList = before ++ (sign ++ digits) ++ after ∧
    (∀ c ∈ before ++ after, Text.isBlank c = true) ∧ (sign = [] ∨ sign = ['+']) ∧
    Writes digits value

/-- Reading digits from the left gives the sum of their places. -/
theorem digitsValue_eq_ofDigits (digits : List Char) :
    Decimal.digitsValue digits =
      Nat.ofDigits 10 (digits.reverse.map fun c => c.toNat - '0'.toNat) := by
  induction digits using List.reverseRecOn with
  | nil => rfl
  | append_singleton digits c ih =>
      rw [List.reverse_append, List.reverse_singleton, List.singleton_append, List.map_cons,
        Nat.ofDigits_cons, ← ih, Decimal.digitsValue, List.foldl_append, List.foldl_cons,
        List.foldl_nil, Nat.add_comm]
      rfl

theorem writes_iff {digits : List Char} {value : Nat} :
    Writes digits value ↔ (!digits.isEmpty && digits.all Decimal.isDigit) = true ∧
      Decimal.digitsValue digits = value := by
  have hdigit : ∀ c, Decimal.isDigit c = true ↔ '0' ≤ c ∧ c ≤ '9' := by simp [Decimal.isDigit]
  simp only [Bool.and_eq_true, Bool.not_eq_true', List.isEmpty_eq_false_iff, List.all_eq_true,
    hdigit]
  constructor
  · rintro ⟨hne, hrange, rfl⟩
    exact ⟨⟨hne, hrange⟩, digitsValue_eq_ofDigits digits⟩
  · rintro ⟨⟨hne, hrange⟩, rfl⟩
    exact ⟨hne, hrange, digitsValue_eq_ofDigits digits⟩

theorem word?_eq_some_iff {cs : List Char} {value : Nat} :
    word? cs = some value ↔ value < 2 ^ 64 ∧
      ∃ sign digits, cs = sign ++ digits ∧ (sign = [] ∨ sign = ['+']) ∧ Writes digits value := by
  have hfits : value ≤ maxWord ↔ value < 2 ^ 64 := by
    have hmax : maxWord + 1 = 2 ^ 64 := by decide
    omega
  -- once the sign is off, digits and their number are left
  have hdigits : ∀ digits : List Char, (if (!digits.isEmpty && digits.all Decimal.isDigit) = true
      then if Decimal.digitsValue digits ≤ maxWord then some (Decimal.digitsValue digits) else none
      else none) = some value ↔ value < 2 ^ 64 ∧ Writes digits value := by
    intro digits
    rw [writes_iff, ← hfits]
    constructor
    · intro h
      split at h
      · next hform =>
        split at h
        · next hle => exact Option.some.inj h ▸ ⟨hle, hform, rfl⟩
        · cases h
      · cases h
    · rintro ⟨hle, hform, rfl⟩
      rw [if_pos hform, if_pos hle]
  unfold word?
  split
  · next rest =>
    rw [hdigits]
    constructor
    · rintro ⟨hlt, hwrites⟩
      exact ⟨hlt, ['+'], rest, rfl, .inr rfl, hwrites⟩
    · rintro ⟨hlt, sign, digits, hsplit, rfl | rfl, hwrites⟩
      · obtain rfl : '+' :: rest = digits := hsplit
        exact absurd (hwrites.inRange '+' List.mem_cons_self) (by decide)
      · obtain ⟨-, rfl⟩ := List.cons.inj hsplit
        exact ⟨hlt, hwrites⟩
  · next hplus =>
    rw [hdigits]
    constructor
    · rintro ⟨hlt, hwrites⟩
      exact ⟨hlt, [], cs, rfl, .inl rfl, hwrites⟩
    · rintro ⟨hlt, sign, digits, rfl, rfl | rfl, hwrites⟩
      · exact ⟨hlt, hwrites⟩
      · exact absurd rfl (hplus digits)

theorem number?_eq_some_iff {text : String} {value : Nat} :
    number? text = some value ↔ Says text value := by
  rw [number?, word?_eq_some_iff]
  constructor
  · rintro ⟨hlt, sign, digits, hcore, hsign, hwrites⟩
    obtain ⟨before, after, hsplit, hblank⟩ := Text.exists_trimBlanks text.toList
    rw [hcore] at hsplit
    exact ⟨hlt, before, sign, digits, after, hsplit, hblank, hsign, hwrites⟩
  · rintro ⟨hlt, before, sign, digits, after, hsplit, hblank, hsign, hwrites⟩
    refine ⟨hlt, sign, digits, ?_, hsign, hwrites⟩
    rw [hsplit]
    refine Text.trimBlanks_append ?_ ?_ hblank
    · simp [hwrites.nonempty]
    · intro c hc
      rcases List.mem_append.mp hc with hc | hc
      · rcases hsign with rfl | rfl
        · cases hc
        · rw [List.mem_singleton.mp hc]
          decide
      · have hdigit : Decimal.isDigit c = true := by
          simpa [Decimal.isDigit] using hwrites.inRange c hc
        exact Expr.isBlank_eq_false_of_numeralChar (by simp [Expr.numeralChar, hdigit])

/-! ## Settings that are looked up -/

/-- What can be set by a text. -/
inductive Setting where
  | addCost
  | subCost
  | mulCost
  | divCost
  | workers
  | backoff
  deriving DecidableEq, Repr

namespace Setting

/-- The name under which the text of a setting is looked up. -/
def name : Setting → String
  | addCost => "TIME_ADDITION_MS"
  | subCost => "TIME_SUBTRACTION_MS"
  | mulCost => "TIME_MULTIPLICATIONS_MS"
  | divCost => "TIME_DIVISIONS_MS"
  | workers => "COMPUTING_POWER"
  | backoff => "WORKER_BACKOFF_MS"

/-- The least number that a setting can be. -/
def least : Setting → Nat
  | workers | backoff => 1
  | addCost | subCost | mulCost | divCost => 0

/-- What is set. -/
def of (s : Settings) : Setting → Nat
  | addCost => s.costs.add
  | subCost => s.costs.sub
  | mulCost => s.costs.mul
  | divCost => s.costs.div
  | workers => s.workers.count
  | backoff => s.workers.backoff

end Setting

/-- A setting is what the text says that was found for it, and else the standard one. -/
structure TakenFrom (text? : Option String) (least standard setting : Nat) : Prop where
  said : ∀ text value, text? = some text → Says text value → setting = max least value
  unsaid : (∀ text value, text? = some text → ¬Says text value) → setting = standard

theorem takenFrom_getD (text? : Option String) (least standard : Nat) :
    TakenFrom text? least standard (((text?.bind number?).map (max least)).getD standard) := by
  constructor
  · rintro text value rfl hsays
    simp [number?_eq_some_iff.mpr hsays]
  · intro hunsaid
    cases hvalue : text?.bind number? with
    | none => rfl
    | some value =>
        obtain ⟨text, htext, hnumber⟩ := Option.bind_eq_some_iff.mp hvalue
        exact absurd (number?_eq_some_iff.mp hnumber) (hunsaid text value htext)

/-- All six settings are looked up in the same way. -/
theorem of_ofLookup (env : String → Option String) (x : Setting) :
    x.of (ofLookup env) =
      (((env x.name).bind number?).map (max x.least)).getD (x.of standard) := by
  have hcost : ∀ (value? : Option Nat) (cost : Nat),
      (value?.map (max 0)).getD cost = value?.getD cost := by
    intro value? cost
    cases value? <;> simp
  cases x with
  | addCost => exact (hcost _ _).symm
  | subCost => exact (hcost _ _).symm
  | mulCost => exact (hcost _ _).symm
  | divCost => exact (hcost _ _).symm
  | workers =>
      change max 1 (((env "COMPUTING_POWER").bind number?).getD 1) =
        (((env "COMPUTING_POWER").bind number?).map (max 1)).getD 1
      cases (env "COMPUTING_POWER").bind number? <;> rfl
  | backoff => rfl

/-! ## Changing the number of workers -/

/-- There is a worker, and the queue has room for four tasks of each, up to the greatest number of
64 bits. -/
structure Proportional (s : Settings) : Prop where
  staffed : 1 ≤ s.workers.count
  capacity_eq : s.queue.capacity = min (4 * s.workers.count) (2 ^ 64 - 1)
  roomy : 4 ≤ s.queue.capacity

theorem capacity_forWorkers {count : Nat} (h : 1 ≤ count) :
    (QueueSettings.forWorkers count).capacity = min (4 * count) (2 ^ 64 - 1) ∧
      4 ≤ (QueueSettings.forWorkers count).capacity := by
  have hmax : maxWord = 2 ^ 64 - 1 := by decide
  simp only [QueueSettings.forWorkers, slotsPerWorker, hmax]
  omega

theorem proportional_ofLookup (env : String → Option String) : (ofLookup env).Proportional := by
  have hstaffed : 1 ≤ (ofLookup env).workers.count := Nat.le_max_left ..
  obtain ⟨hcapacity, hroomy⟩ := capacity_forWorkers hstaffed
  exact ⟨hstaffed, hcapacity, hroomy⟩

/-- The settings differ from others in no more than the number of workers and the room in the
queue. -/
structure Resizes (s resized : Settings) : Prop where
  costs_eq : resized.costs = s.costs
  backoff_eq : resized.workers.backoff = s.workers.backoff
  fetchTimeout_eq : resized.queue.fetchTimeout = s.queue.fetchTimeout
  maxDepth_eq : resized.maxDepth = s.maxDepth

variable {s t : Settings}

theorem proportional_withWorkers (s : Settings) (count : Nat) :
    (s.withWorkers count).Proportional := by
  have hstaffed : 1 ≤ max 1 count := Nat.le_max_left ..
  obtain ⟨hcapacity, hroomy⟩ := capacity_forWorkers hstaffed
  exact ⟨hstaffed, hcapacity, hroomy⟩

theorem Resizes.withWorkers (h : s.Resizes t) (count : Nat) : s.Resizes (t.withWorkers count) :=
  ⟨h.costs_eq, h.backoff_eq, h.fetchTimeout_eq, h.maxDepth_eq⟩

/-- Only the last number counts. -/
theorem foldl_withWorkers (hs : s.Proportional) (counts : List Nat) :
    (counts.foldl withWorkers s).Proportional ∧ s.Resizes (counts.foldl withWorkers s) ∧
      (counts.foldl withWorkers s).workers.count =
        (counts.getLast?.map (max 1)).getD s.workers.count := by
  induction counts using List.reverseRecOn with
  | nil => exact ⟨hs, ⟨rfl, rfl, rfl, rfl⟩, rfl⟩
  | append_singleton counts count ih =>
      rw [List.foldl_append, List.foldl_cons, List.foldl_nil, List.getLast?_concat]
      exact ⟨proportional_withWorkers _ count, ih.2.1.withWorkers count, rfl⟩

/-- Whatever is looked up, each of the six settings is what the text under its own name says, or the
standard one, and no other text matters to it.  Any changes of the number of workers leave a worker,
a queue in proportion, and all other settings as they are. -/
theorem ofLookup_takenFrom (env : String → Option String) :
    (∀ x : Setting, TakenFrom (env x.name) x.least (x.of standard) (x.of (ofLookup env)) ∧
      ∀ env' : String → Option String, env' x.name = env x.name →
        x.of (ofLookup env') = x.of (ofLookup env)) ∧
    ∀ counts : List Nat, (counts.foldl withWorkers (ofLookup env)).Proportional ∧
      (ofLookup env).Resizes (counts.foldl withWorkers (ofLookup env)) ∧
      (counts.foldl withWorkers (ofLookup env)).workers.count =
        (counts.getLast?.map (max 1)).getD (ofLookup env).workers.count := by
  refine ⟨fun x => ⟨?_, fun env' henv => ?_⟩, foldl_withWorkers (proportional_ofLookup env)⟩
  · rw [of_ofLookup]
    exact takenFrom_getD _ _ _
  · rw [of_ofLookup, of_ofLookup, henv]

example : Setting.workers.of (ofLookup fun name =>
    if name = "COMPUTING_POWER" then some "\u3000+0012\t" else some "1 2") = 12 := by
  decide +kernel

end Settings

end TaskFarm
