/-
# Scaffold.ClaudeHooks — hooks in a settings file that a user owns

`write_claude_hooks` puts its hooks into `.claude/settings.json` and stamps them with a version.
It leaves a file alone whose hooks are current or newer, and without `heal` any file that it could
read.  A file that it cannot read counts as no file, and is written over in both modes; a version
that is not an unsigned integer counts as 0, and is lowered; and a value that does not survive
being printed and read is changed by the rewriting.  These are the only ways to lose what a user
had (`settingsKept_iff`).

Reading a file and its JSON is a parameter, and so is what becomes of a value that is printed and
read back: it is the same value where no number has a fraction (`Rereads`).
-/
import Ministr.Mcp.Condense
import Ministr.Theory.Bytes
import Ministr.Theory.FirstCut
import Mathlib.Algebra.Field.Rat
import Mathlib.Algebra.Order.Ring.Rat
import Mathlib.Tactic.NormNum

namespace Ministr.Scaffold

open Ministr.Theory Ministr.Mcp

set_option autoImplicit false

inductive ScaffoldMode where
  | createOnly
  | heal
  deriving DecidableEq, Repr

structure ScaffoldResult where
  created : Nat := 0
  healed : Nat := 0
  customRules : Nat := 0
  deriving DecidableEq, Repr

/-! ## Values -/

def fieldOf (fields : List (String × Value)) (key : String) : Option Value :=
  (fields.find? fun f => f.1 = key).map Prod.snd

/-- `Value::get`. -/
def get (key : String) : Value → Option Value
  | .object fields => fieldOf fields key
  | _ => none

mutual

/-- Equality of values. -/
def same : Value → Value → Bool
  | .null, .null => true
  | .bool a, .bool b => a == b
  | .number a, .number b => a == b
  | .string a, .string b => a == b
  | .array as, .array bs => sameItems as bs
  | .object as, .object bs => sameFields as bs
  | _, _ => false

def sameItems : List Value → List Value → Bool
  | [], [] => true
  | a :: as, b :: bs => same a b && sameItems as bs
  | _, _ => false

def sameFields : List (String × Value) → List (String × Value) → Bool
  | [], [] => true
  | (k, a) :: as, (l, b) :: bs => k == l && same a b && sameFields as bs
  | _, _ => false

end

/-- `Number::as_u64`. -/
def numberAsU64 (digits : String) : Option Nat :=
  if digits.toList ≠ [] ∧ digits.toList.all Char.isDigit = true then
    if Nat.ofDigitChars 10 digits.toList 0 < 2 ^ 64 then
      some (Nat.ofDigitChars 10 digits.toList 0)
    else none
  else none

def asU64 : Value → Option Nat
  | .number digits => numberAsU64 digits
  | _ => none

def indent (depth : Nat) : List Char := '\n' :: List.replicate (2 * depth) ' '

mutual

/-- `serde_json::to_string_pretty`, so many levels deep.  That it can be read back is assumed
(`Rereads`); its text is what the file holds afterwards, and tells it from that of a user. -/
def prettyAt (depth : Nat) : Value → List Char
  | .array [] => "[]".toList
  | .array (v :: items) =>
      '[' :: separated (prettyItems (depth + 1) (v :: items)) ++ indent depth ++ [']']
  | .object [] => ['\x7b', '\x7d']
  | .object (f :: fields) =>
      '\x7b' :: separated (prettyFields (depth + 1) (f :: fields)) ++ indent depth ++ ['\x7d']
  | v => v.text

def prettyItems (depth : Nat) : List Value → List (List Char)
  | [] => []
  | v :: items => (indent depth ++ prettyAt depth v) :: prettyItems depth items

def prettyFields (depth : Nat) : List (String × Value) → List (List Char)
  | [] => []
  | (k, v) :: fields =>
      (indent depth ++ '\"' :: quoted k.toList ++ ": ".toList ++ prettyAt depth v) ::
        prettyFields depth fields

end

/-- What is written for a value. -/
def printed (v : Value) : List UInt8 := utf8 (String.ofList (prettyAt 0 v ++ ['\n']))

/-! ## Hooks -/

def hookTemplateVersion : Nat := 3

def versionKey : String := "_ministrHooksVersion"

def steerScriptRel : String := ".claude/hooks/steer-to-ministr.sh"

def steerHook (ifPattern category : String) : Value :=
  let command := "bash \"$CLAUDE_PROJECT_DIR/" ++ steerScriptRel ++ "\" " ++ category
  jsonObject ([("type", .string "command"), ("command", .string command)] ++
    if ifPattern = "" then [] else [("if", .string ifPattern)])

def bashHooks : List Value :=
  (["grep", "egrep", "fgrep", "rg", "ag", "ack"].map fun cmd =>
    steerHook ("Bash(" ++ cmd ++ " *)") "grep") ++
  (["find", "fd"].map fun cmd => steerHook ("Bash(" ++ cmd ++ " *)") "find") ++
  [steerHook "" "exec"]

/-- `build_claude_hooks`, below its `hooks`. -/
def claudeHooks : Value :=
  jsonObject [("PreToolUse", .array [
    jsonObject [("matcher", .string "Grep|Glob"), ("hooks", .array [steerHook "" "tool"])],
    jsonObject [("matcher", .string "Bash"), ("hooks", .array bashHooks)]])]

/-- The file is left alone: its hooks are current or newer, or they are not to be healed. -/
def leftAlone (mode : ScaffoldMode) (val : Value) : Bool :=
  let onDisk := ((get versionKey val).bind asU64).getD 0
  (decide (hookTemplateVersion ≤ onDisk) && (get "hooks" val).any (same claudeHooks)) ||
    decide (hookTemplateVersion < onDisk) || decide (mode = .createOnly)

/-- The settings to start from. -/
def settingsFields : Option Value → List (String × Value)
  | some (.object fields) => fields
  | _ => []

/-- The existing settings with the managed keys. -/
def mergeSettings (existing : Option Value) : Value :=
  .object (insertField (insertField (settingsFields existing) "hooks" claudeHooks) versionKey
    (.number (toString hookTemplateVersion)))

/-- What is to be written over settings that were read. -/
def settingsToWrite (mode : ScaffoldMode) (existing : Option Value) : Option Value :=
  if existing.any (leftAlone mode) then none else some (mergeSettings existing)

section Write

variable (parse : List UInt8 → Option Value)

/-- `write_claude_hooks`, on the content of the file, if there is one; `writes` says whether the
disk takes what is written. -/
def writeClaudeHooks (writes : Bool) (mode : ScaffoldMode) (file : Option (List UInt8)) :
    Option (List UInt8) × ScaffoldResult :=
  let existing := file.bind parse
  match settingsToWrite mode existing with
  | none => (file, {})
  | some merged =>
      if writes = true then
        (some (printed merged), if existing.isSome then { healed := 1 } else { created := 1 })
      else (file, {})

end Write

/-! ## Numbers as they are written -/

/-- The exponent of a number. -/
def exponentOf : List Char → Int
  | '-' :: digits => -(Nat.ofDigitChars 10 digits 0 : Int)
  | '+' :: digits => Nat.ofDigitChars 10 digits 0
  | digits => Nat.ofDigitChars 10 digits 0

/-- The value of a number without a sign. -/
def unsignedValue (text : List Char) : ℚ :=
  let (mantissa, exponent) := (cutFirst ['e'] text).getD (text, [])
  let (whole, fraction) := (cutFirst ['.'] mantissa).getD (mantissa, [])
  (Nat.ofDigitChars 10 (whole ++ fraction) 0 : ℚ) *
    (10 : ℚ) ^ (exponentOf exponent - (fraction.length : Int))

/-- The value of a number as JSON writes it. -/
def decimalValue (text : List Char) : ℚ :=
  match text with
  | '-' :: digits => - unsignedValue digits
  | _ => unsignedValue text

/-- The version that settings are stamped with. -/
def storedVersion (val : Value) : Option ℚ :=
  match get versionKey val with
  | some (.number digits) => some (decimalValue digits.toList)
  | _ => none

theorem decimalValue_of_asU64 {digits : String} {n : Nat} (read : numberAsU64 digits = some n) :
    decimalValue digits.toList = n := by
  rw [numberAsU64] at read
  split at read
  · rename_i plain
    have free : ∀ c : Char, c.isDigit = false → c ∉ digits.toList := by
      intro c other mem
      have digit := List.all_eq_true.mp plain.2 c mem
      rw [other] at digit
      cases digit
    have noCut : ∀ c : Char, c.isDigit = false → cutFirst [c] digits.toList = none := by
      intro c other
      rw [cutFirst_single_eq_none]
      exact free c other
    have value : Nat.ofDigitChars 10 digits.toList 0 = n := by
      split at read
      · exact Option.some.inj read
      · cases read
    have unsigned : unsignedValue digits.toList = n := by
      rw [unsignedValue, noCut 'e' (by decide)]
      simp only [Option.getD_none, noCut '.' (by decide), List.append_nil, value]
      simp [exponentOf, Nat.ofDigitChars]
    unfold decimalValue
    split
    · rename_i rest whole
      exact absurd (whole ▸ List.mem_cons_self) (free '-' (by decide))
    · exact unsigned
  · cases read

/-! ## What is kept -/

theorem fieldOf_insertField (fields : List (String × Value)) (k key : String) (v : Value) :
    fieldOf (insertField fields k v) key = if key = k then some v else fieldOf fields key := by
  induction fields with
  | nil =>
      by_cases here : key = k
      · simp [insertField, fieldOf, here]
      · simp [insertField, fieldOf, here, Ne.symm here]
  | cons f fields ih =>
      obtain ⟨k', w⟩ := f
      unfold insertField
      by_cases less : k < k'
      · rw [if_pos less]
        by_cases here : key = k
        · simp [fieldOf, here]
        · simp [fieldOf, here, Ne.symm here]
      · rw [if_neg less]
        by_cases equal : k = k'
        · rw [if_pos equal, ← equal]
          by_cases here : key = k
          · simp [fieldOf, here]
          · simp [fieldOf, here, Ne.symm here]
        · rw [if_neg equal]
          by_cases first : k' = key
          · have other : key ≠ k := fun here => equal (here ▸ first.symm)
            simp [fieldOf, first, other]
          · have rest := ih
            unfold fieldOf at rest ⊢
            rw [List.find?_cons_of_neg (by simpa using first), rest,
              List.find?_cons_of_neg (by simpa using first)]

theorem get_mergeSettings_hooks (existing : Option Value) :
    get "hooks" (mergeSettings existing) = some claudeHooks := by
  rw [mergeSettings, get, fieldOf_insertField, if_neg (by decide), fieldOf_insertField, if_pos rfl]

theorem get_mergeSettings_version (existing : Option Value) :
    get versionKey (mergeSettings existing) = some (.number "3") := by
  rw [mergeSettings, get, fieldOf_insertField, if_pos rfl]
  rfl

theorem get_mergeSettings_other (val : Value) {key : String} (notHooks : key ≠ "hooks")
    (notVersion : key ≠ versionKey) : get key (mergeSettings (some val)) = get key val := by
  rw [mergeSettings, get, fieldOf_insertField, if_neg notVersion, fieldOf_insertField,
    if_neg notHooks]
  cases val <;> rfl

mutual

theorem same_self : ∀ v : Value, same v v = true
  | .null => rfl
  | .bool b => beq_self_eq_true b
  | .number digits => beq_self_eq_true digits
  | .string s => beq_self_eq_true s
  | .array items => sameItems_self items
  | .object fields => sameFields_self fields

theorem sameItems_self : ∀ items : List Value, sameItems items items = true
  | [] => rfl
  | v :: items => by rw [sameItems, same_self v, sameItems_self items]; rfl

theorem sameFields_self : ∀ fields : List (String × Value), sameFields fields fields = true
  | [] => rfl
  | (k, v) :: fields => by
      rw [sameFields, beq_self_eq_true, same_self v, sameFields_self fields]
      rfl

end

/-- Settings with the current hooks and version are left alone. -/
theorem leftAlone_of_current {val : Value} (hooks : get "hooks" val = some claudeHooks)
    (version : get versionKey val = some (.number "3")) (mode : ScaffoldMode) :
    leftAlone mode val = true := by
  have onDisk : ((get versionKey val).bind asU64).getD 0 = 3 := by
    rw [version]
    decide
  rw [leftAlone, onDisk, hooks]
  simp [same_self, hookTemplateVersion]

mutual

/-- No number in the value has a fraction or an exponent. -/
def exactNumbers : Value → Bool
  | .number digits => (numberAsU64 digits).isSome
  | .array items => exactItems items
  | .object fields => exactFields fields
  | _ => true

def exactItems : List Value → Bool
  | [] => true
  | v :: items => exactNumbers v && exactItems items

def exactFields : List (String × Value) → Bool
  | [] => true
  | (_, v) :: fields => exactNumbers v && exactFields fields

end

section Kept

variable (parse : List UInt8 → Option Value) (reread : Value → Value)

/-- Settings that were printed are read back with their keys, each value as `reread` has it; and a
value without fractions is read back as it was. -/
structure Rereads (v : Value) : Prop where
  back : ∃ val, parse (printed v) = some val ∧ ∀ key, get key val = (get key v).map reread
  exact : ∀ w, exactNumbers w = true → reread w = w

/-- The settings in the file afterwards, if it can be read. -/
def settingsAfter (mode : ScaffoldMode) (file : Option (List UInt8)) : Option Value :=
  (writeClaudeHooks parse true mode file).1.bind parse

/-- Nothing that a user had is lost. -/
structure Kept (mode : ScaffoldMode) (file : Option (List UInt8)) : Prop where
  createOnly : mode = .createOnly → ∀ bytes, file = some bytes →
    (writeClaudeHooks parse true mode file).1 = some bytes
  others : mode = .heal → ∀ val, file.bind parse = some val →
    ∃ after, settingsAfter parse mode file = some after ∧
      ∀ key, key ≠ "hooks" → key ≠ versionKey → get key after = get key val
  version : mode = .heal → ∀ val, file.bind parse = some val →
    ∀ old, storedVersion val = some old →
      ∃ after new, settingsAfter parse mode file = some after ∧
        storedVersion after = some new ∧ old ≤ new
  unread : mode = .heal → ∀ bytes, file = some bytes → parse bytes = none →
    (writeClaudeHooks parse true mode file).1 = some bytes
  again : (writeClaudeHooks parse true mode (writeClaudeHooks parse true mode file).1).1 =
    (writeClaudeHooks parse true mode file).1

/-- Settings that can be healed: the version is not a number above the current one that is no
unsigned integer, and what is to be rewritten is read back as it was. -/
structure Healable (val : Value) : Prop where
  version : ∀ digits, get versionKey val = some (.number digits) → numberAsU64 digits = none →
    decimalValue digits.toList ≤ 3
  others : leftAlone .heal val = false → ∀ key, key ≠ "hooks" → key ≠ versionKey →
    ∀ w, get key val = some w → reread w = w

/-- An existing file can be read, and healed if it is to be. -/
def Readable (mode : ScaffoldMode) (file : Option (List UInt8)) : Prop :=
  ∀ bytes, file = some bytes → ∃ val, parse bytes = some val ∧
    (mode = .heal → Healable reread val)

variable {parse reread} {mode : ScaffoldMode} {file : Option (List UInt8)}

theorem writeClaudeHooks_of_alone (alone : settingsToWrite mode (file.bind parse) = none) :
    writeClaudeHooks parse true mode file = (file, {}) := by
  rw [writeClaudeHooks, alone]

theorem writeClaudeHooks_of_write {merged : Value}
    (writes : settingsToWrite mode (file.bind parse) = some merged) :
    (writeClaudeHooks parse true mode file).1 = some (printed merged) := by
  rw [writeClaudeHooks, writes]
  rfl

theorem settingsToWrite_eq_some {existing : Option Value} {merged : Value}
    (writes : settingsToWrite mode existing = some merged) :
    merged = mergeSettings existing ∧ existing.any (leftAlone mode) = false := by
  rw [settingsToWrite] at writes
  split at writes
  · cases writes
  · rename_i notAlone
    exact ⟨(Option.some.inj writes).symm, Bool.eq_false_iff.mpr notAlone⟩

theorem settingsToWrite_of_not_alone {val : Value} (notAlone : leftAlone mode val = false) :
    settingsToWrite mode (some val) = some (mergeSettings (some val)) := by
  rw [settingsToWrite, if_neg]
  rw [Option.any_some, notAlone]
  exact Bool.false_ne_true

/-- What is read after settings were written. -/
theorem settingsAfter_of_write
    (rereads : Rereads parse reread (mergeSettings (file.bind parse))) {merged : Value}
    (writes : settingsToWrite mode (file.bind parse) = some merged) :
    ∃ after, settingsAfter parse mode file = some after ∧
      get "hooks" after = some claudeHooks ∧ get versionKey after = some (.number "3") ∧
      ∀ key, key ≠ "hooks" → key ≠ versionKey →
        get key after = (get key (mergeSettings (file.bind parse))).map reread := by
  obtain ⟨rfl, -⟩ := settingsToWrite_eq_some writes
  obtain ⟨after, read, kept⟩ := rereads.back
  refine ⟨after, ?_, ?_, ?_, fun key _ _ => kept key⟩
  · rw [settingsAfter, writeClaudeHooks_of_write writes, Option.bind_some, read]
  · rw [kept, get_mergeSettings_hooks, Option.map_some, rereads.exact _ (by decide)]
  · rw [kept, get_mergeSettings_version, Option.map_some, rereads.exact _ (by decide)]

/-- A second run finds the current hooks. -/
theorem write_again (rereads : Rereads parse reread (mergeSettings (file.bind parse))) :
    (writeClaudeHooks parse true mode (writeClaudeHooks parse true mode file).1).1 =
      (writeClaudeHooks parse true mode file).1 := by
  cases writes : settingsToWrite mode (file.bind parse) with
  | none => rw [writeClaudeHooks_of_alone writes, writeClaudeHooks_of_alone writes]
  | some merged =>
      obtain ⟨after, read, hooks, version, -⟩ := settingsAfter_of_write rereads writes
      have alone : settingsToWrite mode
          ((writeClaudeHooks parse true mode file).1.bind parse) = none := by
        rw [← settingsAfter, read, settingsToWrite, if_pos]
        exact leftAlone_of_current hooks version mode
      rw [writeClaudeHooks_of_alone alone]

theorem storedVersion_of_three {val : Value}
    (version : get versionKey val = some (.number "3")) : storedVersion val = some 3 := by
  have three := decimalValue_of_asU64 (show numberAsU64 "3" = some 3 by decide)
  rw [storedVersion, version]
  exact congrArg some three

/-- Nothing else is in the file after its settings were left alone. -/
theorem settingsAfter_of_alone {val : Value} (read : file.bind parse = some val)
    (alone : settingsToWrite mode (file.bind parse) = none) :
    settingsAfter parse mode file = some val := by
  rw [settingsAfter, writeClaudeHooks_of_alone alone, read]

/-- A version that is not above the current one is not lowered. -/
theorem storedVersion_le {val : Value} (healable : Healable reread val)
    (notAlone : leftAlone .heal val = false) {old : ℚ} (stored : storedVersion val = some old) :
    old ≤ 3 := by
  rw [storedVersion] at stored
  split at stored
  · rename_i digits version
    obtain rfl := Option.some.inj stored
    cases number : numberAsU64 digits with
    | none => exact healable.version digits version number
    | some n =>
        have notNewer : n ≤ 3 := by
          by_contra newer
          rw [leftAlone, version] at notAlone
          simp [asU64, number, hookTemplateVersion] at notAlone
          omega
        rw [decimalValue_of_asU64 number]
        exact_mod_cast notNewer
  · cases stored

/-- What was kept could be healed. -/
theorem healable_of_kept {bytes : List UInt8} {val : Value} (read : parse bytes = some val)
    (rereads : Rereads parse reread (mergeSettings (some val)))
    (kept : Kept parse .heal (some bytes)) : Healable reread val := by
  have existing : (some bytes).bind parse = some val := read
  have rereads' : Rereads parse reread (mergeSettings ((some bytes).bind parse)) := by
    rwa [existing]
  refine ⟨fun digits version notU64 => ?_, fun notAlone key notHooks notVersion w here => ?_⟩
  · have notAlone : leftAlone .heal val = false := by
      rw [leftAlone, version]
      simp [asU64, notU64, hookTemplateVersion]
    have writes := settingsToWrite_of_not_alone notAlone
    rw [← existing] at writes
    obtain ⟨after, new, readAfter, stored, le⟩ :=
      kept.version rfl val existing _ (by rw [storedVersion, version])
    obtain ⟨after', readAfter', -, three, -⟩ := settingsAfter_of_write rereads' writes
    obtain rfl := Option.some.inj (readAfter.symm.trans readAfter')
    rw [storedVersion_of_three three] at stored
    rwa [← Option.some.inj stored] at le
  · have writes := settingsToWrite_of_not_alone notAlone
    rw [← existing] at writes
    obtain ⟨after, readAfter, same⟩ := kept.others rfl val existing
    obtain ⟨after', readAfter', -, -, others⟩ := settingsAfter_of_write rereads' writes
    obtain rfl := Option.some.inj (readAfter.symm.trans readAfter')
    have again := others key notHooks notVersion
    rw [same key notHooks notVersion, existing, get_mergeSettings_other val notHooks notVersion,
      here, Option.map_some, Option.some.injEq] at again
    exact again.symm

/-- **Nothing is lost exactly where an existing file can be read, has a version that is one, and
holds values that survive being written.** -/
theorem settingsKept_iff (rereads : Rereads parse reread (mergeSettings (file.bind parse))) :
    Kept parse mode file ↔ Readable parse reread mode file := by
  constructor
  · intro kept bytes here
    subst here
    cases read : parse bytes with
    | none =>
        -- the settings of nobody are written over the file
        have existing : (some bytes).bind parse = none := read
        have writes : settingsToWrite mode ((some bytes).bind parse) = some (mergeSettings none) := by
          rw [existing]
          rfl
        have written := writeClaudeHooks_of_write writes
        have left : (writeClaudeHooks parse true mode (some bytes)).1 = some bytes := by
          cases mode with
          | createOnly => exact kept.createOnly rfl bytes rfl
          | heal => exact kept.unread rfl bytes rfl read
        rw [left, Option.some.injEq] at written
        obtain ⟨val, printedRead, -⟩ := rereads.back
        rw [existing, ← written, read] at printedRead
        cases printedRead
    | some val =>
        have existing : (some bytes).bind parse = some val := read
        rw [existing] at rereads
        refine ⟨val, rfl, ?_⟩
        rintro rfl
        exact healable_of_kept read rereads kept
  · intro readable
    refine ⟨?_, ?_, ?_, ?_, write_again rereads⟩
    · rintro rfl bytes rfl
      obtain ⟨val, read, -⟩ := readable bytes rfl
      have alone : settingsToWrite .createOnly ((some bytes).bind parse) = none := by
        rw [Option.bind_some, read, settingsToWrite, if_pos]
        simp [leftAlone]
      rw [writeClaudeHooks_of_alone alone]
    · rintro rfl val read
      obtain ⟨bytes, here, parsed⟩ := Option.bind_eq_some_iff.mp read
      obtain ⟨val', read', healable⟩ := readable bytes here
      obtain rfl := Option.some.inj (parsed.symm.trans read')
      cases writes : settingsToWrite .heal (file.bind parse) with
      | none => exact ⟨val, settingsAfter_of_alone read writes, fun _ _ _ => rfl⟩
      | some merged =>
          obtain ⟨after, readAfter, -, -, others⟩ := settingsAfter_of_write rereads writes
          refine ⟨after, readAfter, fun key notHooks notVersion => ?_⟩
          rw [others key notHooks notVersion, read,
            get_mergeSettings_other val notHooks notVersion]
          rw [read] at writes
          have notAlone := (settingsToWrite_eq_some writes).2
          cases held : get key val with
          | none => rfl
          | some w =>
              rw [Option.map_some, (healable rfl).others notAlone key notHooks notVersion w held]
    · rintro rfl val read old stored
      obtain ⟨bytes, here, parsed⟩ := Option.bind_eq_some_iff.mp read
      obtain ⟨val', read', healable⟩ := readable bytes here
      obtain rfl := Option.some.inj (parsed.symm.trans read')
      cases writes : settingsToWrite .heal (file.bind parse) with
      | none => exact ⟨val, old, settingsAfter_of_alone read writes, stored, le_rfl⟩
      | some merged =>
          obtain ⟨after, readAfter, -, three, -⟩ := settingsAfter_of_write rereads writes
          rw [read] at writes
          have notAlone := (settingsToWrite_eq_some writes).2
          exact ⟨after, 3, readAfter, storedVersion_of_three three,
            storedVersion_le (healable rfl) notAlone stored⟩
    · rintro rfl bytes rfl unread
      obtain ⟨val, read, -⟩ := readable bytes rfl
      rw [unread] at read
      cases read

end Kept

/-! ## Files -/

theorem insertField_ne_nil (fields : List (String × Value)) (k : String) (v : Value) :
    insertField fields k v ≠ [] := by
  obtain ⟨before, after, inserted, -⟩ := insertField_cases fields k v
  simp [inserted]

/-- What is written begins with a brace, and breaks the line. -/
theorem take_printed_mergeSettings (existing : Option Value) :
    (printed (mergeSettings existing)).take 2 = [123, 10] := by
  rw [mergeSettings]
  obtain ⟨⟨k, v⟩, fields, whole⟩ := List.exists_cons_of_ne_nil (insertField_ne_nil
    (insertField (settingsFields existing) "hooks" claudeHooks) versionKey
      (.number (toString hookTemplateVersion)))
  rw [whole, printed, prettyAt, utf8, String.toList_ofList]
  cases fields <;> rfl

theorem printed_mergeSettings_ne (existing : Option Value) {text : List UInt8}
    (other : text.take 2 ≠ [123, 10]) : printed (mergeSettings existing) ≠ text := by
  rintro rfl
  exact other (take_printed_mergeSettings existing)

/-- Reads the text of a user as `val`, if it is readable, and what is written over it. -/
def readOver (text : List UInt8) (val : Option Value) (bytes : List UInt8) : Option Value :=
  if bytes = text then val
  else if bytes = printed (mergeSettings val) then some (mergeSettings val)
  else none

theorem readOver_text (text : List UInt8) (val : Option Value) : readOver text val text = val :=
  if_pos rfl

theorem readOver_rereads {text : List UInt8} (other : text.take 2 ≠ [123, 10])
    (val : Option Value) :
    Rereads (readOver text val) id (mergeSettings ((some text).bind (readOver text val))) := by
  rw [Option.bind_some, readOver_text]
  refine ⟨⟨mergeSettings val, ?_, fun key => ?_⟩, fun _ _ => rfl⟩
  · rw [readOver, if_neg (printed_mergeSettings_ne _ other), if_pos rfl]
  · rw [Option.map_id_fun, id]

/-- The settings of a user, with the hooks of an older version. -/
def olderSettings : Value :=
  .object [(versionKey, .number "2"),
    ("permissions", .object [("allow", .array [.string "Bash(ls *)"])])]

def olderText : List UInt8 :=
  utf8 "\x7b\"_ministrHooksVersion\":2,\"permissions\":\x7b\"allow\":[\"Bash(ls *)\"]\x7d\x7d"

/-- Old hooks are healed, and the permissions of the user are still in the file. -/
theorem settings_healed :
    (writeClaudeHooks (readOver olderText (some olderSettings)) true .heal (some olderText)).1 =
        some (printed (mergeSettings (some olderSettings))) ∧
      Kept (readOver olderText (some olderSettings)) .heal (some olderText) := by
  have writes : settingsToWrite .heal
      ((some olderText).bind (readOver olderText (some olderSettings))) =
        some (mergeSettings (some olderSettings)) := by
    rw [Option.bind_some, readOver_text, settingsToWrite_of_not_alone (by decide)]
  refine ⟨writeClaudeHooks_of_write writes,
    (settingsKept_iff (readOver_rereads (by decide) _)).mpr fun bytes here => ?_⟩
  obtain rfl := Option.some.inj here
  refine ⟨olderSettings, readOver_text _ _, fun _ => ⟨fun digits version notU64 => ?_,
    fun _ _ _ _ _ _ => rfl⟩⟩
  obtain rfl : "2" = digits := by simpa [olderSettings, get, fieldOf] using version
  exact absurd notU64 (by decide)

/-- A version that is a number with a fraction. -/
def fractionText : List UInt8 := utf8 "\x7b\"_ministrHooksVersion\":4.0\x7d"

def fractionSettings : Value := .object [(versionKey, .number "4.0")]

/-- A comment makes a file unreadable, and it is written over where no file may be; and a version
that is written with a fraction is lowered. -/
theorem settings_lost :
    ¬ Kept (readOver (utf8 "// mine") none) .createOnly (some (utf8 "// mine")) ∧
      ¬ Kept (readOver fractionText (some fractionSettings)) .heal (some fractionText) := by
  constructor
  · intro kept
    have writes : settingsToWrite .createOnly
        ((some (utf8 "// mine")).bind (readOver (utf8 "// mine") none)) =
          some (mergeSettings none) := by
      rw [Option.bind_some, readOver_text]
      rfl
    have left := kept.createOnly rfl _ rfl
    rw [writeClaudeHooks_of_write writes, Option.some.injEq] at left
    exact printed_mergeSettings_ne none (by decide) left
  · intro kept
    have four : decimalValue "4.0".toList = 4 := by decide +kernel
    have read := readOver_text fractionText (some fractionSettings)
    obtain ⟨after, new, readAfter, stored, le⟩ := kept.version rfl _ read _ rfl
    have writes : settingsToWrite .heal
        ((some fractionText).bind (readOver fractionText (some fractionSettings))) =
          some (mergeSettings (some fractionSettings)) := by
      rw [Option.bind_some, read, settingsToWrite_of_not_alone (by decide)]
    obtain ⟨after', readAfter', -, three, -⟩ :=
      settingsAfter_of_write (readOver_rereads (by decide) _) writes
    obtain rfl := Option.some.inj (readAfter.symm.trans readAfter')
    rw [storedVersion_of_three three, Option.some.injEq] at stored
    rw [four, ← stored] at le
    exact absurd le (by decide)

end Ministr.Scaffold
