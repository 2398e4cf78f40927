/-
# Bridge.Case — binding keys between `snake_case` and `camelCase`

`snake_to_camel` cuts a name at its underscores and capitalises the pieces after the first;
`camel_to_snake` puts an underscore before a capital that follows a lowercase letter.  It
looks back by one character only, so the underscore is lost where that character is a digit
or is itself the capital of a piece of one letter.  `normalize_snakeToCamel_iff` says for
which names the way there and back ends where it began.

The case of a character is Unicode's.  `CaseTables` stands for its tables, of which only the
ASCII part is fixed.
-/
import Mathlib.Data.List.Basic
import Mathlib.Tactic.Common

namespace Ministr.Bridge

set_option autoImplicit false

/-- The case properties and mappings of characters: `char::is_uppercase`,
`char::is_lowercase`, `char::to_uppercase` and `char::to_lowercase`. -/
structure CaseTables where
  isUppercase : Char → Bool
  isLowercase : Char → Bool
  toUppercase : Char → List Char
  toLowercase : Char → List Char
  isUppercase_ascii : ∀ c : Char, c.toNat < 128 → isUppercase c = c.isUpper
  isLowercase_ascii : ∀ c : Char, c.toNat < 128 → isLowercase c = c.isLower
  toUppercase_ascii : ∀ c : Char, c.toNat < 128 → toUppercase c = [c.toUpper]
  toLowercase_ascii : ∀ c : Char, c.toNat < 128 → toLowercase c = [c.toLower]

namespace CaseTables

/-- The tables of a text that is all ASCII. -/
def ascii : CaseTables where
  isUppercase := Char.isUpper
  isLowercase := Char.isLower
  toUppercase c := [c.toUpper]
  toLowercase c := [c.toLower]
  isUppercase_ascii _ _ := rfl
  isLowercase_ascii _ _ := rfl
  toUppercase_ascii _ _ := rfl
  toLowercase_ascii _ _ := rfl

variable (chars : CaseTables)

/-! ## The conversions -/

/-- One segment of `snake_to_camel`, with its index; the state is the result so far and
`capitalize_next`. -/
def camelStep (state : List Char × Bool) (segment : List Char × Nat) : List Char × Bool :=
  match segment.1 with
  | [] => state
  | first :: rest =>
      if segment.2 = 0 then (state.1 ++ first :: rest, true)
      else if state.2 || decide (0 < segment.2) then
        (state.1 ++ chars.toUppercase first ++ rest, true)
      else (state.1, true)

def snakeToCamel (s : String) : String :=
  String.ofList (((s.toList.splitOn '_').zipIdx.foldl chars.camelStep ([], false)).1)

/-- One character of `camel_to_snake`; the state is the result so far and `prev_lower`. -/
def snakeStep (state : List Char × Bool) (ch : Char) : List Char × Bool :=
  (state.1 ++ (if chars.isUppercase ch && state.2 then ['_'] else []) ++ chars.toLowercase ch,
    chars.isLowercase ch)

def camelToSnake (s : String) : String :=
  String.ofList (s.toList.foldl chars.snakeStep ([], false)).1

def normalizeBindingKey (key : String) : String :=
  if '_' ∈ key.toList then key else chars.camelToSnake key

end CaseTables

/-! ## Names in `snake_case` -/

/-- A segment `[a-z][a-z0-9]*`. -/
def isSegment : List Char → Bool
  | [] => false
  | first :: rest => first.isLower && rest.all fun c => c.isLower || c.isDigit

/-- The segments joined by single underscores. -/
def snakeName (segments : List (List Char)) : String :=
  String.ofList (['_'].intercalate segments)

/-- The last character is a lowercase letter. -/
def endsInLetter (segment : List Char) : Bool := segment.getLast?.any Char.isLower

/-- Every segment but the last ends in a letter, and those between the first and the last
have a letter after their initial. -/
def Recoverable (segments : List (List Char)) : Prop :=
  (∀ segment ∈ segments.dropLast, endsInLetter segment) ∧
    ∀ segment ∈ segments.dropLast.tail, 2 ≤ segment.length

instance (segments : List (List Char)) : Decidable (Recoverable segments) :=
  inferInstanceAs (Decidable (_ ∧ _))

/-! ## Letters -/

/-- What is decided for the ASCII characters holds of them. -/
theorem forall_ascii {p : Char → Bool} (all : ∀ n < 128, p (Char.ofNat n)) {c : Char}
    (small : c.toNat < 128) : p c := by
  rw [← Char.ofNat_toNat c]
  exact all _ small

theorem toNat_lt_of_isLower {c : Char} (lower : c.isLower) : c.toNat < 128 := by
  have bounds : (decide (c.val ≥ 'a'.val) && decide (c.val ≤ 'z'.val)) = true := lower
  simp only [Bool.and_eq_true, decide_eq_true_eq, UInt32.le_iff_toNat_le] at bounds
  have same : c.toNat = c.val.toNat := rfl
  have last : 'z'.val.toNat = 122 := rfl
  omega

theorem toNat_lt_of_isDigit {c : Char} (digit : c.isDigit) : c.toNat < 128 := by
  have bounds : (decide (c.val ≥ '0'.val) && decide (c.val ≤ '9'.val)) = true := digit
  simp only [Bool.and_eq_true, decide_eq_true_eq, UInt32.le_iff_toNat_le] at bounds
  have same : c.toNat = c.val.toNat := rfl
  have last : '9'.val.toNat = 57 := rfl
  omega

theorem capital_of_isLower {c : Char} (lower : c.isLower) :
    c.toUpper.toNat < 128 ∧ c.toUpper.isUpper ∧ c.toUpper.isLower = false ∧
      c.toUpper.toLower = c ∧ c.toUpper ≠ '_' := by
  have all := forall_ascii (p := fun c => !c.isLower || (decide (c.toUpper.toNat < 128) &&
    c.toUpper.isUpper && !c.toUpper.isLower && decide (c.toUpper.toLower = c) &&
    decide (c.toUpper ≠ '_'))) (by decide) (toNat_lt_of_isLower lower)
  simp only [lower, Bool.not_true, Bool.false_or, Bool.and_eq_true, decide_eq_true_eq,
    Bool.not_eq_true', ne_eq] at all
  tauto

/-- The characters of a segment. -/
def isPlain (c : Char) : Bool := c.isLower || c.isDigit

theorem isPlain_facts (chars : CaseTables) {c : Char} (plain : isPlain c) :
    chars.isUppercase c = false ∧ chars.isLowercase c = c.isLower ∧
      chars.toLowercase c = [c] ∧ c ≠ '_' := by
  have small : c.toNat < 128 := by
    rcases Bool.or_eq_true_iff.mp plain with lower | digit
    · exact toNat_lt_of_isLower lower
    · exact toNat_lt_of_isDigit digit
  have all := forall_ascii (p := fun c => !isPlain c || (!c.isUpper && decide (c.toLower = c) &&
    decide (c ≠ '_'))) (by decide) small
  simp only [plain, Bool.not_true, Bool.false_or, Bool.and_eq_true, decide_eq_true_eq,
    Bool.not_eq_true', ne_eq] at all
  rw [chars.isUppercase_ascii c small, chars.isLowercase_ascii c small,
    chars.toLowercase_ascii c small, all.1.2]
  exact ⟨all.1.1, rfl, rfl, all.2⟩

theorem isPlain_of_isSegment {segment : List Char} (valid : isSegment segment) :
    ∀ c ∈ segment, isPlain c := by
  cases segment with
  | nil => cases valid
  | cons first rest =>
      simp only [isSegment, Bool.and_eq_true, List.all_eq_true] at valid
      intro c mem
      rcases List.mem_cons.mp mem with rfl | mem
      · exact Bool.or_eq_true_iff.mpr (.inl valid.1)
      · exact valid.2 c mem

/-! ## There and back -/

/-- A segment with its initial capitalised. -/
def capitalised : List Char → List Char
  | [] => []
  | first :: rest => first.toUpper :: rest

/-- What follows the first segment in a name. -/
def joinedTail (segments : List (List Char)) : List Char := segments.flatMap ('_' :: ·)

theorem intercalate_eq (segment : List Char) (segments : List (List Char)) :
    ['_'].intercalate (segment :: segments) = segment ++ joinedTail segments := by
  induction segments generalizing segment with
  | nil => simp [joinedTail]
  | cons next segments ih =>
      rw [List.intercalate_cons_cons, ih]
      simp [joinedTail]

namespace CaseTables

variable (chars : CaseTables)

/-- What `camel_to_snake` makes of the rest of a text, by the case of the character before. -/
def snakeFrom (prevLower : Bool) : List Char → List Char
  | [] => []
  | ch :: rest =>
      (if chars.isUppercase ch && prevLower then ['_'] else []) ++ chars.toLowercase ch ++
        snakeFrom (chars.isLowercase ch) rest

theorem foldl_snakeStep (text acc : List Char) (prevLower : Bool) :
    (text.foldl chars.snakeStep (acc, prevLower)).1 = acc ++ chars.snakeFrom prevLower text := by
  induction text generalizing acc prevLower with
  | nil => simp [snakeFrom]
  | cons ch text ih => simp [snakeStep, snakeFrom, ih]

theorem foldl_camelStep {segments : List (List Char)} (valid : ∀ segment ∈ segments, isSegment segment)
    {n : Nat} (later : 0 < n) (state : List Char × Bool) :
    ((segments.zipIdx n).foldl chars.camelStep state).1 =
      state.1 ++ segments.flatMap capitalised := by
  induction segments generalizing n state with
  | nil => simp
  | cons segment segments ih =>
      rw [List.zipIdx_cons, List.foldl_cons,
        ih (fun s mem => valid s (List.mem_cons_of_mem _ mem)) (Nat.succ_pos n)]
      cases segment with
      | nil => cases valid [] List.mem_cons_self
      | cons first rest =>
          have lower : first.isLower := by
            have here := valid _ List.mem_cons_self
            simp only [isSegment, Bool.and_eq_true] at here
            exact here.1
          simp [camelStep, capitalised, Nat.ne_of_gt later, later,
            chars.toUppercase_ascii first (toNat_lt_of_isLower lower)]

theorem snakeToCamel_snakeName {segment : List Char} {segments : List (List Char)}
    (valid : ∀ s ∈ segment :: segments, isSegment s) :
    (chars.snakeToCamel (snakeName (segment :: segments))).toList =
      segment ++ segments.flatMap capitalised := by
  have noMark : ∀ s ∈ segment :: segments, '_' ∉ s := fun s mem inside =>
    (isPlain_facts chars (isPlain_of_isSegment (valid s mem) _ inside)).2.2.2 rfl
  rw [snakeToCamel, snakeName, String.toList_ofList, String.toList_ofList,
    List.splitOn_intercalate '_' noMark (by simp), List.zipIdx_cons, List.foldl_cons,
    foldl_camelStep chars (fun s mem => valid s (List.mem_cons_of_mem _ mem)) Nat.one_pos]
  cases segment with
  | nil => cases valid [] List.mem_cons_self
  | cons first rest => simp [camelStep]

/-- Through plain characters the text stays as it is. -/
theorem snakeFrom_plain {word : List Char} (plain : ∀ c ∈ word, isPlain c) (prevLower : Bool)
    (rest : List Char) :
    chars.snakeFrom prevLower (word ++ rest) =
      word ++ chars.snakeFrom (word.getLast?.elim prevLower Char.isLower) rest := by
  induction word generalizing prevLower with
  | nil => rfl
  | cons c word ih =>
      obtain ⟨notUpper, lower, same, -⟩ := isPlain_facts chars (plain c List.mem_cons_self)
      rw [List.cons_append, snakeFrom, notUpper, lower, same,
        ih fun d mem => plain d (List.mem_cons_of_mem _ mem)]
      cases last : word.getLast? <;> simp [List.getLast?_cons, last]

/-- The capitalised segments read back, with an underscore where the character before shows
the boundary. -/
def spelled (prevLower : Bool) : List (List Char) → List Char
  | [] => []
  | segment :: segments =>
      (if prevLower then ['_'] else []) ++ segment ++
        spelled (decide (2 ≤ segment.length) && endsInLetter segment) segments

theorem snakeFrom_capitalised {segments : List (List Char)}
    (valid : ∀ segment ∈ segments, isSegment segment) (prevLower : Bool) :
    chars.snakeFrom prevLower (segments.flatMap capitalised) = spelled prevLower segments := by
  induction segments generalizing prevLower with
  | nil => rfl
  | cons segment segments ih =>
      have plain := isPlain_of_isSegment (valid segment List.mem_cons_self)
      cases segment with
      | nil => cases valid [] List.mem_cons_self
      | cons first rest =>
          have lower : first.isLower := by
            have here := valid _ List.mem_cons_self
            simp only [isSegment, Bool.and_eq_true] at here
            exact here.1
          obtain ⟨small, upper, notLower, back, -⟩ := capital_of_isLower lower
          have shows : (rest.getLast?.elim false Char.isLower) =
              (decide (2 ≤ (first :: rest).length) && endsInLetter (first :: rest)) := by
            cases rest with
            | nil => rfl
            | cons c rest => simp [endsInLetter, List.getLast?_cons]
          rw [List.flatMap_cons, capitalised, List.cons_append, snakeFrom,
            chars.isUppercase_ascii _ small, chars.isLowercase_ascii _ small,
            chars.toLowercase_ascii _ small, upper, notLower, back,
            chars.snakeFrom_plain (fun c mem => plain c (List.mem_cons_of_mem _ mem)), shows,
            ih fun s mem => valid s (List.mem_cons_of_mem _ mem), spelled]
          simp

theorem length_spelled_le (prevLower : Bool) (segments : List (List Char)) :
    (spelled prevLower segments).length ≤ (joinedTail segments).length := by
  induction segments generalizing prevLower with
  | nil => exact Nat.le_refl _
  | cons segment segments ih =>
      have more := ih (decide (2 ≤ segment.length) && endsInLetter segment)
      rw [joinedTail] at more ⊢
      cases prevLower <;> simp only [spelled, List.flatMap_cons, List.length_append,
        List.length_cons, List.length_nil, if_true, Bool.false_eq_true, if_false] <;> omega

/-- No underscore is lost exactly when every boundary shows. -/
theorem spelled_eq_iff (prevLower : Bool) (segments : List (List Char)) :
    spelled prevLower segments = joinedTail segments ↔
      segments = [] ∨ prevLower = true ∧
        ∀ segment ∈ segments.dropLast, 2 ≤ segment.length ∧ endsInLetter segment := by
  induction segments generalizing prevLower with
  | nil => simp [spelled, joinedTail]
  | cons segment segments ih =>
      cases prevLower with
      | false =>
          refine iff_of_false (fun same => ?_) (by simp)
          have shorter := length_spelled_le (decide (2 ≤ segment.length) && endsInLetter segment)
            segments
          have lengths := congrArg List.length same
          rw [joinedTail] at shorter lengths
          simp only [spelled, List.flatMap_cons, List.length_append, List.length_cons,
            List.length_nil, Bool.false_eq_true, if_false] at lengths
          omega
      | true =>
          have peel : spelled true (segment :: segments) = joinedTail (segment :: segments) ↔
              spelled (decide (2 ≤ segment.length) && endsInLetter segment) segments =
                joinedTail segments := by
            simp [spelled, joinedTail]
          rw [peel, ih]
          cases segments with
          | nil => simp
          | cons next segments =>
              simp only [List.dropLast_cons_cons, List.forall_mem_cons, Bool.and_eq_true,
                decide_eq_true_eq, reduceCtorEq, false_or, true_and]

theorem recoverable_cons_iff (segment : List Char) (segments : List (List Char)) :
    Recoverable (segment :: segments) ↔ segments = [] ∨ endsInLetter segment = true ∧
      ∀ s ∈ segments.dropLast, 2 ≤ s.length ∧ endsInLetter s := by
  cases segments with
  | nil => simp [Recoverable]
  | cons next segments =>
      simp only [Recoverable, List.dropLast_cons_cons, List.forall_mem_cons, List.tail_cons,
        reduceCtorEq, false_or, forall_and]
      tauto

/-- **A name comes back from its camel case exactly when every boundary between its segments
shows there.** -/
theorem normalize_snakeToCamel_iff {segments : List (List Char)} (named : segments ≠ [])
    (valid : ∀ segment ∈ segments, isSegment segment) :
    chars.normalizeBindingKey (chars.snakeToCamel (snakeName segments)) = snakeName segments ↔
      Recoverable segments := by
  obtain ⟨segment, segments, rfl⟩ := List.exists_cons_of_ne_nil named
  have plain := isPlain_of_isSegment (valid segment List.mem_cons_self)
  have later : ∀ s ∈ segments, isSegment s := fun s mem => valid s (List.mem_cons_of_mem _ mem)
  have noMark : '_' ∉ (chars.snakeToCamel (snakeName (segment :: segments))).toList := by
    rw [snakeToCamel_snakeName chars valid]
    intro mem
    rcases List.mem_append.mp mem with mem | mem
    · exact (isPlain_facts chars (plain _ mem)).2.2.2 rfl
    · obtain ⟨s, there, inside⟩ := List.mem_flatMap.mp mem
      cases s with
      | nil => cases inside
      | cons first rest =>
          rcases List.mem_cons.mp inside with capital | inside
          · have here := later _ there
            simp only [isSegment, Bool.and_eq_true] at here
            exact (capital_of_isLower here.1).2.2.2.2 capital.symm
          · exact (isPlain_facts chars (isPlain_of_isSegment (later _ there) _
              (List.mem_cons_of_mem _ inside))).2.2.2 rfl
  have shows : segment.getLast?.elim false Char.isLower = endsInLetter segment := by
    rw [endsInLetter]
    cases segment.getLast? <;> rfl
  rw [normalizeBindingKey, if_neg noMark, camelToSnake, snakeToCamel_snakeName chars valid,
    foldl_snakeStep, chars.snakeFrom_plain plain, chars.snakeFrom_capitalised later, shows,
    snakeName, intercalate_eq, String.ofList_inj, List.nil_append, List.append_cancel_left_eq,
    spelled_eq_iff, recoverable_cons_iff]

/-- A name in `snake_case` is its own normal form. -/
theorem normalize_snakeName {segments : List (List Char)} (named : segments ≠ [])
    (valid : ∀ segment ∈ segments, isSegment segment) :
    chars.normalizeBindingKey (snakeName segments) = snakeName segments := by
  obtain ⟨segment, segments, rfl⟩ := List.exists_cons_of_ne_nil named
  cases segments with
  | nil =>
      have plain := isPlain_of_isSegment (valid segment List.mem_cons_self)
      have kept := chars.snakeFrom_plain plain false []
      simp only [List.append_nil, snakeFrom] at kept
      rw [normalizeBindingKey, camelToSnake, snakeName, intercalate_eq, joinedTail,
        List.flatMap_nil, List.append_nil, String.toList_ofList, foldl_snakeStep, kept]
      simp
  | cons next segments =>
      have mark : '_' ∈ (snakeName (segment :: next :: segments)).toList := by
        simp [snakeName, intercalate_eq, joinedTail]
      rw [normalizeBindingKey, if_pos mark]

end CaseTables

end Ministr.Bridge
