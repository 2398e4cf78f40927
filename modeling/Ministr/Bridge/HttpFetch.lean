/-
# Bridge.HttpFetch — how a `fetch` is read

The shapes of a call are texts with holes: a path that holds no quotes, a method, a kind of quotes
for each literal.  The method of a `fetch` is what is read from the first place of the word `method`
on, which can be in the path: `landing` says where a cut can fall, and `read_options` what is read
from there.
-/
import Ministr.Bridge.HttpLiterals

namespace Ministr.Bridge.HttpRoute

open Ministr.Theory Ministr.Content Ministr.Git

set_option autoImplicit false

/-! ## The shapes -/

section Shapes

variable (q r : Quote) (path : Unquoted)

/-- `fetch(p)`. -/
def fetchText : List Char := fetchPattern ++ (literal q path.chars ++ [')'])

/-- What stands between the path and the method: `, {method: `. -/
def optionsLead : List Char := [',', ' ', '\x7b'] ++ (methodWord ++ [':', ' '])

/-- The arguments of `fetch(p, {method: m, ...})`. -/
def fetchOptions (method : MethodText) (more : Unquoted) : List Char :=
  literal q path.chars ++ (optionsLead ++ (literal r method.chars ++ (more.chars ++ ['\x7d', ')'])))

def fetchOptionsText (method : MethodText) (more : Unquoted) : List Char :=
  fetchPattern ++ fetchOptions q r path method more

/-- `receiver.m(p, ...)` or `axios.m(p, ...)`, from its pattern. -/
def callOf (pattern : List Char × List Char) (more : List Char) : List Char :=
  pattern.1 ++ (literal q path.chars ++ (more ++ [')']))

/-- `@app.m(p)`. -/
def decoratorText (method : MethodText) : List Char :=
  "@app.".toList ++ (method.chars ++ '(' :: (literal q path.chars ++ [')']))

/-- What stands between the path and the methods: `, methods=[`. -/
def methodsLead : List Char := [',', ' '] ++ (methodsWord ++ ['=', '['])

/-- The arguments of `@app.route(p, methods=[m])`. -/
def routeArgs (method : MethodText) : List Char :=
  '(' :: (literal q path.chars ++ (methodsLead ++ (literal r method.chars ++ [']', ')'])))

def routeText (method : MethodText) : List Char := "@app.route".toList ++ routeArgs q r path method

end Shapes

/-! ## Where the word is found -/

section Offset

/-- How far behind the opening quote the word is found: in the path, in any mix of cases, or as far
behind it as it is written. -/
def foundAt (word path : List Char) (gap : Nat) : Nat :=
  match cutFirst word (path.map Char.toLower) with
  | some cut => loweredLength (path.take cut.1.length)
  | none => loweredLength path + gap

theorem findLowered_args (final : List Char → List Char → Bool) {x : Char} {word : List Char}
    (plain : ∀ y ∈ x :: word, Plain y) (lower : (x :: word).map Char.toLower = x :: word)
    (q : Quote) (unquoted : q.char ∉ x :: word) (lead gap : List Char)
    (ascii : ∀ c ∈ lead ++ gap, c.toNat < 128) (free : x ∉ (lead ++ gap).map Char.toLower)
    (path tail : List Char) :
    findLowered final (x :: word)
        (lead ++ (q.char :: (path ++ q.char :: (gap ++ (x :: word ++ tail))))) =
      some (lead.length + 1 + foundAt (x :: word) path (1 + gap.length)) := by
  rw [List.map_append, List.mem_append, not_or] at free
  have atQuote : x ≠ q.char := fun same => unquoted (same ▸ List.mem_cons_self)
  have freeLead : x ∉ (lead ++ [q.char]).map Char.toLower := by
    rw [List.map_append, List.mem_append, not_or, List.map_singleton, q.toLower, List.mem_singleton]
    exact ⟨free.1, atQuote⟩
  have leadSize : loweredLength (lead ++ [q.char]) = lead.length + 1 := by
    rw [loweredLength_ascii, List.length_append, List.length_singleton]
    intro c mem
    rcases List.mem_append.mp mem with inLead | here
    · exact ascii c (List.mem_append_left _ inLead)
    · rw [List.mem_singleton.mp here]
      exact q.ascii
  have gapSize : loweredLength (q.char :: gap) = 1 + gap.length := by
    rw [loweredLength_ascii, List.length_cons, Nat.add_comm]
    intro c mem
    rcases List.mem_cons.mp mem with rfl | inGap
    · exact q.ascii
    · exact ascii c (List.mem_append_right _ inGap)
  have shape : lead ++ (q.char :: (path ++ q.char :: (gap ++ (x :: word ++ tail)))) =
      (lead ++ [q.char]) ++ (path ++ q.char :: (gap ++ (x :: word ++ tail))) := by simp
  have behind : cutFirst (x :: word) ((gap ++ (x :: word ++ tail)).map Char.toLower) =
      some (gap.map Char.toLower, tail.map Char.toLower) := by
    rw [List.map_append, List.map_append, lower, cutFirst_append_of_free free.2, cutFirst_here,
      Option.map_some, List.append_nil]
  have lowered : (path ++ q.char :: (gap ++ (x :: word ++ tail))).map Char.toLower =
      path.map Char.toLower ++ q.char :: (gap ++ (x :: word ++ tail)).map Char.toLower := by
    rw [List.map_append, List.map_cons, q.toLower]
  have found : ∀ cut, cutFirst (x :: word) ((path ++ q.char ::
        (gap ++ (x :: word ++ tail))).map Char.toLower) = some cut →
      findLowered final (x :: word)
          (lead ++ [q.char] ++ (path ++ q.char :: (gap ++ (x :: word ++ tail)))) =
        some (lead.length + 1 +
          loweredLength ((path ++ q.char :: (gap ++ (x :: word ++ tail))).take cut.1.length)) := by
    intro cut isCut
    rw [findLowered_eq final plain (List.cons_ne_nil _ _), List.map_append,
      cutFirst_append_of_free freeLead, isCut, Option.map_some, Option.map_some,
      List.length_append, List.length_map, List.take_length_add_append, loweredLength_append,
      leadSize]
  rw [shape, foundAt]
  cases inside : cutFirst (x :: word) (path.map Char.toLower) with
  | some cut =>
      obtain ⟨whole, -⟩ := cutFirst_eq_some.mp inside
      have fits : cut.1.length ≤ path.length := by
        have sizes := congrArg List.length whole
        rw [List.length_map, List.length_append] at sizes
        omega
      rw [found (cut.1, _) (by rw [lowered, cutFirst_append_cons (List.cons_ne_nil _ _) unquoted,
        inside]), List.take_append_of_le_length fits]
  | none =>
      have size : (path.map Char.toLower ++ q.char :: gap.map Char.toLower).length =
          (path ++ q.char :: gap).length := by simp
      have front : path ++ q.char :: (gap ++ (x :: word ++ tail)) =
          (path ++ q.char :: gap) ++ (x :: word ++ tail) := by simp
      rw [found (path.map Char.toLower ++ q.char :: gap.map Char.toLower, tail.map Char.toLower) (by
        rw [lowered, cutFirst_append_cons (List.cons_ne_nil _ _) unquoted, inside, behind]
        rfl), size, front, List.take_left, loweredLength_append, gapSize]

/-- A cut behind the opening quote is in the path, in what stands between the literals, or behind
that. -/
theorem landing {front rest head path lead back : List Char} {c : Char} (one : c.utf8Size = 1)
    (whole : head ++ (path ++ c :: (lead ++ back)) = front ++ rest)
    (far : byteLength head ≤ byteLength front) :
    (∃ u v, path = u ++ v ∧ byteLength front = byteLength head + byteLength u ∧
        rest = v ++ c :: (lead ++ back)) ∨
      (byteLength head + byteLength path < byteLength front ∧
        byteLength front ≤ byteLength head + byteLength path + 1 + byteLength lead ∧
        ∃ u v, lead = u ++ v ∧ rest = v ++ back) ∨
      byteLength head + byteLength path + 1 + byteLength lead < byteLength front ∧
        ∃ u, u ≠ [] ∧ back = u ++ rest := by
  obtain ⟨u, rfl, behind⟩ := cut_within whole.symm far
  rw [byteLength_append]
  rcases Nat.lt_or_ge (byteLength path) (byteLength u) with past | inPath
  · obtain ⟨w, rfl, behindPath⟩ := cut_within behind.symm (Nat.le_of_lt past)
    rw [byteLength_append] at past ⊢
    cases w with
    | nil => exact absurd past (by simp)
    | cons d w =>
        obtain ⟨rfl, behindQuote⟩ := List.cons.inj behindPath
        rw [byteLength_cons, one]
        right
        rcases Nat.lt_or_ge (byteLength lead) (byteLength w) with far | near
        · obtain ⟨x, rfl, behindLead⟩ := cut_within behindQuote.symm (Nat.le_of_lt far)
          refine .inr ⟨by omega, x, ?_, behindLead⟩
          rintro rfl
          simp at far
        · obtain ⟨v, rfl, behindLead⟩ := cut_within behindQuote near
          exact .inl ⟨by omega, by omega, w, v, rfl, behindLead⟩
  · obtain ⟨v, rfl, behindPath⟩ := cut_within behind inPath
    exact .inl ⟨u, v, rfl, rfl, behindPath⟩

end Offset

/-! ## `fetch` -/

section Fetch

variable (final : List Char → List Char → Bool) (q r : Quote) (path more : Unquoted)
  (method : MethodText)

def optionsLeadText : Unquoted := ⟨optionsLead, by decide, by decide⟩

/-- What closes the options. -/
def closing (more : Unquoted) : Unquoted :=
  ⟨more.chars ++ ['\x7d', ')'], by simp [more.double], by simp [more.single]⟩

theorem fetchOptions_eq :
    fetchOptions q r path method more = [q.char] ++ (path.chars ++ q.char ::
      (optionsLead ++ (literal r method.chars ++ (closing more).chars))) := by
  simp [fetchOptions, literal, closing]

/-- What is read behind a cut at `o`. -/
theorem read_options {o : Nat} {rest : List Char} (late : 1 ≤ o)
    (cut : slice (fetchOptions q r path method more) o = .ok rest) :
    extractFirstStringLiteralSimple rest =
      if o ≤ byteLength path.chars + 1 then some (if q = r then optionsLead else method.chars)
      else if o ≤ byteLength path.chars + 13 then some method.chars else none := by
  obtain ⟨front, whole, rfl⟩ := slice_eq_ok.mp cut
  have head : byteLength [q.char] = 1 := by rw [byteLength_cons, q.utf8Size, byteLength_nil]
  have lead : byteLength optionsLead = 11 := by decide
  rw [fetchOptions_eq] at whole
  rcases landing q.utf8Size whole (by rw [head]; exact late) with
    ⟨u, v, inPath, size, rfl⟩ | ⟨past, near, u, v, inLead, rfl⟩ | ⟨far, u, held, behind⟩
  · have small : byteLength u ≤ byteLength path.chars := by
      rw [inPath, byteLength_append]
      omega
    rw [if_pos (by omega)]
    exact simple_after_quote (path.part v ⟨u, [], by rw [inPath, List.append_nil]⟩) optionsLeadText
      method.unquoted (closing more) q r
  · rw [if_neg (by omega), if_pos (by omega)]
    exact simple_alone (optionsLeadText.part v ⟨u, [], by rw [← inLead, List.append_nil]; rfl⟩)
      method.unquoted (closing more) r
  · rw [if_neg (by omega), if_neg (by omega), simple_eq_none_iff]
    cases u with
    | nil => exact absurd rfl held
    | cons d u =>
        have inside : method.chars ++ r.char :: (closing more).chars = u ++ rest := by
          simpa [literal] using (List.cons.inj behind).2
        have few := open_single method.unquoted (closing more) r
        rw [show method.unquoted.chars = method.chars from rfl, inside] at few
        exact few.suffix

theorem extractFetchMethod_options :
    extractFetchMethod final (fetchOptions q r path method more) =
      (slice (fetchOptions q r path method more) (1 + foundAt methodWord path.chars 4)).map
        extractFirstStringLiteralSimple := by
  have shape : fetchOptions q r path method more = [] ++ (q.char :: (path.chars ++ q.char ::
      ([',', ' ', '\x7b'] ++ (methodWord ++ ([':', ' '] ++
        (literal r method.chars ++ (closing more).chars)))))) := by
    simp [fetchOptions, literal, optionsLead, closing]
  have found := findLowered_args final methodWord_plain (by decide) q (by cases q <;> decide)
    [] [',', ' ', '\x7b'] (by simp) (by decide) path.chars
    ([':', ' '] ++ (literal r method.chars ++ (closing more).chars))
  rw [List.nil_append, List.length_nil, Nat.zero_add] at found
  rw [extractFetchMethod, scanFrom, shape, List.nil_append]
  exact found ▸ rfl

theorem optionsLead_lower : Theory.toLowercase final optionsLead = optionsLead :=
  lowercaseFrom_ascii final (by simp [optionsLead, methodWord]) []

theorem MethodText.lower_ne (m : MethodText) {text : List Char} (other : ',' ∈ text) :
    m.lower ≠ text := by
  rintro rfl
  obtain ⟨c, mem, isComma⟩ := List.mem_map.mp other
  have lower := m.isLower mem
  rw [isComma] at lower
  exact absurd lower (by decide)

/-- The word is found where a literal stands behind that is the method: between the path and the
method, or in the path where its quotes are of another kind than those of the method.  A cut behind
all that reads `get`. -/
def WordClear : Prop :=
  1 + foundAt methodWord path.chars 4 ≤ byteLength path.chars + 13 ∧
      (byteLength path.chars + 1 < 1 + foundAt methodWord path.chars 4 ∨ q ≠ r) ∨
    byteLength path.chars + 13 < 1 + foundAt methodWord path.chars 4 ∧
      method.lower = Method.get.chars

/-- No call of the server stands in the path, the quotes do not hide it, and the search for the
method is in range and lands at a good place. -/
def OptionsClear : Prop :=
  (∀ f ∈ serverPatterns, ¬ f.1 <:+: path.chars) ∧
    (q = .double ∨ r = .single ∨ path.chars = method.chars) ∧
      InRange methodWord (fetchOptions q r path method more) ∧ WordClear q r path method

/-- The method of the options is read where the word is found at a good place. -/
theorem fetchMethod_options_iff :
    (extractFetchMethod final (fetchOptions q r path method more)).map (methodOrGet final) =
        .ok method.lower ↔
      InRange methodWord (fetchOptions q r path method more) ∧ WordClear q r path method := by
  have ok := scanFrom_isOk_iff final methodWord_plain (by decide) extractFirstStringLiteralSimple
    (fetchOptions q r path method more)
  have scanned := extractFetchMethod_options final q r path more method
  rw [show scanFrom final methodWord extractFirstStringLiteralSimple _ = _ from scanned,
    map_isOk] at ok
  rw [scanned, ← ok, WordClear]
  generalize place : 1 + foundAt methodWord path.chars 4 = o
  cases cut : slice (fetchOptions q r path method more) o with
  | error panic => simp [Except.map, Except.isOk, Except.toBool]
  | ok rest =>
      have read := read_options q r path more method (by omega) cut
      simp only [Except.map, Except.ok.injEq, Except.isOk, Except.toBool, true_and, read]
      split
      · rename_i inPath
        by_cases same : q = r
        · have apart : optionsLead ≠ method.lower := (method.lower_ne (by decide)).symm
          simp [same, methodOrGet, optionsLead_lower, apart]
          omega
        · simp [same, methodOrGet_some]
          omega
      · split
        · simp [methodOrGet_some]
          omega
        · rw [methodOrGet_none]
          constructor
          · exact fun isGet => .inr ⟨by omega, isGet.symm⟩
          · rintro (⟨near, -⟩ | ⟨-, isGet⟩)
            · omega
            · exact isGet.symm

theorem callPath_options {f : List Char × List Char} (mem : f ∈ serverPatterns) :
    callPath f.1 (fetchOptionsText q r path method more) = none ↔ ¬ f.1 <:+: path.chars := by
  have known : f ∈ serverPatterns ++ axiosPatterns := List.mem_append_left _ mem
  have held := pattern_held known
  have plain := (patterns_shape known).2
  have shape : fetchOptionsText q r path method more = fetchPattern ++ q.char :: (path.chars ++
      q.char :: (optionsLead ++ r.char :: (method.chars ++ r.char :: (closing more).chars))) := by
    simp [fetchOptionsText, fetchOptions, literal, closing]
  rw [shape, callPath_skip held (plain q) (pattern_missing known (by decide)), ← cutFirst_eq_none]
  cases inside : cutFirst f.1 path.chars with
  | none =>
      rw [callPath_skip held (plain q) inside,
        callPath_skip held (plain r) (pattern_missing known (by decide)),
        callPath_skip held (plain r) (pattern_missing known (method.apart (by decide)))]
      exact iff_of_true (callPath_open (closing more).open) rfl
  | some cut =>
      rw [callPath_within held (plain q) inside, simple_eq_none_iff]
      refine iff_of_false (fun few => ?_) (Option.some_ne_none _)
      have quotes := few r
      simp only [List.count_append, List.count_cons, beq_self_eq_true, if_true] at quotes
      omega

theorem callText_call {c : Char} (solid : isWhitespace c = false) (text : List Char) :
    callText (c :: (text ++ [')'])) = c :: (text ++ [')']) := by
  have start : ∀ (d : Char) (l : List Char), isWhitespace d = false → trimStart (d :: l) = d :: l :=
    fun d l solid => List.dropWhile_cons_of_neg (by simp [solid])
  have whole : trim (c :: (text ++ [')'])) = c :: (text ++ [')']) := by
    rw [trim, start c _ solid, List.reverse_cons, List.reverse_append, List.reverse_singleton,
      List.singleton_append, List.cons_append, start ')' _ (by decide)]
    simp
  rw [callText, whole, ← List.cons_append]
  exact List.rdropWhile_concat_neg _ _ _ (by decide)

theorem callText_fetch (behind : List Char) :
    callText (fetchPattern ++ (behind ++ [')'])) = fetchPattern ++ (behind ++ [')']) :=
  @callText_call 'f' (by decide) (['e', 't', 'c', 'h', '('] ++ behind)

theorem parse_server {text : List Char} (whole : callText text = text)
    {call : List Char × List Char} (server : firstCall serverPatterns text = some call) :
    parseJsHttpExpression final text = .ok (some (call.1, call.2, .exporting)) := by
  simp only [parseJsHttpExpression, whole, server]

/-- A call of `fetch` that no pattern of the server is found in. -/
theorem parse_fetch {behind lit : List Char}
    (server : firstCall serverPatterns (fetchPattern ++ (behind ++ [')'])) = none)
    (read : extractFirstStringLiteralSimple (behind ++ [')']) = some lit) :
    parseJsHttpExpression final (fetchPattern ++ (behind ++ [')'])) =
      ((extractFetchMethod final (behind ++ [')'])).map (methodOrGet final)).map fun method =>
        some (method, lit, .importing) := by
  simp only [parseJsHttpExpression, callText_fetch, server, fetchCall, fetchArguments, cutFirst_here,
    Option.bind_some, read, Option.map_some]
  cases extractFetchMethod final (behind ++ [')']) <;> rfl

/-- The word is found behind a quote that it does not hold. -/
theorem findLowered_late {word : List Char} (plain : ∀ x ∈ word, Plain x) (held : word ≠ [])
    (unquoted : q.char ∉ word) {s : List Char} {o : Nat}
    (found : findLowered final word (q.char :: s) = some o) : 1 ≤ o := by
  obtain ⟨x, word, rfl⟩ := List.exists_cons_of_ne_nil held
  have free : x ∉ [q.char].map Char.toLower := by
    rw [List.map_singleton, q.toLower, List.mem_singleton]
    exact fun same => unquoted (same ▸ List.mem_cons_self)
  rw [findLowered_eq final plain held, ← List.singleton_append, List.map_append,
    cutFirst_append_of_free free, Option.map_map, Option.map_eq_some_iff] at found
  obtain ⟨cut, -, rfl⟩ := found
  have positive : 0 < byteLength (lowerChar q.char) := byteLength_pos (lowerChar_ne_nil _)
  simp only [Function.comp_apply, List.map_singleton, List.singleton_append, List.length_cons,
    List.take_succ_cons, loweredLength_cons]
  omega

/-- Behind one literal that is alone there is no other. -/
theorem scanFrom_alone {word : List Char} (plain : ∀ x ∈ word, Plain x) (held : word ≠ [])
    (unquoted : q.char ∉ word) {s : List Char} (few : Open s) {found : Option (List Char)}
    (scanned : scanFrom final word extractFirstStringLiteralSimple (q.char :: s) = .ok found) :
    found = none := by
  rw [scanFrom] at scanned
  cases place : findLowered final word (q.char :: s) with
  | none =>
      rw [place] at scanned
      exact (Except.ok.inj scanned).symm
  | some o =>
      have late := findLowered_late final q plain held unquoted place
      rw [place] at scanned
      cases cut : slice (q.char :: s) o with
      | error panic =>
          simp only [cut, Except.map] at scanned
          cases scanned
      | ok rest =>
          obtain ⟨front, whole, size⟩ := slice_eq_ok.mp cut
          cases front with
          | nil =>
              rw [byteLength_nil] at size
              omega
          | cons c front =>
              simp only [cut, Except.map, Except.ok.injEq] at scanned
              rw [← scanned, simple_eq_none_iff]
              rw [(List.cons.inj whole).2] at few
              exact few.suffix

/-- **`fetch(p)` is read as it is written exactly where the search is in range.** -/
theorem fetch_read_iff :
    parseJsHttpExpression final (fetchText q path) =
        .ok (some (Method.get.chars, path.chars, .importing)) ↔
      InRange methodWord (literal q path.chars ++ [')']) := by
  have few : Open (path.chars ++ q.char :: [')']) := open_single path parenthesis q
  have server : firstCall serverPatterns (fetchPattern ++ (literal q path.chars ++ [')'])) = none := by
    rw [firstCall_eq_none]
    intro f mem
    have known : f ∈ serverPatterns ++ axiosPatterns := List.mem_append_left _ mem
    have skipped := @callPath_skip f.1 fetchPattern (path.chars ++ q.char :: [')']) q
      (pattern_held known) ((patterns_shape known).2 q) (pattern_missing known (by decide))
    rw [literal, List.cons_append, List.append_assoc, List.singleton_append, skipped]
    exact callPath_open few
  have ok := scanFrom_isOk_iff final methodWord_plain (by decide) extractFirstStringLiteralSimple
    (literal q path.chars ++ [')'])
  rw [fetchText, parse_fetch final server (simple_alone .nothing path parenthesis q), ← ok,
    ← extractFetchMethod]
  cases scanned : extractFetchMethod final (literal q path.chars ++ [')']) with
  | error panic => simp [Except.map, Except.isOk, Except.toBool]
  | ok found =>
      rw [extractFetchMethod, literal, List.cons_append, List.append_assoc,
        List.singleton_append] at scanned
      have nothing := scanFrom_alone final q methodWord_plain (by decide) (by cases q <;> decide) few
        scanned
      simp [Except.map, Except.isOk, Except.toBool, nothing, methodOrGet_none]

/-- The path of the options is read, unless the method takes its place. -/
theorem simple_options :
    extractFirstStringLiteralSimple (fetchOptions q r path method more) =
      some (if q = .double ∨ r = .single then path.chars else method.chars) := by
  have shape : fetchOptions q r path method more = Unquoted.nothing.chars ++
      (literal q path.chars ++ (optionsLeadText.chars ++
        (literal r method.unquoted.chars ++ (closing more).chars))) := by
    simp [fetchOptions, closing, Unquoted.nothing, optionsLeadText, MethodText.unquoted]
  rw [shape]
  exact simple_two .nothing path optionsLeadText method.unquoted (closing more) q r

/-- **`fetch(p, {method: m})` is read as it is written exactly where its options are clear.** -/
theorem fetchOptions_read_iff :
    parseJsHttpExpression final (fetchOptionsText q r path method more) =
        .ok (some (method.lower, path.chars, .importing)) ↔
      OptionsClear q r path more method := by
  rw [OptionsClear, ← fetchMethod_options_iff final]
  have known : (∀ f ∈ serverPatterns, ¬ f.1 <:+: path.chars) ↔
      firstCall serverPatterns (fetchOptionsText q r path method more) = none := by
    rw [firstCall_eq_none]
    exact forall₂_congr fun f mem => (callPath_options q r path more method mem).symm
  obtain ⟨behind, ends⟩ : ∃ behind, fetchOptions q r path method more = behind ++ [')'] :=
    ⟨literal q path.chars ++ (optionsLead ++ (literal r method.chars ++ (more.chars ++ ['\x7d']))),
      by simp [fetchOptions]⟩
  have read := simple_options q r path more method
  rw [known, fetchOptionsText]
  rw [ends] at read ⊢
  cases server : firstCall serverPatterns (fetchPattern ++ (behind ++ [')'])) with
  | some call =>
      rw [parse_server final (callText_fetch behind) server]
      simp
  | none =>
      rw [parse_fetch final server read]
      rw [← read_quotes]
      cases (extractFetchMethod final (behind ++ [')'])).map (methodOrGet final) with
      | error panic => simp [Except.map]
      | ok found => simp [Except.map, and_comm]

end Fetch

end Ministr.Bridge.HttpRoute
