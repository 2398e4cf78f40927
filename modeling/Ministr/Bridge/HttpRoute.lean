/-
# Bridge.HttpRoute — routes and calls in the text of a node

Routes and calls are recognised in the text of a syntax node: a pattern is searched, the first
string literal behind it is the path, and the method is that of the pattern or the literal behind
the word `method` or `methods`.

That word is searched in the lower-cased text, but it is the text itself that is cut at the offset
found.  Lower case does not keep offsets, so the cut can fall inside a character or behind the end,
where the slice panics.  `scanners_inRange_iff` says on which texts it does not.
-/
import Ministr.Bridge.Linker
import Ministr.Git.Diff
import Ministr.Theory.Lowercase

namespace Ministr.Bridge.HttpRoute

open Ministr.Theory Ministr.Content Ministr.Git

set_option autoImplicit false

/-! ## Names -/

/-- `HTTP_METHODS`. -/
def httpMethods : List (List Char) :=
  ["get", "post", "put", "delete", "patch", "head", "options"].map String.toList

/-- `RUST_ROUTE_ATTRS`. -/
def rustRouteAttrs : List (List Char) :=
  ["get", "post", "put", "delete", "patch", "head", "options", "route"].map String.toList

/-- `PYTHON_ROUTE_RECEIVERS`. -/
def pythonRouteReceivers : List (List Char) :=
  ["app", "router", "blueprint", "bp"].map String.toList

/-- `JS_ROUTE_RECEIVERS`. -/
def jsRouteReceivers : List (List Char) :=
  ["app", "router", "server", "fastify", "express"].map String.toList

def methodWord : List Char := ['m', 'e', 't', 'h', 'o', 'd']

def methodsWord : List Char := ['m', 'e', 't', 'h', 'o', 'd', 's']

def routeWord : List Char := ['r', 'o', 'u', 't', 'e']

def defaultMethod : List Char := ['G', 'E', 'T']

/-! ## Literals -/

/-- What stands between the first quote and the next. -/
def quoted (q : Char) (text : List Char) : Option (List Char) :=
  (cutFirst [q] text).bind fun opening => (cutFirst [q] opening.2).map Prod.fst

/-- `extract_first_string_literal_simple`. -/
def extractFirstStringLiteralSimple (s : List Char) : Option (List Char) :=
  let s := trim s
  (quoted '"' s).or (quoted '\'' s)

/-- `strip_suffix`. -/
def stripEnd (mark text : List Char) : Option (List Char) :=
  if mark <:+ text then some (text.take (text.length - mark.length)) else none

/-- `extract_first_string_literal`. -/
def extractFirstStringLiteral (s : List Char) : Option (List Char) :=
  ((stripStart ['('] (trim s)).bind (stripEnd [')'])).bind (quoted '"')

/-! ## The scanners -/

/-- A slice from an index that is past the end or inside a character. -/
structure SlicePanic where
  index : Nat
  deriving DecidableEq, Repr

/-- `&text[index..]`. -/
def slice (text : List Char) (index : Nat) : Except SlicePanic (List Char) :=
  match sliceFrom text index with
  | some rest => .ok rest
  | none => .error ⟨index⟩

section Model

variable (final : List Char → List Char → Bool)

/-- `s.to_lowercase().find(word)`. -/
def findLowered (word s : List Char) : Option Nat :=
  (cutFirst word (toLowercase final s)).map fun cut => byteLength cut.1

/-- The text from the word on, as far as the index tells. -/
def scanFrom (word : List Char) (read : List Char → Option (List Char)) (s : List Char) :
    Except SlicePanic (Option (List Char)) :=
  match findLowered final word s with
  | none => .ok none
  | some index => (slice s index).map read

/-- `extract_route_method_param`. -/
def extractRouteMethodParam (s : List Char) : Except SlicePanic (Option (List Char)) :=
  scanFrom final methodWord
    (fun rest => (cutFirst ['='] rest).bind fun cut => quoted '"' (trim cut.2)) s

/-- `extract_python_route_methods_param`. -/
def extractPythonRouteMethodsParam (s : List Char) : Except SlicePanic (Option (List Char)) :=
  scanFrom final methodsWord
    (fun rest => (cutFirst ['='] rest).bind fun cut => extractFirstStringLiteralSimple cut.2) s

/-- `extract_fetch_method`. -/
def extractFetchMethod (s : List Char) : Except SlicePanic (Option (List Char)) :=
  scanFrom final methodWord extractFirstStringLiteralSimple s

/-- The method that was read, or `GET`, in lower case. -/
def methodOrGet (method : Option (List Char)) : List Char :=
  toLowercase final (method.getD defaultMethod)

/-! ## Attributes -/

/-- What stands between `#[` and `]`. -/
def attributeInner (text : List Char) : Option (List Char) :=
  (stripStart ['#', '['] (trim text)).bind (stripEnd [']'])

def methodAttribute (inner : List Char) : Option (List Char × List Char) :=
  (rustRouteAttrs.filter fun method => method ≠ routeWord).findSome? fun method =>
    (stripStart method inner).bind fun rest =>
      (extractFirstStringLiteral (trim rest)).map fun path => (method, path)

/-- The arguments of `route`, and their path. -/
def routeAttribute (inner : List Char) : Option (List Char × List Char) :=
  (stripStart routeWord inner).bind fun rest =>
    (extractFirstStringLiteral (trim rest)).map fun path => (trim rest, path)

/-- `parse_route_attribute_text`. -/
def parseRouteAttributeText (text : List Char) :
    Except SlicePanic (Option (List Char × List Char)) :=
  match attributeInner text with
  | none => .ok none
  | some inner =>
      match methodAttribute inner with
      | some found => .ok (some found)
      | none =>
          match routeAttribute inner with
          | none => .ok none
          | some (rest, path) =>
              (extractRouteMethodParam final rest).map fun method =>
                some (methodOrGet final method, path)

/-! ## Decorators -/

/-- The name behind the receiver, and the arguments with their parenthesis. -/
def decoratorCall (text : List Char) : Option (List Char × List Char) :=
  (stripStart ['@'] text).bind fun text =>
    (cutFirst ['.'] text).bind fun dot =>
      if pythonRouteReceivers.any fun receiver => decide (receiver <:+: dot.1) then
        (cutFirst ['('] dot.2).map fun paren => (trim paren.1, '(' :: paren.2)
      else none

/-- `parse_python_decorator_text`. -/
def parsePythonDecoratorText (text : List Char) :
    Except SlicePanic (Option (List Char × List Char)) :=
  match decoratorCall text with
  | none => .ok none
  | some (methodName, args) =>
      if methodName = routeWord then
        match extractFirstStringLiteralSimple args with
        | none => .ok none
        | some path =>
            (extractPythonRouteMethodsParam final args).map fun method =>
              some (methodOrGet final method, path)
      else if toLowercase final methodName ∈ httpMethods then
        .ok ((extractFirstStringLiteralSimple args).map fun path =>
          (toLowercase final methodName, path))
      else .ok none

/-! ## Calls -/

/-- The receivers with each of the methods, in the order of the two loops. -/
def serverPatterns : List (List Char × List Char) :=
  jsRouteReceivers.flatMap fun receiver =>
    httpMethods.map fun method => (receiver ++ '.' :: (method ++ ['(']), method)

def axiosPatterns : List (List Char × List Char) :=
  httpMethods.map fun method =>
    (['a', 'x', 'i', 'o', 's'] ++ '.' :: (method ++ ['(']), method)

/-- The literal behind a pattern. -/
def callPath (pattern text : List Char) : Option (List Char) :=
  (cutFirst pattern text).bind fun cut => extractFirstStringLiteralSimple cut.2

/-- The first of the patterns with a literal behind it. -/
def firstCall (patterns : List (List Char × List Char)) (text : List Char) :
    Option (List Char × List Char) :=
  patterns.findSome? fun pattern => (callPath pattern.1 text).map fun path => (pattern.2, path)

def fetchPattern : List Char := ['f', 'e', 't', 'c', 'h', '(']

/-- The arguments of `fetch`, and their path. -/
def fetchArguments (text : List Char) : Option (List Char × List Char) :=
  (cutFirst fetchPattern text).bind fun cut =>
    (extractFirstStringLiteralSimple cut.2).map fun path => (cut.2, path)

def fetchCall (text : List Char) : Except SlicePanic (Option (List Char × List Char)) :=
  match fetchArguments text with
  | none => .ok none
  | some (after, path) =>
      (extractFetchMethod final after).map fun method => some (methodOrGet final method, path)

/-- `trim().trim_end_matches(';')`. -/
def callText (text : List Char) : List Char := (trim text).rdropWhile fun c => c = ';'

/-- `parse_js_http_expression`. -/
def parseJsHttpExpression (text : List Char) :
    Except SlicePanic (Option (List Char × List Char × EndpointRole)) :=
  let text := callText text
  match firstCall serverPatterns text with
  | some (method, path) => .ok (some (method, path, .exporting))
  | none =>
      match fetchCall final text with
      | .error panic => .error panic
      | .ok (some (method, path)) => .ok (some (method, path, .importing))
      | .ok none =>
          .ok ((firstCall axiosPatterns text).map fun call => (call.1, call.2, .importing))

end Model

/-! ## Where the cut falls -/

/-- The first place where the word stands in the text, in any mix of cases. -/
structure FirstWord (word before here after : List Char) : Prop where
  spelled : here.map Char.toLower = word
  first : ∀ k < before.length,
    ¬ word <+: ((before ++ (here ++ after)).map Char.toLower).drop k

/-- The cut is at a place where the text can be cut: where the text in front of the word is shorter
in lower case, its length there is that of a start of it; where it is longer, and by more than the
word, the rest of it is that of a start of what follows the word. -/
def InRange (word s : List Char) : Prop :=
  ∀ before here after, s = before ++ (here ++ after) → FirstWord word before here after →
    (loweredLength before < byteLength before → IsBoundary before (loweredLength before)) ∧
      (byteLength before + byteLength here < loweredLength before →
        IsBoundary after (loweredLength before - byteLength before - byteLength here))

theorem firstWord_iff {word before here after : List Char}
    (long : here.length = word.length) :
    FirstWord word before here after ↔
      cutFirst word ((before ++ (here ++ after)).map Char.toLower) =
        some (before.map Char.toLower, after.map Char.toLower) := by
  rw [cutFirst_eq_some, List.length_map]
  constructor
  · rintro ⟨spelled, first⟩
    exact ⟨by rw [List.map_append, List.map_append, spelled], first⟩
  · rintro ⟨whole, first⟩
    rw [List.map_append, List.map_append] at whole
    have behind := List.append_cancel_left whole
    exact ⟨(List.append_inj behind (by simpa using long)).1, first⟩

theorem firstWord_unique {word before here after before' here' after' : List Char}
    (first : FirstWord word before here after) (first' : FirstWord word before' here' after')
    (whole : before ++ (here ++ after) = before' ++ (here' ++ after')) :
    before = before' ∧ here = here' ∧ after = after' := by
  have long : here.length = word.length := by rw [← first.spelled, List.length_map]
  have long' : here'.length = word.length := by rw [← first'.spelled, List.length_map]
  have found := (firstWord_iff long).mp first
  rw [whole, (firstWord_iff long').mp first'] at found
  have sizes := congrArg List.length (Prod.mk.inj (Option.some.inj found)).1
  rw [List.length_map, List.length_map] at sizes
  obtain ⟨front, behind⟩ := List.append_inj whole sizes.symm
  exact ⟨front, List.append_inj behind (long.trans long'.symm)⟩

/-- A word that is found stands there in some mix of cases. -/
theorem exists_firstWord {word s front back : List Char}
    (found : cutFirst word (s.map Char.toLower) = some (front, back)) :
    ∃ before here after, s = before ++ (here ++ after) ∧ before.length = front.length ∧
      FirstWord word before here after := by
  obtain ⟨whole, first⟩ := cutFirst_eq_some.mp found
  obtain ⟨before, rest, rfl, isFront, behind⟩ := List.map_eq_append_iff.mp whole
  obtain ⟨here, after, rfl, spelled, -⟩ := List.map_eq_append_iff.mp behind
  have long : before.length = front.length := by rw [← isFront, List.length_map]
  exact ⟨before, here, after, rfl, long, spelled, long.symm ▸ first⟩

theorem isBoundary_around {before here after : List Char} (ascii : ∀ c ∈ here, c.toNat < 128)
    (o : Nat) :
    IsBoundary (before ++ (here ++ after)) o ↔
      (o < byteLength before → IsBoundary before o) ∧
        (byteLength before + byteLength here < o →
          IsBoundary after (o - byteLength before - byteLength here)) := by
  rw [isBoundary_append]
  rcases Nat.lt_or_ge o (byteLength before) with short | long
  · constructor
    · rintro (⟨-, inside⟩ | ⟨far, -⟩)
      · exact ⟨fun _ => inside, fun far => absurd far (by omega)⟩
      · exact absurd far (by omega)
    · rintro ⟨inside, -⟩
      exact .inl ⟨short, inside short⟩
  · have size := byteLength_ascii ascii
    rw [isBoundary_append]
    constructor
    · rintro (⟨near, -⟩ | ⟨-, ⟨near, -⟩ | ⟨-, inside⟩⟩)
      · exact absurd near (by omega)
      · exact ⟨fun near' => absurd near' (by omega), fun far => absurd far (by omega)⟩
      · exact ⟨fun near' => absurd near' (by omega), fun _ => inside⟩
    · rintro ⟨-, inside⟩
      refine .inr ⟨long, ?_⟩
      rcases Nat.lt_or_ge (o - byteLength before) (byteLength here) with near | far
      · exact .inl ⟨near, isBoundary_ascii ascii (by omega)⟩
      · refine .inr ⟨far, ?_⟩
        rcases Nat.eq_or_lt_of_le far with at_ | beyond
        · rw [← at_, Nat.sub_self]
          exact ⟨[], List.nil_prefix, rfl⟩
        · exact inside (by omega)

section Scan

variable (final : List Char → List Char → Bool) {word : List Char}

theorem slice_isOk_iff (text : List Char) (index : Nat) :
    (slice text index).isOk = true ↔ IsBoundary text index := by
  rw [← sliceFrom_isSome_iff, slice]
  cases sliceFrom text index <;> simp [Except.isOk, Except.toBool]

theorem map_isOk {ε α β : Type} (f : α → β) (x : Except ε α) : (x.map f).isOk = x.isOk := by
  cases x <;> rfl

/-- What the search in lower case finds. -/
theorem findLowered_eq (plain : ∀ x ∈ word, Plain x) (held : word ≠ []) (s : List Char) :
    findLowered final word s = (cutFirst word (s.map Char.toLower)).map fun cut =>
      loweredLength (s.take cut.1.length) :=
  cutFirst_toLowercase final plain held s

theorem findLowered_firstWord (plain : ∀ x ∈ word, Plain x) (held : word ≠ [])
    {before here after : List Char} (first : FirstWord word before here after) :
    findLowered final word (before ++ (here ++ after)) = some (loweredLength before) := by
  have long : here.length = word.length := by rw [← first.spelled, List.length_map]
  rw [findLowered_eq final plain held, (firstWord_iff long).mp first, Option.map_some,
    List.length_map, List.take_left]

theorem FirstWord.ascii (plain : ∀ x ∈ word, Plain x) {before here after : List Char}
    (first : FirstWord word before here after) : ∀ c ∈ here, c.toNat < 128 := by
  intro c mem
  have lowered : c.toLower ∈ word := first.spelled ▸ List.mem_map_of_mem mem
  exact ascii_of_toLower (plain _ lowered) rfl

/-- **A scanner does not panic exactly where the cut is in range.** -/
theorem scanFrom_isOk_iff (plain : ∀ x ∈ word, Plain x) (held : word ≠ [])
    (read : List Char → Option (List Char)) (s : List Char) :
    (scanFrom final word read s).isOk = true ↔ InRange word s := by
  cases found : cutFirst word (s.map Char.toLower) with
  | none =>
      have missing : findLowered final word s = none := by
        rw [findLowered_eq final plain held, found, Option.map_none]
      rw [scanFrom, missing]
      refine iff_of_true rfl fun before here after whole first => ?_
      subst whole
      rw [findLowered_firstWord final plain held first] at missing
      cases missing
  | some cut =>
      obtain ⟨before, here, after, rfl, -, first⟩ := exists_firstWord found
      have index := findLowered_firstWord final plain held first
      rw [scanFrom, index]
      refine (Bool.eq_iff_iff.mp (map_isOk read _)).trans ?_
      rw [slice_isOk_iff, isBoundary_around (first.ascii plain)]
      constructor
      · intro inside before' here' after' whole first'
        obtain ⟨rfl, rfl, rfl⟩ := firstWord_unique first first' whole
        exact inside
      · exact fun inside => inside before here after rfl first

theorem methodWord_plain : ∀ x ∈ methodWord, Plain x := by simp [methodWord, Plain]

theorem methodsWord_plain : ∀ x ∈ methodsWord, Plain x := by simp [methodsWord, Plain]

/-- **The scanners do not panic exactly where their cut is in range, and the parsers exactly where
the cut of the scanner they come to is.** -/
theorem scanners_inRange_iff :
    (∀ s, ((extractRouteMethodParam final s).isOk = true ↔ InRange methodWord s) ∧
      ((extractPythonRouteMethodsParam final s).isOk = true ↔ InRange methodsWord s) ∧
      ((extractFetchMethod final s).isOk = true ↔ InRange methodWord s)) ∧
    ∀ text,
      ((parseRouteAttributeText final text).isOk = true ↔
        ∀ inner, attributeInner text = some inner → methodAttribute inner = none →
          ∀ rest path, routeAttribute inner = some (rest, path) → InRange methodWord rest) ∧
      ((parsePythonDecoratorText final text).isOk = true ↔
        ∀ args, decoratorCall text = some (routeWord, args) →
          extractFirstStringLiteralSimple args ≠ none → InRange methodsWord args) ∧
      ((parseJsHttpExpression final text).isOk = true ↔
        (firstCall serverPatterns (callText text) = none →
          ∀ after path, fetchArguments (callText text) = some (after, path) →
            InRange methodWord after)) := by
  have scanned : ∀ s, ((extractRouteMethodParam final s).isOk = true ↔ InRange methodWord s) ∧
      ((extractPythonRouteMethodsParam final s).isOk = true ↔ InRange methodsWord s) ∧
      ((extractFetchMethod final s).isOk = true ↔ InRange methodWord s) := fun s =>
    ⟨scanFrom_isOk_iff final methodWord_plain (by decide) _ s,
      scanFrom_isOk_iff final methodsWord_plain (by decide) _ s,
      scanFrom_isOk_iff final methodWord_plain (by decide) _ s⟩
  refine ⟨scanned, fun text => ⟨?_, ?_, ?_⟩⟩
  · rw [parseRouteAttributeText]
    cases isAttribute : attributeInner text with
    | none => simp [Except.isOk, Except.toBool]
    | some inner =>
        dsimp only
        cases direct : methodAttribute inner with
        | some found => simp [Except.isOk, Except.toBool, direct]
        | none =>
            cases route : routeAttribute inner with
            | none => simp [Except.isOk, Except.toBool, route]
            | some call =>
                obtain ⟨rest, path⟩ := call
                refine (Bool.eq_iff_iff.mp (map_isOk _ _)).trans ((scanned rest).1.trans ?_)
                simp [direct, route]
  · rw [parsePythonDecoratorText]
    cases isCall : decoratorCall text with
    | none => simp [Except.isOk, Except.toBool]
    | some call =>
        obtain ⟨methodName, args⟩ := call
        dsimp only
        by_cases route : methodName = routeWord
        · rw [if_pos route]
          cases literal : extractFirstStringLiteralSimple args with
          | none => simp [Except.isOk, Except.toBool, literal]
          | some path =>
              refine (Bool.eq_iff_iff.mp (map_isOk _ _)).trans ((scanned args).2.1.trans ?_)
              simp [route, literal]
        · rw [if_neg route]
          split <;> simp [Except.isOk, Except.toBool, route]
  · rw [parseJsHttpExpression]
    cases server : firstCall serverPatterns (callText text) with
    | some found => simp [Except.isOk, Except.toBool]
    | none =>
        rw [fetchCall]
        cases fetch : fetchArguments (callText text) with
        | none => simp [Except.isOk, Except.toBool]
        | some call =>
            obtain ⟨after, path⟩ := call
            have ok := (scanned after).2.2
            dsimp only
            cases method : extractFetchMethod final after with
            | error panic =>
                rw [method] at ok
                simpa [Except.isOk, Except.toBool, Except.map] using ok
            | ok found =>
                rw [method] at ok
                simpa [Except.isOk, Except.toBool, Except.map] using ok

end Scan

/-- The Kelvin sign has three bytes and its lower case has one. -/
def kelvinCall : List Char := "fetch(\"/\u212Amethod\")".toList

theorem kelvinCall_panics :
    (parseJsHttpExpression (fun _ _ => false) kelvinCall).isOk = false := by
  decide

end Ministr.Bridge.HttpRoute
