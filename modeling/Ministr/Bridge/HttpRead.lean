/-
# Bridge.HttpRead — which calls are read as they are written

A call of a receiver or of `axios` is read as it is written where nothing in its arguments is found
first; a `fetch` and a `route` where the search for the method word lands at a good place, and where
the quotes are not mixed in the one way that takes another literal for the path.  `calls_read_iff`
puts the shapes together.
-/
import Ministr.Bridge.HttpFetch
import Ministr.Code.Diagnostics

namespace Ministr.Bridge.HttpRoute

open Ministr.Theory Ministr.Content Ministr.Git

set_option autoImplicit false

/-! ## Calls of a receiver -/

structure Receiver where
  chars : List Char
  known : chars ∈ jsRouteReceivers

def serverPattern (receiver : Receiver) (method : Method) : List Char × List Char :=
  (receiver.chars ++ '.' :: (method.chars ++ ['(']), method.chars)

def axiosPattern (method : Method) : List Char × List Char :=
  (['a', 'x', 'i', 'o', 's'] ++ '.' :: (method.chars ++ ['(']), method.chars)

/-- The patterns that are tried before one. -/
def earlier (patterns : List (List Char × List Char)) (own : List Char × List Char) :
    List (List Char × List Char) := patterns.takeWhile fun f => f ≠ own

/-- What stands behind the opening quote of a call. -/
def behindQuote (q : Quote) (path : Unquoted) (more : List Char) : List Char :=
  path.chars ++ q.char :: (more ++ [')'])

/-- No literal in double quotes takes the place of the path. -/
def PathRead (q : Quote) (path : Unquoted) (more : List Char) : Prop :=
  q = .double ∨ ∀ lit, Between '"' more lit → lit = path.chars

section Calls

variable (final : List Char → List Char → Bool) (q : Quote) (path : Unquoted) (more : List Char)
  (receiver : Receiver) (method : Method)

theorem serverPattern_mem : serverPattern receiver method ∈ serverPatterns :=
  List.mem_flatMap.mpr ⟨_, receiver.known, List.mem_map.mpr ⟨_, method.known, rfl⟩⟩

theorem axiosPattern_mem : axiosPattern method ∈ axiosPatterns :=
  List.mem_map.mpr ⟨_, method.known, rfl⟩

theorem callOf_eq (own : List Char × List Char) :
    callOf q path own more = own.1 ++ q.char :: behindQuote q path more := by
  simp [callOf, literal, behindQuote]

theorem callText_callOf {own : List Char × List Char} (mem : own ∈ serverPatterns ++ axiosPatterns) :
    callText (callOf q path own more) = callOf q path own more := by
  have all : ((serverPatterns ++ axiosPatterns).all fun f =>
      f.1.head?.any fun c => !isWhitespace c) = true := by decide
  obtain ⟨c, first, solid⟩ := (Option.any_eq_true _ _).mp (List.all_eq_true.mp all own mem)
  obtain ⟨rest, isOwn⟩ := List.head?_eq_some_iff.mp first
  have shape : callOf q path own more =
      c :: ((rest ++ (literal q path.chars ++ more)) ++ [')']) := by
    simp [callOf, isOwn]
  rw [shape]
  exact callText_call (by simpa using solid) _

/-- The literal that a call has behind its own pattern. -/
theorem exists_read : ∃ lit,
    extractFirstStringLiteralSimple (q.char :: behindQuote q path more) = some lit ∧
      (lit = path.chars ↔ PathRead q path more) := by
  have shape : q.char :: behindQuote q path more =
      Unquoted.nothing.chars ++ (literal q path.chars ++ (more ++ [')'])) := by
    simp [literal, behindQuote, Unquoted.nothing]
  rw [shape, simple_literal]
  by_cases double : q = .double
  · rw [if_pos double]
    exact ⟨_, rfl, iff_of_true rfl (.inl double)⟩
  · rw [if_neg double, quoted_concat_of_free (by decide), PathRead]
    cases found : quoted '"' more with
    | none =>
        refine ⟨_, rfl, iff_of_true rfl (.inr fun lit isLit => ?_)⟩
        rw [quoted_eq_some.mpr isLit] at found
        cases found
    | some lit =>
        refine ⟨lit, rfl, fun same => .inr fun lit' isLit => ?_, fun read => ?_⟩
        · rw [quoted_eq_some.mpr isLit] at found
          exact (Option.some.inj found).trans same
        · exact read.resolve_left double lit (quoted_eq_some.mp found)

/-- No pattern that is tried before its own has a literal in the arguments of the call, or the first
that has one has the same method and path. -/
def ServerClear : Prop :=
  FirstRead (earlier serverPatterns (serverPattern receiver method)) (behindQuote q path more)
      method.chars path.chars ∨
    (∀ f ∈ earlier serverPatterns (serverPattern receiver method),
      Unread f.1 (behindQuote q path more)) ∧ PathRead q path more

/-- **A call of a receiver is read as it is written exactly where its arguments are clear.** -/
theorem server_read_iff :
    parseJsHttpExpression final (callOf q path (serverPattern receiver method) more) =
        .ok (some (method.chars, path.chars, .exporting)) ↔
      ServerClear q path more receiver method := by
  obtain ⟨lit, read, isPath⟩ := exists_read q path more
  have mem := serverPattern_mem receiver method
  have own := firstCall_own mem
    (fun f known => ⟨pattern_held (List.mem_append_left _ known),
      (patterns_shape (List.mem_append_left _ known)).2 q⟩)
    (fun f known => patterns_apart f (List.mem_append_left _ known) _ (List.mem_append_left _ mem))
    read
  have whole : callText (callOf q path (serverPattern receiver method) more) =
      callOf q path (serverPattern receiver method) more :=
    callText_callOf q path more (List.mem_append_left _ mem)
  rw [← callOf_eq, ← earlier] at own
  rw [ServerClear, ← isPath, ← firstCall_eq_some, ← firstCall_unread]
  cases before : firstCall (earlier serverPatterns (serverPattern receiver method))
      (behindQuote q path more) with
  | some call =>
      rw [before, Option.some_or] at own
      rw [parse_server final whole own]
      simp [Prod.ext_iff]
  | none =>
      rw [before, Option.none_or] at own
      rw [parse_server final whole own]
      simp [serverPattern]

theorem fetchArguments_skip {head behind : List Char} (missing : cutFirst fetchPattern head = none) :
    fetchArguments (head ++ q.char :: behind) = fetchArguments behind := by
  rw [fetchArguments, fetchArguments,
    cutFirst_append_cons (by decide) (by cases q <;> decide), missing, Option.bind_map]
  rfl

theorem axiosPattern_own {f : List Char × List Char} (mem : f ∈ axiosPatterns)
    (same : f.2 = method.chars) : f = axiosPattern method := by
  obtain ⟨m, -, rfl⟩ := List.mem_map.mp mem
  rw [axiosPattern, ← same]

/-- An earlier pattern of `axios` is one of another method. -/
theorem axios_earlier {text lit : List Char} :
    ¬ FirstRead (earlier axiosPatterns (axiosPattern method)) text method.chars lit := by
  rintro ⟨before, f, after, whole, same, -, -⟩
  have mem : f ∈ earlier axiosPatterns (axiosPattern method) := by
    rw [whole]
    exact List.mem_append_right _ List.mem_cons_self
  have differ := List.mem_takeWhile_imp mem
  rw [decide_eq_true_eq] at differ
  exact differ (axiosPattern_own method ((List.takeWhile_prefix _).subset mem) same)

/-- No call of the server is read in the arguments, and either a `fetch` that is read there has the
same method and path, or no `fetch` and no earlier pattern is. -/
def AxiosClear : Prop :=
  (∀ f ∈ serverPatterns, Unread f.1 (behindQuote q path more)) ∧
    (FetchRead final (behindQuote q path more) method.chars path.chars ∨
      Unread fetchPattern (behindQuote q path more) ∧
        (∀ f ∈ earlier axiosPatterns (axiosPattern method),
          Unread f.1 (behindQuote q path more)) ∧ PathRead q path more)

/-- **A call of `axios` is read as it is written exactly where its arguments are clear.** -/
theorem axios_read_iff :
    parseJsHttpExpression final (callOf q path (axiosPattern method) more) =
        .ok (some (method.chars, path.chars, .importing)) ↔
      AxiosClear final q path more method := by
  obtain ⟨lit, read, isPath⟩ := exists_read q path more
  have mem : axiosPattern method ∈ serverPatterns ++ axiosPatterns :=
    List.mem_append_right _ (axiosPattern_mem method)
  have own := firstCall_own (axiosPattern_mem method)
    (fun f known => ⟨pattern_held (List.mem_append_right _ known),
      (patterns_shape (List.mem_append_right _ known)).2 q⟩)
    (fun f known => patterns_apart f (List.mem_append_right _ known) _ mem) read
  have serverApart : ∀ f ∈ serverPatterns, f ≠ axiosPattern method := fun f known same => by
    have all : (serverPatterns.all fun f => !axiosPatterns.contains f) = true := by decide
    have found := List.all_eq_true.mp all f known
    rw [same] at found
    simp [axiosPattern_mem] at found
  have server : firstCall serverPatterns (callOf q path (axiosPattern method) more) =
      firstCall serverPatterns (behindQuote q path more) := by
    rw [callOf_eq]
    exact firstCall_congr fun f known => callPath_skip (pattern_held (List.mem_append_left _ known))
      ((patterns_shape (List.mem_append_left _ known)).2 q)
      (patterns_apart f (List.mem_append_left _ known) _ mem (serverApart f known))
  have fetchApart : cutFirst fetchPattern (axiosPattern method).1 = none := by
    have all : (axiosPatterns.all fun g => (cutFirst fetchPattern g.1).isNone) = true := by
      decide
    exact Option.isNone_iff_eq_none.mp (List.all_eq_true.mp all _ (axiosPattern_mem method))
  have fetch : fetchCall final (callOf q path (axiosPattern method) more) =
      fetchCall final (behindQuote q path more) := by
    rw [fetchCall, fetchCall, callOf_eq, fetchArguments_skip q fetchApart]
  rw [← callOf_eq, ← earlier] at own
  rw [AxiosClear, ← isPath, ← firstCall_unread, ← firstCall_unread, ← fetchCall_eq_some,
    ← fetchCall_eq_none final, parseJsHttpExpression]
  simp only [callText_callOf q path more mem, server, fetch, own]
  cases firstCall serverPatterns (behindQuote q path more) with
  | some call => simp
  | none =>
      cases fetchCall final (behindQuote q path more) with
      | error panic => simp
      | ok call =>
          cases call with
          | some call => simp [Prod.ext_iff]
          | none =>
              have other := @axios_earlier method (behindQuote q path more) path.chars
              rw [← firstCall_eq_some] at other
              cases before : firstCall (earlier axiosPatterns (axiosPattern method))
                  (behindQuote q path more) with
              | some call =>
                  rw [before] at other
                  simpa [Prod.ext_iff] using other
              | none => simp [axiosPattern]

end Calls

/-! ## Decorators -/

section Decorators

variable (final : List Char → List Char → Bool) (q r : Quote) (path : Unquoted)
  (method : MethodText)

theorem decoratorCall_app {name : List Char} (solid : ∀ c ∈ name, isWhitespace c = false)
    (open_ : '(' ∉ name) (args : List Char) :
    decoratorCall ("@app.".toList ++ (name ++ '(' :: args)) = some (name, '(' :: args) := by
  have dot : cutFirst ['.'] ("app.".toList ++ (name ++ '(' :: args)) =
      some ("app".toList, name ++ '(' :: args) := cutFirst_single.mpr ⟨rfl, by decide⟩
  have paren : cutFirst ['('] (name ++ '(' :: args) = some (name, args) :=
    cutFirst_single.mpr ⟨rfl, open_⟩
  have known : (pythonRouteReceivers.any fun receiver =>
      decide (receiver <:+: "app".toList)) = true := by decide
  have start : stripStart ['@'] ("@app.".toList ++ (name ++ '(' :: args)) =
      some ("app.".toList ++ (name ++ '(' :: args)) := stripStart_append ['@'] _
  rw [decoratorCall, start, Option.bind_some, dot, Option.bind_some, if_pos known, paren,
    Option.map_some,
    Code.Diagnostics.trim_of_visible solid]

/-- **`@app.m(p)` is read as it is written.** -/
theorem decorator_read :
    parsePythonDecoratorText final (decoratorText q path method) =
      .ok (some (method.lower, path.chars)) := by
  have call : decoratorCall (decoratorText q path method) =
      some (method.chars, '(' :: (literal q path.chars ++ [')'])) :=
    decoratorCall_app (fun c mem => method.visible mem) (method.apart (by decide)) _
  have other : method.chars ≠ routeWord := by
    intro same
    have known := method.known
    rw [same] at known
    exact absurd known (by decide)
  have read : extractFirstStringLiteralSimple ('(' :: (literal q path.chars ++ [')'])) =
      some path.chars := simple_alone ⟨['('], by decide, by decide⟩ path parenthesis q
  rw [parsePythonDecoratorText, call]
  simp only [if_neg other, method.toLowercase, if_pos (show method.lower ∈ httpMethods from
    method.known), read, Option.map_some]

/-- An equals sign stands in the path behind its first bytes. -/
def EqualsBehind (path : List Char) (bytes : Nat) : Prop :=
  ∃ u v, path = u ++ v ∧ byteLength u = bytes ∧ '=' ∈ v

theorem equalsBehind_iff {u v : List Char} : EqualsBehind (u ++ v) (byteLength u) ↔ '=' ∈ v := by
  constructor
  · rintro ⟨u', v', whole, size, mem⟩
    obtain ⟨w, rfl, behind⟩ := cut_within whole (Nat.le_of_eq size)
    rw [byteLength_append] at size
    have empty : w = [] := by
      by_contra held
      have positive := byteLength_pos held
      omega
    rw [behind, empty] at mem
    exact mem
  · exact fun mem => ⟨u, v, rfl, rfl, mem⟩

/-- What stands in front of the equals sign. -/
def methodsHead : List Char := [',', ' '] ++ methodsWord

def methodsLeadText : Unquoted := ⟨methodsLead, by decide, by decide⟩

def bracket : Unquoted := ⟨['['], by decide, by decide⟩

def closingList : Unquoted := ⟨[']', ')'], by decide, by decide⟩

theorem routeArgs_eq :
    routeArgs q r path method = ['(', q.char] ++ (path.chars ++ q.char ::
      (methodsHead ++ '=' :: '[' :: (literal r method.chars ++ closingList.chars))) := by
  simp [routeArgs, literal, methodsLead, methodsHead, closingList]

/-- What is read of the methods. -/
def readMethods (rest : List Char) : Option (List Char) :=
  (cutFirst ['='] rest).bind fun cut => extractFirstStringLiteralSimple cut.2

theorem readMethods_append {front : List Char} (free : '=' ∉ front) (back : List Char) :
    readMethods (front ++ '=' :: back) = extractFirstStringLiteralSimple back := by
  have cut : cutFirst ['='] (front ++ '=' :: back) = some (front, back) :=
    cutFirst_single.mpr ⟨rfl, free⟩
  rw [readMethods, cut, Option.bind_some]

/-- What is read behind a cut at `o`. -/
theorem read_route {o : Nat} {rest : List Char}
    (cut : slice (routeArgs q r path method) (2 + o) = .ok rest) :
    o ≤ byteLength path.chars + 10 ∧ (q = r ∧ EqualsBehind path.chars o) ∧
        readMethods rest = some methodsLead ∨
      o ≤ byteLength path.chars + 10 ∧ ¬ (q = r ∧ EqualsBehind path.chars o) ∧
        readMethods rest = some method.chars ∨
      byteLength path.chars + 10 < o ∧ readMethods rest = none := by
  obtain ⟨front, whole, size⟩ := slice_eq_ok.mp cut
  have head : byteLength ['(', q.char] = 2 := by
    rw [byteLength_cons, byteLength_cons, q.utf8Size, byteLength_nil]
    rfl
  have lead : byteLength methodsHead = 9 := by decide
  have alone : ∀ v, '=' ∉ v →
      readMethods (v ++ '=' :: '[' :: (literal r method.chars ++ closingList.chars)) =
        some method.chars := fun v free => by
    rw [readMethods_append free]
    exact simple_alone bracket method.unquoted closingList r
  have beyond : byteLength path.chars < o → ¬ EqualsBehind path.chars o := by
    rintro far ⟨u, v, inPath, short, -⟩
    rw [inPath, byteLength_append] at far
    omega
  rw [routeArgs_eq] at whole
  rcases landing q.utf8Size whole (by omega) with
    ⟨u, v, inPath, short, rfl⟩ | ⟨past, near, u, v, inLead, rfl⟩ | ⟨far, u, held, behind⟩
  · have small : byteLength u ≤ byteLength path.chars := by
      rw [inPath, byteLength_append]
      omega
    have at_ : o = byteLength u := by omega
    have inside : EqualsBehind path.chars o ↔ '=' ∈ v := by rw [inPath, at_, equalsBehind_iff]
    by_cases equals : '=' ∈ v
    · obtain ⟨v₁, v₂, rfl, free⟩ := List.eq_append_cons_of_mem equals
      have part : v₂ <:+: path.chars := ⟨u ++ (v₁ ++ ['=']), [], by simp [inPath]⟩
      have read := simple_after_quote (path.part v₂ part) methodsLeadText method.unquoted closingList
        q r
      have taken : readMethods (v₁ ++ '=' :: v₂ ++ q.char ::
          (methodsHead ++ '=' :: '[' :: (literal r method.chars ++ closingList.chars))) =
            some (if q = r then methodsLead else method.chars) := by
        rw [List.append_assoc, List.cons_append, readMethods_append free]
        simpa [methodsLeadText, methodsLead, methodsHead, Unquoted.part, MethodText.unquoted] using read
      rw [taken, inside]
      by_cases same : q = r
      · exact .inl ⟨by omega, ⟨same, equals⟩, by rw [if_pos same]⟩
      · exact .inr (.inl ⟨by omega, fun both => same both.1, by rw [if_neg same]⟩)
    · have free : '=' ∉ v ++ q.char :: methodsHead := by
        have quote : '=' ≠ q.char := by cases q <;> decide
        simp [equals, methodsHead, methodsWord, quote]
      have read := alone _ free
      rw [List.append_assoc, List.cons_append] at read
      exact .inr (.inl ⟨by omega, fun both => equals (inside.mp both.2), read⟩)
  · have free : '=' ∉ v := fun mem => by
      have inHead : '=' ∈ methodsHead := inLead ▸ List.mem_append_right _ mem
      exact absurd inHead (by decide)
    exact .inr (.inl ⟨by omega, fun both => beyond (by omega) both.2, alone v free⟩)
  · refine .inr (.inr ⟨by omega, ?_⟩)
    cases u with
    | nil => exact absurd rfl held
    | cons d u =>
        have free : '=' ∉ rest := fun mem => by
          have inside : '=' ∈ '[' :: (literal r method.chars ++ closingList.chars) :=
            (List.cons.inj behind).2.symm ▸ List.mem_append_right _ mem
          have apart : '=' ∉ method.chars := method.apart (by decide)
          have quote : '=' ≠ r.char := by cases r <;> decide
          simp [literal, closingList, apart, quote] at inside
        rw [readMethods, cutFirst_single_eq_none.mpr free, Option.bind_none]

theorem methodsLead_lower : Theory.toLowercase final methodsLead = methodsLead :=
  lowercaseFrom_ascii final (by simp [methodsLead, methodsWord]) []

/-- The word is found where the method is read behind the next equals sign.  A cut behind that sign
reads `get`. -/
def MethodsClear : Prop :=
  foundAt methodsWord path.chars 3 ≤ byteLength path.chars + 10 ∧
      ¬ (q = r ∧ EqualsBehind path.chars (foundAt methodsWord path.chars 3)) ∨
    byteLength path.chars + 10 < foundAt methodsWord path.chars 3 ∧
      method.lower = Method.get.chars

/-- The quotes do not hide the path, and the search for the methods is in range and lands at a good
place. -/
def RouteClear : Prop :=
  (q = .double ∨ r = .single ∨ path.chars = method.chars) ∧
    InRange methodsWord (routeArgs q r path method) ∧ MethodsClear q r path method

/-- The methods are read where the word is found at a good place. -/
theorem methodsParam_iff :
    (extractPythonRouteMethodsParam final (routeArgs q r path method)).map (methodOrGet final) =
        .ok method.lower ↔
      InRange methodsWord (routeArgs q r path method) ∧ MethodsClear q r path method := by
  have ok := scanFrom_isOk_iff final methodsWord_plain (by decide) readMethods
    (routeArgs q r path method)
  have shape : routeArgs q r path method = ['('] ++ (q.char :: (path.chars ++ q.char ::
      ([',', ' '] ++ (methodsWord ++ ('=' :: '[' ::
        (literal r method.chars ++ closingList.chars)))))) := by
    simp [routeArgs, literal, methodsLead, closingList]
  have found := findLowered_args final methodsWord_plain (by decide) q (by cases q <;> decide)
    ['('] [',', ' '] (by simp) (by decide) path.chars
    ('=' :: '[' :: (literal r method.chars ++ closingList.chars))
  have scanned : scanFrom final methodsWord readMethods (routeArgs q r path method) =
      (slice (routeArgs q r path method) (2 + foundAt methodsWord path.chars 3)).map
        readMethods := by
    rw [scanFrom, shape]
    exact found ▸ rfl
  rw [scanned, map_isOk] at ok
  rw [extractPythonRouteMethodsParam, ← ok, MethodsClear]
  change (scanFrom final methodsWord readMethods (routeArgs q r path method)).map _ = _ ↔ _
  rw [scanned]
  generalize foundAt methodsWord path.chars 3 = o
  cases cut : slice (routeArgs q r path method) (2 + o) with
  | error panic => simp [Except.map, Except.isOk, Except.toBool]
  | ok rest =>
      simp only [Except.map, Except.ok.injEq, Except.isOk, Except.toBool, true_and]
      rcases read_route q r path method cut with ⟨near, taken, read⟩ | ⟨near, free, read⟩ | ⟨far, read⟩
      · have apart : methodsLead ≠ method.lower := (method.lower_ne (by decide)).symm
        rw [read]
        refine iff_of_false (fun same => apart ?_) ?_
        · exact (methodsLead_lower final).symm.trans same
        · rintro (⟨-, free⟩ | ⟨far, -⟩)
          · exact free taken
          · omega
      · rw [read, methodOrGet_some]
        exact iff_of_true rfl (.inl ⟨near, free⟩)
      · rw [read, methodOrGet_none]
        constructor
        · exact fun isGet => .inr ⟨far, isGet.symm⟩
        · rintro (⟨near, -⟩ | ⟨-, isGet⟩)
          · omega
          · exact isGet.symm

/-- **`@app.route(p, methods=[m])` is read as it is written exactly where its arguments are
clear.** -/
theorem route_read_iff :
    parsePythonDecoratorText final (routeText q r path method) =
        .ok (some (method.lower, path.chars)) ↔
      RouteClear q r path method := by
  rw [RouteClear, ← methodsParam_iff final]
  have call : decoratorCall (routeText q r path method) =
      some (routeWord, routeArgs q r path method) :=
    @decoratorCall_app routeWord (by simp [routeWord, isWhitespace]) (by decide) _
  have read : extractFirstStringLiteralSimple (routeArgs q r path method) =
      some (if q = .double ∨ r = .single then path.chars else method.chars) := by
    have two := simple_two ⟨['('], by decide, by decide⟩ path methodsLeadText method.unquoted
      closingList q r
    simpa [routeArgs, methodsLeadText, closingList, MethodText.unquoted] using two
  rw [parsePythonDecoratorText, call, ← read_quotes]
  simp only [if_pos, read]
  cases extractPythonRouteMethodsParam final (routeArgs q r path method) with
  | error panic => simp [Except.map]
  | ok found => simp [Except.map, and_comm]

end Decorators

/-! ## All shapes -/

section Read

variable (final : List Char → List Char → Bool)

/-- **Which calls are read as they are written.**  A decorator `@app.m` always is; `fetch` with a
path alone where the search is in range, and the others where what they are read from is clear. -/
theorem calls_read_iff :
    (∀ q path, parseJsHttpExpression final (fetchText q path) =
        .ok (some (Method.get.chars, path.chars, .importing)) ↔
      InRange methodWord (literal q path.chars ++ [')'])) ∧
    (∀ q r path more method,
      parseJsHttpExpression final (fetchOptionsText q r path method more) =
          .ok (some (method.lower, path.chars, .importing)) ↔
        OptionsClear q r path more method) ∧
    (∀ q path more method,
      parseJsHttpExpression final (callOf q path (axiosPattern method) more) =
          .ok (some (method.chars, path.chars, .importing)) ↔
        AxiosClear final q path more method) ∧
    (∀ q path more receiver method,
      parseJsHttpExpression final (callOf q path (serverPattern receiver method) more) =
          .ok (some (method.chars, path.chars, .exporting)) ↔
        ServerClear q path more receiver method) ∧
    (∀ q r path method,
      parsePythonDecoratorText final (routeText q r path method) =
          .ok (some (method.lower, path.chars)) ↔
        RouteClear q r path method) ∧
    ∀ q path method,
      parsePythonDecoratorText final (decoratorText q path method) =
        .ok (some (method.lower, path.chars)) :=
  ⟨fetch_read_iff final, fetchOptions_read_iff final, axios_read_iff final, server_read_iff final,
    route_read_iff final, decorator_read final⟩

end Read

/-- A path in single quotes in front of a method in double quotes. -/
def mixedQuotes : List Char := "fetch('/items', \x7bmethod: \"POST\"\x7d)".toList

theorem mixedQuotes_misread :
    parseJsHttpExpression (fun _ _ => false) mixedQuotes =
        .ok (some ("post".toList, "POST".toList, .importing)) ∧
      parseJsHttpExpression (fun _ _ => false) mixedQuotes ≠
        .ok (some ("post".toList, "/items".toList, .importing)) := by
  decide

end Ministr.Bridge.HttpRoute
