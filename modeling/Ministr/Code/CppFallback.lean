/-
# Code.CppFallback — C++ symbols from the tokens alone

The extractor for files that the parser gave up on.  It walks the tokens with a count of the open
braces, and at a keyword or an identifier of a scope it cares for it lets a header scanner look
ahead: for the `{` or `;` of a class or an enum, for the `(` of a function.  A scanner that finds
its shape answers with a byte offset, and the walk goes on at the first token behind it; one that
finds nothing is forgotten and the walk goes on at the next token.

The tokens are input: the lexer is generated.  Offsets count characters here.  All of them are ends
of tokens, so that nothing but their order matters.
-/
import Ministr.Theory.Brackets
import Ministr.Ingestion.SymbolIds
import Mathlib.Logic.Relation

namespace Ministr.Code

open Ministr.Theory Ministr.Content Ministr.Ingestion

set_option autoImplicit false

/-! ## Tokens -/

inductive Token where
  | kwClass | kwStruct | kwUnion | kwEnum | kwNamespace | kwTemplate | kwTypedef | kwUsing
  | kwPublic | kwPrivate | kwProtected | kwConst | kwStatic | kwVirtual | kwOverride | kwFinal
  | kwInline | kwConstexpr | kwNoexcept | kwExplicit | kwOperator
  | preproc | stringLit | charLit | ident | number
  | lParen | rParen | lBrace | rBrace | lBracket | rBracket | lAngle | rAngle
  | semi | colon | scope | comma | eq | star | amp | other
  deriving DecidableEq, Repr

/-- The text of the tokens that have only one. -/
def Token.literal : Token → Option String
  | .kwClass => some "class"
  | .kwStruct => some "struct"
  | .kwUnion => some "union"
  | .kwEnum => some "enum"
  | .kwNamespace => some "namespace"
  | .kwTemplate => some "template"
  | .kwTypedef => some "typedef"
  | .kwUsing => some "using"
  | .kwPublic => some "public"
  | .kwPrivate => some "private"
  | .kwProtected => some "protected"
  | .kwConst => some "const"
  | .kwStatic => some "static"
  | .kwVirtual => some "virtual"
  | .kwOverride => some "override"
  | .kwFinal => some "final"
  | .kwInline => some "inline"
  | .kwConstexpr => some "constexpr"
  | .kwNoexcept => some "noexcept"
  | .kwExplicit => some "explicit"
  | .kwOperator => some "operator"
  | .lParen => some "("
  | .rParen => some ")"
  | .lBrace => some "\x7b"
  | .rBrace => some "\x7d"
  | .lBracket => some "["
  | .rBracket => some "]"
  | .lAngle => some "<"
  | .rAngle => some ">"
  | .semi => some ";"
  | .colon => some ":"
  | .scope => some "::"
  | .comma => some ","
  | .eq => some "="
  | .star => some "*"
  | .amp => some "&"
  | .preproc | .stringLit | .charLit | .ident | .number | .other => none

/-- A token and its span. -/
structure Tok where
  token : Token
  start : Nat
  stop : Nat
  deriving DecidableEq, Repr

def slice (content : List Char) (start stop : Nat) : List Char :=
  (content.drop start).take (stop - start)

def Tok.text (content : List Char) (t : Tok) : String :=
  String.ofList (slice content t.start t.stop)

/-- What a lexer answers: spans in order, none of them empty, and each token with its text. -/
structure Lexed (content : List Char) (toks : List Tok) : Prop where
  ordered : toks.Pairwise fun a b => a.stop ≤ b.start
  nonempty : ∀ t ∈ toks, t.start < t.stop
  spelled : ∀ t ∈ toks, ∀ s ∈ t.token.literal, t.text content = s

/-! ## Matching brackets -/

section Scanners

def opensBrace (t : Tok) : Bool := t.token = .lBrace
def closesBrace (t : Tok) : Bool := t.token = .rBrace
def opensParen (t : Tok) : Bool := t.token = .lParen
def closesParen (t : Tok) : Bool := t.token = .rParen
def opensAngle (t : Tok) : Bool := t.token = .lAngle
def closesAngle (t : Tok) : Bool := t.token = .rAngle

/-- A `{` or a `;`, at which every header ends. -/
def endsHeader (t : Tok) : Bool := t.token = .lBrace || t.token = .semi

/-- `match_close_brace`: the end of the brace that closes the first one. -/
def matchCloseBrace (toks : List Tok) : Option Nat :=
  (matchClose opensBrace closesBrace (fun _ => false) 0 toks).map fun found => found.1.stop

/-- `match_close_paren`. -/
def matchCloseParen (toks : List Tok) : Option (List Tok) :=
  (matchClose opensParen closesParen (fun _ => false) 0 toks).map Prod.snd

/-- `match_close_angle`. -/
def matchCloseAngle (toks : List Tok) : Option (List Tok) :=
  (matchClose opensAngle closesAngle endsHeader 0 toks).map Prod.snd

theorem length_matchCloseAngle {toks rest : List Tok} (found : matchCloseAngle toks = some rest) :
    rest.length < toks.length := by
  obtain ⟨⟨x, after⟩, matched, rfl⟩ := Option.map_eq_some_iff.mp found
  obtain ⟨front, rfl⟩ := matchClose_suffix matched
  simp only [List.length_append, List.length_cons]
  omega

/-! ## The header scanners -/

/-- `consume_class_like`, with the last identifier so far. -/
def consumeClassLike (name : Option Tok) : List Tok → Option (Tok × Nat)
  | [] => none
  | t :: ts =>
    match t.token with
    | .ident => consumeClassLike (some t) ts
    | .lAngle =>
      match _found : matchCloseAngle (t :: ts) with
      | none => none
      | some rest => consumeClassLike name rest
    | .colon => consumeClassLike name (ts.dropWhile fun u => !endsHeader u)
    | .lBrace => (matchCloseBrace (t :: ts)).bind fun close => name.map fun name => (name, close)
    | .semi => none
    | _ => consumeClassLike name ts
termination_by ts => ts.length
decreasing_by
  · exact Nat.lt_succ_self _
  · exact length_matchCloseAngle _found
  · exact Nat.lt_succ_of_le (List.dropWhile_suffix _).length_le
  · exact Nat.lt_succ_self _

/-- The loop of `consume_enum_header`. -/
def enumName (name : Option Tok) : List Tok → Option (Tok × Nat)
  | [] => none
  | t :: ts =>
    match t.token with
    | .ident => enumName (some t) ts
    | .colon => enumName name (ts.dropWhile fun u => !endsHeader u)
    | .semi => name.map fun name => (name, t.stop)
    | .lBrace => (matchCloseBrace (t :: ts)).bind fun close => name.map fun name => (name, close)
    | _ => enumName name ts
termination_by ts => ts.length
decreasing_by
  · exact Nat.lt_succ_self _
  · exact Nat.lt_succ_of_le (List.dropWhile_suffix _).length_le
  · exact Nat.lt_succ_self _

/-- `consume_enum_header`. -/
def consumeEnumHeader : List Tok → Option (Tok × Nat)
  | [] => none
  | t :: ts =>
    if t.token = .kwClass ∨ t.token = .kwStruct then enumName none ts else enumName none (t :: ts)

/-- `consume_namespace_header`: the name, and the tokens from the brace on. -/
def consumeNamespaceHeader (name : Option Tok) : List Tok → Option (Tok × List Tok)
  | [] => none
  | t :: ts =>
    match t.token with
    | .ident => consumeNamespaceHeader (some t) ts
    | .lBrace => name.map fun name => (name, t :: ts)
    | .semi | .eq => none
    | _ => consumeNamespaceHeader name ts

/-- `consume_macro_call`. -/
def consumeMacroCall (toks : List Tok) : Option Nat :=
  if toks.head?.map (·.token) = some .lParen then
    (matchClose opensParen closesParen (fun _ => false) 0 toks).map
      fun found => found.1.stop
  else none

/-- What `try_parse_function` makes of the tokens behind the parameters. -/
def functionEnd (name : Tok) (after : List Tok) : Option (Tok × Nat) :=
  match after.dropWhile fun u => !endsHeader u with
  | [] => none
  | t :: ts =>
    if t.token = .semi then some (name, t.stop)
    else (matchCloseBrace (t :: ts)).map fun close => (name, close)

/-- `try_parse_function` at a `(`.  An index is kept as the number of tokens that follow: the `(`
stands next to the last identifier when no other token was behind that one. -/
def functionAt (lastIdent : Option (Tok × Nat)) (paren : List Tok) : Option (Tok × Nat) :=
  lastIdent.bind fun last =>
    if last.2 ≠ paren.length then none else (matchCloseParen paren).bind (functionEnd last.1)

/-- `try_parse_function`, with the last identifier so far and the number of tokens behind it. -/
def tryParseFunction (lastIdent : Option (Tok × Nat)) : List Tok → Option (Tok × Nat)
  | [] => none
  | t :: ts =>
    match t.token with
    | .ident => tryParseFunction (some (t, ts.length)) ts
    | .lAngle =>
      match _found : matchCloseAngle (t :: ts) with
      | none => none
      | some rest => tryParseFunction lastIdent rest
    | .lParen => functionAt lastIdent (t :: ts)
    | .semi | .lBrace | .rBrace | .comma | .eq => none
    | _ => tryParseFunction lastIdent ts
termination_by ts => ts.length
decreasing_by
  · exact Nat.lt_succ_self _
  · exact length_matchCloseAngle _found
  · exact Nat.lt_succ_self _

end Scanners

/-! ## Records -/

section Records

/-- `UE_MACROS`. -/
def ueMacros : List String :=
  ["UCLASS", "USTRUCT", "UENUM", "UINTERFACE", "UFUNCTION", "UPROPERTY", "UPARAM", "UDELEGATE",
    "GENERATED_BODY", "GENERATED_UCLASS_BODY", "GENERATED_USTRUCT_BODY",
    "GENERATED_IINTERFACE_BODY"]

/-- `line_for`. -/
def lineFor (content : List Char) (offset : Nat) : Nat := (content.take offset).count '\n' + 1

/-- `signature_for_block`. -/
def signatureForBlock (content : List Char) (start nameEnd : Nat) (kind : String) : String :=
  let snippet := trim (slice content start nameEnd)
  if snippet.isEmpty then kind ++ " <unknown>" else String.ofList snippet

/-- `signature_for_function`. -/
def signatureForFunction (content : List Char) (start nameEnd : Nat) : String :=
  " ".intercalate (splitWhitespace (String.ofList (slice content start nameEnd))) ++ "(...)"

/-- `module_path_from_relative`. -/
def modulePathFromRelative (relativePath : String) : String :=
  (pathStem relativePath).getD "translation_unit"

/-- `qualified_module`. -/
def qualifiedModule (namespaces : List String) (fileModule : String) : String :=
  if namespaces.isEmpty then fileModule
  else if fileModule.isEmpty then "::".intercalate namespaces
  else fileModule ++ "::" ++ "::".intercalate namespaces

/-- `make_record`. -/
def makeRecord (relativePath modulePath name kind signature : String) (lineStart lineEnd : Nat) :
    SymbolRecord where
  id :=
    if modulePath.isEmpty then "sym-" ++ relativePath ++ "::" ++ name
    else "sym-" ++ relativePath ++ "::" ++ modulePath ++ "::" ++ name
  filePath := relativePath
  name := name
  kind := kind
  visibility := "public"
  signature := signature
  docComment := none
  modulePath := modulePath
  lineStart := lineStart
  lineEnd := lineEnd
  cyclomaticComplexity := none

end Records

/-! ## The walk -/

section Walk

inductive BraceTag where
  | namespaceBrace | otherBrace
  deriving DecidableEq, Repr

/-- The variables of the loop: the tokens from `i` on, and the stacks with their top in front. -/
structure Walk where
  rest : List Tok
  depth : Nat
  braceStack : List BraceTag
  namespaceStack : List String
  out : List SymbolRecord

def Walk.start (toks : List Tok) : Walk where
  rest := toks
  depth := 0
  braceStack := []
  namespaceStack := []
  out := []

/-- What a scanner found: the symbol, and the offset behind it. -/
structure Found where
  name : String
  kind : String
  signature : String
  stop : Nat

/-- The kind that a class keyword is recorded with. -/
def classKind (keyword : String) : String :=
  if keyword = "union" then "union" else if keyword = "struct" then "struct" else "class"

/-- The symbol that the walk records at `t`, if it does. -/
def recognise (content : List Char) (t : Tok) (ts : List Tok) : Option Found :=
  match t.token with
  | .kwClass | .kwStruct | .kwUnion =>
    let kind := classKind (t.text content)
    (consumeClassLike none ts).map fun (name, stop) =>
      ⟨name.text content, kind, signatureForBlock content t.start name.stop kind, stop⟩
  | .kwEnum =>
    (consumeEnumHeader ts).map fun (name, stop) =>
      ⟨name.text content, "enum", signatureForBlock content t.start name.stop "enum", stop⟩
  | .ident =>
    let name := t.text content
    let call := if name ∈ ueMacros then consumeMacroCall ts else none
    match call with
    | some stop => some ⟨name, "macro", String.ofList (trim (slice content t.start stop)), stop⟩
    | none =>
      (tryParseFunction none (t :: ts)).map fun (name, stop) =>
        ⟨name.text content, "function", signatureForFunction content t.start name.stop, stop⟩
  | _ => none

/-- `advance_past_byte`. -/
def advancePastByte (toks : List Tok) (byteEnd : Nat) : List Tok :=
  toks.dropWhile fun t => t.start < byteEnd

variable (content : List Char) (toks : List Tok) (relativePath : String)

def Walk.record (w : Walk) (t : Tok) (f : Found) : SymbolRecord :=
  makeRecord relativePath
    (qualifiedModule w.namespaceStack.reverse (modulePathFromRelative relativePath))
    f.name f.kind f.signature (lineFor content t.start) (lineFor content f.stop)

/-- The walk at a `namespace` whose header is `name`, in front of `brace`. -/
def Walk.enter (w : Walk) (name : Tok) (brace : List Tok) : Walk :=
  let inside :=
    { w with namespaceStack := name.text content :: w.namespaceStack, rest := brace }
  match brace with
  | [] => inside
  | b :: after =>
    if b.token = .lBrace then
      { inside with
        rest := after, depth := w.depth + 1, braceStack := .namespaceBrace :: w.braceStack }
    else inside

/-- The body of the loop, at the token `t`. -/
def Walk.next (w : Walk) (t : Tok) (ts : List Tok) : Walk :=
  if t.token = .lBrace then
    { w with rest := ts, braceStack := .otherBrace :: w.braceStack, depth := w.depth + 1 }
  else if t.token = .rBrace then
    { w with
      rest := ts, braceStack := w.braceStack.tail, depth := w.depth - 1
      namespaceStack :=
        if w.braceStack.head? = some .namespaceBrace then w.namespaceStack.tail
        else w.namespaceStack }
  else if w.namespaceStack.length < w.depth then { w with rest := ts }
  else if t.token = .kwNamespace then
    match consumeNamespaceHeader none ts with
    | some (name, brace) => w.enter content name brace
    | none => { w with rest := ts }
  else
    match recognise content t ts with
    | some f =>
      { w with
        rest := advancePastByte toks f.stop, out := w.out ++ [w.record content relativePath t f] }
    | none => { w with rest := ts }

/-- The loop, for at most so many rounds. -/
def walk : Nat → Walk → Option (List SymbolRecord)
  | 0, w => if w.rest.isEmpty then some w.out else none
  | rounds + 1, w =>
    match w.rest with
    | [] => some w.out
    | t :: ts => walk rounds (w.next content toks relativePath t ts)

/-- `extract_cpp_fallback_symbols`, on the tokens of `content`: no walk takes more rounds than
there are tokens. -/
def extractCppFallbackSymbols : Option (List SymbolRecord) :=
  walk content toks relativePath toks.length (Walk.start toks)

end Walk

/-! ## Where a symbol ends -/

theorem matchCloseBrace_mem {toks : List Tok} {stop : Nat}
    (found : matchCloseBrace toks = some stop) : stop ∈ toks.map Tok.stop := by
  obtain ⟨⟨c, after⟩, matched, rfl⟩ := Option.map_eq_some_iff.mp found
  obtain ⟨front, rfl⟩ := matchClose_suffix matched
  simp

theorem matchCloseAngle_suffix {toks rest : List Tok} (found : matchCloseAngle toks = some rest) :
    rest <:+ toks := by
  obtain ⟨⟨c, after⟩, matched, rfl⟩ := Option.map_eq_some_iff.mp found
  obtain ⟨front, rfl⟩ := matchClose_suffix matched
  exact ⟨front ++ [c], by simp⟩

theorem mem_stops_of_suffix {rest toks : List Tok} (suffix : rest <:+ toks) {stop : Nat}
    (mem : stop ∈ rest.map Tok.stop) : stop ∈ toks.map Tok.stop :=
  (suffix.sublist.map Tok.stop).subset mem

theorem consumeClassLike_mem {name : Option Tok} {ts : List Tok} {found : Tok × Nat}
    (some_ : consumeClassLike name ts = some found) : found.2 ∈ ts.map Tok.stop := by
  fun_induction consumeClassLike name ts with
  | case1 => simp at some_
  | case2 name t ts isIdent ih => exact List.mem_cons_of_mem _ (ih some_)
  | case3 => simp at some_
  | case4 name t ts isAngle rest matched ih =>
      exact mem_stops_of_suffix (matchCloseAngle_suffix matched) (ih some_)
  | case5 name t ts isColon ih =>
      exact List.mem_cons_of_mem _ (mem_stops_of_suffix (List.dropWhile_suffix _) (ih some_))
  | case6 name t ts isBrace =>
      obtain ⟨close, matched, named⟩ := Option.bind_eq_some_iff.mp some_
      obtain ⟨_, _, rfl⟩ := Option.map_eq_some_iff.mp named
      exact matchCloseBrace_mem matched
  | case7 => simp at some_
  | case8 name t ts _ _ _ _ _ ih => exact List.mem_cons_of_mem _ (ih some_)

theorem enumName_mem {name : Option Tok} {ts : List Tok} {found : Tok × Nat}
    (some_ : enumName name ts = some found) : found.2 ∈ ts.map Tok.stop := by
  fun_induction enumName name ts with
  | case1 => simp at some_
  | case2 name t ts isIdent ih => exact List.mem_cons_of_mem _ (ih some_)
  | case3 name t ts isColon ih =>
      exact List.mem_cons_of_mem _ (mem_stops_of_suffix (List.dropWhile_suffix _) (ih some_))
  | case4 name t ts isSemi =>
      obtain ⟨_, _, rfl⟩ := Option.map_eq_some_iff.mp some_
      exact List.mem_cons_self
  | case5 name t ts isBrace =>
      obtain ⟨close, matched, named⟩ := Option.bind_eq_some_iff.mp some_
      obtain ⟨_, _, rfl⟩ := Option.map_eq_some_iff.mp named
      exact matchCloseBrace_mem matched
  | case6 name t ts _ _ _ _ ih => exact List.mem_cons_of_mem _ (ih some_)

theorem functionEnd_mem {name : Tok} {after : List Tok} {found : Tok × Nat}
    (some_ : functionEnd name after = some found) : found.2 ∈ after.map Tok.stop := by
  rw [functionEnd] at some_
  split at some_
  · simp at some_
  next t ts dropped =>
    refine mem_stops_of_suffix (List.dropWhile_suffix fun u => !endsHeader u) ?_
    rw [dropped]
    split at some_
    · obtain rfl := Option.some.inj some_
      exact List.mem_cons_self
    · obtain ⟨close, matched, rfl⟩ := Option.map_eq_some_iff.mp some_
      exact matchCloseBrace_mem matched

theorem tryParseFunction_mem {lastIdent : Option (Tok × Nat)} {ts : List Tok} {found : Tok × Nat}
    (some_ : tryParseFunction lastIdent ts = some found) : found.2 ∈ ts.map Tok.stop := by
  fun_induction tryParseFunction lastIdent ts with
  | case1 => simp at some_
  | case2 name t ts isIdent ih => exact List.mem_cons_of_mem _ (ih some_)
  | case3 => simp at some_
  | case4 name t ts isAngle rest matched ih =>
      exact mem_stops_of_suffix (matchCloseAngle_suffix matched) (ih some_)
  | case5 lastIdent t ts isParen =>
      obtain ⟨last, _, at_⟩ := Option.bind_eq_some_iff.mp some_
      split at at_
      · simp at at_
      · obtain ⟨after, matched, ended⟩ := Option.bind_eq_some_iff.mp at_
        obtain ⟨⟨c, rest⟩, closed, rfl⟩ := Option.map_eq_some_iff.mp matched
        obtain ⟨front, whole⟩ := matchClose_suffix closed
        exact mem_stops_of_suffix ⟨front ++ [c], by simp [whole]⟩ (functionEnd_mem ended)
  | case6 => simp at some_
  | case7 => simp at some_
  | case8 => simp at some_
  | case9 => simp at some_
  | case10 => simp at some_
  | case11 name t ts _ _ _ _ _ _ _ _ ih => exact List.mem_cons_of_mem _ (ih some_)

theorem consumeMacroCall_mem {ts : List Tok} {stop : Nat}
    (some_ : consumeMacroCall ts = some stop) : stop ∈ ts.map Tok.stop := by
  rw [consumeMacroCall] at some_
  split at some_
  · obtain ⟨⟨c, after⟩, matched, rfl⟩ := Option.map_eq_some_iff.mp some_
    obtain ⟨front, rfl⟩ := matchClose_suffix matched
    simp
  · simp at some_

theorem recognise_mem {content : List Char} {t : Tok} {ts : List Tok} {f : Found}
    (some_ : recognise content t ts = some f) : f.stop ∈ (t :: ts).map Tok.stop := by
  rw [recognise] at some_
  split at some_
  iterate 3
    · obtain ⟨found, scanned, rfl⟩ := Option.map_eq_some_iff.mp some_
      exact List.mem_cons_of_mem _ (consumeClassLike_mem scanned)
  · obtain ⟨found, scanned, rfl⟩ := Option.map_eq_some_iff.mp some_
    refine List.mem_cons_of_mem _ ?_
    cases ts with
    | nil => simp [consumeEnumHeader] at scanned
    | cons u us =>
        rw [consumeEnumHeader] at scanned
        split at scanned
        · exact List.mem_cons_of_mem _ (enumName_mem scanned)
        · exact enumName_mem scanned
  · simp only at some_
    split at some_
    next stop called =>
      obtain rfl := Option.some.inj some_
      split at called
      · exact List.mem_cons_of_mem _ (consumeMacroCall_mem called)
      · simp at called
    · obtain ⟨found, scanned, rfl⟩ := Option.map_eq_some_iff.mp some_
      exact tryParseFunction_mem scanned
  · simp at some_

/-- The walk goes on behind the token whose end was found. -/
theorem advancePastByte_eq {content : List Char} {front back : List Tok} {c : Tok}
    (lexed : Lexed content (front ++ c :: back)) :
    advancePastByte (front ++ c :: back) c.stop = back := by
  have behind : ∀ t ∈ front ++ [c], t.start < c.stop := by
    intro t mem
    have own := lexed.nonempty c (by simp)
    rcases List.mem_append.mp mem with before | same
    · have := (List.pairwise_append.mp lexed.ordered).2.2 t before c List.mem_cons_self
      have := lexed.nonempty t (by simp [before])
      omega
    · rwa [List.mem_singleton.mp same]
  have ahead : ∀ t ∈ back, ¬t.start < c.stop := by
    intro t mem
    have := (List.pairwise_append.mp lexed.ordered).2.1
    have := (List.pairwise_cons.mp this).1 t mem
    omega
  rw [advancePastByte, List.append_cons, List.dropWhile_append_of_pos (by simpa using behind)]
  cases back with
  | nil => rfl
  | cons t back => exact List.dropWhile_cons_of_neg (by simpa using ahead t List.mem_cons_self)

/-! ## Runs of the loop -/

section Runs

variable {content : List Char} {toks : List Tok} {relativePath : String}

theorem consumeNamespaceHeader_suffix {name : Option Tok} {ts : List Tok}
    {found : Tok × List Tok} (some_ : consumeNamespaceHeader name ts = some found) :
    found.2 <:+ ts := by
  fun_induction consumeNamespaceHeader name ts with
  | case1 => simp at some_
  | case2 name t ts isIdent ih => exact (ih some_).trans (List.suffix_cons t ts)
  | case3 name t ts isBrace =>
      obtain ⟨_, _, rfl⟩ := Option.map_eq_some_iff.mp some_
      exact List.suffix_rfl
  | case4 => simp at some_
  | case5 => simp at some_
  | case6 name t ts _ _ _ _ ih => exact (ih some_).trans (List.suffix_cons t ts)

theorem Walk.enter_suffix (w : Walk) (name : Tok) (brace : List Tok) :
    (w.enter content name brace).rest <:+ brace := by
  unfold Walk.enter
  split
  · exact List.suffix_rfl
  next b after =>
    split
    · exact List.suffix_cons b after
    · exact List.suffix_rfl

variable (relativePath) in
/-- A round leaves fewer tokens. -/
theorem Walk.next_suffix (lexed : Lexed content toks) (w : Walk) {t : Tok} {ts : List Tok}
    (suffix : t :: ts <:+ toks) : (w.next content toks relativePath t ts).rest <:+ ts := by
  rw [Walk.next]
  split
  · exact List.suffix_rfl
  split
  · exact List.suffix_rfl
  split
  · exact List.suffix_rfl
  split
  · split
    next name brace header =>
      exact (w.enter_suffix name brace).trans (consumeNamespaceHeader_suffix header)
    · exact List.suffix_rfl
  split
  next f found =>
    obtain ⟨c, mem, same⟩ := List.mem_map.mp (recognise_mem found)
    obtain ⟨front, back, whole⟩ := List.append_of_mem mem
    obtain ⟨before, rfl⟩ := suffix
    rw [whole, ← List.append_assoc] at lexed
    rw [whole, ← List.append_assoc, ← same, advancePastByte_eq lexed]
    cases front with
    | nil => exact (List.cons.inj whole).2 ▸ List.suffix_rfl
    | cons u front => exact ⟨front ++ [c], by simp [(List.cons.inj whole).2]⟩
  · exact List.suffix_rfl

theorem Walk.next_out (w : Walk) (t : Tok) (ts : List Tok) :
    w.out <+: (w.next content toks relativePath t ts).out := by
  rw [Walk.next]
  split
  · exact List.prefix_rfl
  split
  · exact List.prefix_rfl
  split
  · exact List.prefix_rfl
  split
  · split
    next name brace header =>
      unfold Walk.enter
      split
      · exact List.prefix_rfl
      split
      · exact List.prefix_rfl
      · exact List.prefix_rfl
    · exact List.prefix_rfl
  split
  · exact List.prefix_append _ _
  · exact List.prefix_rfl

variable (content toks relativePath)

/-- One round of the loop. -/
def Round (w w' : Walk) : Prop :=
  ∃ t ts, w.rest = t :: ts ∧ w' = w.next content toks relativePath t ts

/-- The answer of a walk that may take as many rounds as tokens are left. -/
def Walk.answer (w : Walk) : Option (List SymbolRecord) :=
  walk content toks relativePath w.rest.length w

variable {content toks relativePath}

theorem walk_done {w : Walk} (left : w.rest = []) (rounds : Nat) :
    walk content toks relativePath rounds w = some w.out := by
  cases rounds <;> simp [walk, left]

theorem walk_round {w : Walk} {t : Tok} {ts : List Tok} (left : w.rest = t :: ts) (rounds : Nat) :
    walk content toks relativePath (rounds + 1) w =
      walk content toks relativePath rounds (w.next content toks relativePath t ts) := by
  rw [walk, left]

theorem walk_enough (lexed : Lexed content toks) {w : Walk} (suffix : w.rest <:+ toks)
    {rounds more : Nat} (enough : w.rest.length ≤ rounds) (also : w.rest.length ≤ more) :
    walk content toks relativePath rounds w = walk content toks relativePath more w := by
  induction rounds generalizing w more with
  | zero =>
      have left := List.eq_nil_of_length_eq_zero (Nat.le_zero.mp enough)
      rw [walk_done left, walk_done left]
  | succ rounds ih =>
      cases left : w.rest with
      | nil => rw [walk_done left, walk_done left]
      | cons t ts =>
          rw [left] at suffix enough also
          obtain ⟨more, rfl⟩ := Nat.exists_eq_succ_of_ne_zero (Nat.ne_of_gt (Nat.lt_of_lt_of_le
            (Nat.succ_pos ts.length) also))
          have shorter := w.next_suffix relativePath lexed suffix
          have bound := shorter.length_le
          simp only [List.length_cons] at enough also
          rw [walk_round left, walk_round left]
          exact ih (shorter.trans ((List.suffix_cons t ts).trans suffix)) (by omega) (by omega)

theorem answer_round (lexed : Lexed content toks) {w w' : Walk} (suffix : w.rest <:+ toks)
    (round : Round content toks relativePath w w') :
    w'.rest <:+ toks ∧
      w.answer content toks relativePath = w'.answer content toks relativePath := by
  obtain ⟨t, ts, left, rfl⟩ := round
  rw [left] at suffix
  have shorter := w.next_suffix relativePath lexed suffix
  have inside := shorter.trans ((List.suffix_cons t ts).trans suffix)
  refine ⟨inside, ?_⟩
  rw [Walk.answer, left, List.length_cons, walk_round left]
  exact walk_enough lexed inside shorter.length_le (Nat.le_refl _)

theorem answer_reaches (lexed : Lexed content toks) {w w' : Walk} (suffix : w.rest <:+ toks)
    (rounds : Relation.ReflTransGen (Round content toks relativePath) w w') :
    w'.rest <:+ toks ∧
      w.answer content toks relativePath = w'.answer content toks relativePath := by
  induction rounds with
  | refl => exact ⟨suffix, rfl⟩
  | tail _ round ih =>
      obtain ⟨inside, same⟩ := ih
      obtain ⟨inside', same'⟩ := answer_round lexed inside round
      exact ⟨inside', same.trans same'⟩

variable (relativePath) in
/-- Every walk ends, and keeps what it has recorded. -/
theorem answer_total (lexed : Lexed content toks) {w : Walk} (suffix : w.rest <:+ toks) :
    ∃ out, w.answer content toks relativePath = some out ∧ w.out <+: out := by
  induction size : w.rest.length using Nat.strongRecOn generalizing w with
  | _ n ih =>
    cases left : w.rest with
    | nil => exact ⟨w.out, walk_done left _, List.prefix_rfl⟩
    | cons t ts =>
        have round : Round content toks relativePath w _ := ⟨t, ts, left, rfl⟩
        obtain ⟨inside, same⟩ := answer_round lexed suffix round
        have shorter := w.next_suffix relativePath lexed (left ▸ suffix)
        have bound := shorter.length_le
        rw [left, List.length_cons] at size
        obtain ⟨out, answered, kept⟩ := ih _ (by omega) inside rfl
        exact ⟨out, same.trans answered, (w.next_out t ts).trans kept⟩

end Runs

end Ministr.Code
