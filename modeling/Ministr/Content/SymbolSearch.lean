/-
# Content.SymbolSearch — symbols found by name

`list_symbols` cuts the name it is asked for into tokens, puts them into lower case and asks the
store for the names that hold all of them; if there are none, for those that hold any.  The tokens
are lower-cased as Unicode text, while `LIKE` ignores the case of ASCII letters only.  So a symbol
is found under its own name exactly when its own tokens match it (`found_iff`), and a name with a
capital from beyond ASCII need not be.  The order is always right: the names that are the query,
but for ASCII case, come first.

Which characters are capitals, and where a sigma ends a word, are parameters.
-/
import Ministr.Content.Store
import Ministr.Theory.LikePattern
import Ministr.Theory.Lowercase
import Ministr.Theory.SortedSet

namespace Ministr.Content

open Ministr.Theory

set_option autoImplicit false

structure SymbolFilter where
  name : Option String := none
  nameExact : Option String := none
  kind : Option String := none
  visibility : Option String := none
  moduleName : Option String := none
  filePath : Option String := none

/-- How the tokens of a name are put together. -/
inductive TokenMode where
  | all
  | any
  deriving DecidableEq, Repr

/-- `%text%`, as a pattern. -/
def contains (text name : String) : Bool := like ('%' :: (text.toList ++ ['%'])) name.toList

def toAsciiLowercase (s : String) : String := String.ofList (s.toList.map Char.toLower)

section Search

variable (isUppercase : Char → Bool) (final : List Char → List Char → Bool)

/-- `split_camel_case`, where `current` is the token being read. -/
def splitCamelCase (current : List Char) : List Char → List String
  | [] => if current = [] then [] else [String.ofList (toLowercase final current)]
  | c :: word =>
      if isUppercase c = true ∧ current ≠ [] then
        String.ofList (toLowercase final current) :: splitCamelCase [c] word
      else splitCamelCase (current ++ [c]) word

/-- The tokens of one word. -/
def wordTokens (word : List Char) : List String :=
  let snakeParts := (word.splitOn '_').filter (· ≠ [])
  if 1 < snakeParts.length then snakeParts.flatMap (splitCamelCase isUppercase final [])
  else splitCamelCase isUppercase final [] word

def tokenizeSymbolQuery (query : String) : List String :=
  let tokens := (splitWhitespace query).flatMap fun word =>
    wordTokens isUppercase final word.toList
  (sortedSet (fun a b => decide (a ≤ b)) tokens).filter fun token =>
    decide (2 ≤ byteLength token.toList)

/-- The condition on `name` that `query_symbols` writes. -/
def nameMatches (mode : TokenMode) (query name : String) : Bool :=
  match tokenizeSymbolQuery isUppercase final query with
  | [] => contains query name
  | [token] => contains token name
  | tokens =>
      match mode with
      | .all => tokens.all fun token => contains token name
      | .any => tokens.any fun token => contains token name

/-- The conditions of `query_symbols`. -/
def SymbolFilter.admits (filter : SymbolFilter) (mode : TokenMode) (row : SymbolRow) : Bool :=
  (match filter.nameExact with
    | some exactName => row.name == exactName
    | none => filter.name.all fun query => nameMatches isUppercase final mode query row.name) &&
  filter.kind.all (row.kind == ·) &&
  filter.visibility.all (row.visibility == ·) &&
  (filter.moduleName.all fun path =>
    row.modulePath == path || like (path.toList ++ "::%".toList) row.modulePath.toList ||
      contains path row.filePath) &&
  filter.filePath.all (row.filePath == ·)

def querySymbols (s : ContentStore) (filter : SymbolFilter) (mode : TokenMode) :
    List SymbolRecord :=
  s.listSymbols (filter.admits isUppercase final mode)

/-- How directly a symbol answers a query, in lower case. -/
structure MatchRank where
  exactName : Nat
  startsName : Nat
  tokenMatches : Nat
  tokenPrefixes : Nat

def matchRank (query : String) (symbol : SymbolRecord) : MatchRank :=
  let name := toAsciiLowercase symbol.name
  let queryTokens := tokenizeSymbolQuery isUppercase final query
  let nameTokens := tokenizeSymbolQuery isUppercase final name
  { exactName := if name = query then 1 else 0
    startsName := if startsWith name query then 1 else 0
    tokenMatches := (queryTokens.filter fun token => token ∈ nameTokens).length
    tokenPrefixes := (queryTokens.filter fun token =>
      nameTokens.any fun nameToken => startsWith nameToken token).length }

/-- The order of two symbols in an answer: the higher rank, the shorter name, the place. -/
def compareMatches (query : String) : SymbolRecord → SymbolRecord → Ordering :=
  let rank := matchRank isUppercase final query
  compareLex (fun a b => compareOn (fun r => (rank r).exactName) b a)
    (compareLex (fun a b => compareOn (fun r => (rank r).startsName) b a)
    (compareLex (fun a b => compareOn (fun r => (rank r).tokenMatches) b a)
    (compareLex (fun a b => compareOn (fun r => (rank r).tokenPrefixes) b a)
    (compareLex (compareOn fun r => byteLength r.name.toList)
    (compareLex (compareOn fun r => r.filePath) (compareOn fun r => r.lineStart))))))

def rankSymbolMatches (results : List SymbolRecord) (query : String) : List SymbolRecord :=
  results.mergeSort fun a b =>
    (compareMatches isUppercase final (toAsciiLowercase query) a b).isLE

/-- `list_symbols`. -/
def listSymbols (s : ContentStore) (filter : SymbolFilter) : List SymbolRecord :=
  let results := querySymbols isUppercase final s filter .all
  let results :=
    match filter.name with
    | some name =>
        if results = [] ∧ 1 < (tokenizeSymbolQuery isUppercase final name).length then
          querySymbols isUppercase final s filter .any
        else results
    | none => results
  match filter.name with
  | some name => rankSymbolMatches isUppercase final results name
  | none => results

/-! ## Order -/

section Order

variable {isUppercase : Char → Bool} {final : List Char → List Char → Bool}

instance (query : String) : Std.TransCmp (compareMatches isUppercase final query) := by
  unfold compareMatches
  infer_instance

theorem exactName_of_isLE {query : String} {a b : SymbolRecord}
    (ordered : (compareMatches isUppercase final query a b).isLE = true)
    (second : toAsciiLowercase b.name = query) : toAsciiLowercase a.name = query := by
  unfold compareMatches at ordered
  have first : (compare (matchRank isUppercase final query b).exactName
      (matchRank isUppercase final query a).exactName).isLE = true :=
    Ordering.isLE_left_of_isLE_then ordered
  rw [Nat.isLE_compare] at first
  by_contra other
  simp only [matchRank, if_pos second, if_neg other] at first
  exact absurd first (by decide)

variable (isUppercase final)

theorem pairwise_rankSymbolMatches (results : List SymbolRecord) (query : String) :
    (rankSymbolMatches isUppercase final results query).Pairwise fun a b =>
      toAsciiLowercase b.name = toAsciiLowercase query →
        toAsciiLowercase a.name = toAsciiLowercase query := by
  have transitive : ∀ a b c : SymbolRecord,
      (compareMatches isUppercase final (toAsciiLowercase query) a b).isLE = true →
        (compareMatches isUppercase final (toAsciiLowercase query) b c).isLE = true →
          (compareMatches isUppercase final (toAsciiLowercase query) a c).isLE = true :=
    fun _ _ _ ab bc => Std.TransCmp.isLE_trans ab bc
  have total : ∀ a b : SymbolRecord,
      ((compareMatches isUppercase final (toAsciiLowercase query) a b).isLE ||
        (compareMatches isUppercase final (toAsciiLowercase query) b a).isLE) = true := by
    intro a b
    have swap : compareMatches isUppercase final (toAsciiLowercase query) a b =
        (compareMatches isUppercase final (toAsciiLowercase query) b a).swap :=
      Std.OrientedCmp.eq_swap
    rw [swap]
    cases compareMatches isUppercase final (toAsciiLowercase query) b a <;> rfl
  have sorted := List.pairwise_mergeSort transitive total results
  exact List.Pairwise.imp exactName_of_isLE sorted

theorem mem_rankSymbolMatches {results : List SymbolRecord} {query : String} {r : SymbolRecord} :
    r ∈ rankSymbolMatches isUppercase final results query ↔ r ∈ results := List.mem_mergeSort

end Order

/-! ## What is found -/

section Found

variable {isUppercase : Char → Bool} {final : List Char → List Char → Bool} {s : ContentStore}

/-- A symbol of the store. -/
def Stored (s : ContentStore) (r : SymbolRecord) : Prop :=
  s.symbols.lookup r.id = some r.toSymbolRow

theorem mem_querySymbols {query : String} {mode : TokenMode} {r : SymbolRecord} :
    r ∈ querySymbols isUppercase final s { name := some query } mode ↔
      Stored s r ∧ nameMatches isUppercase final mode query r.name = true := by
  rw [querySymbols, ContentStore.mem_listSymbols]
  simp [SymbolFilter.admits, Stored]

variable (isUppercase final s)

/-- Every symbol of this name is found, and the names that are the query in any ASCII case come
before the others. -/
structure Found (name : String) : Prop where
  all : ∀ r, Stored s r → r.name = name → r ∈ listSymbols isUppercase final s { name := some name }
  first : (listSymbols isUppercase final s { name := some name }).Pairwise fun a b =>
    toAsciiLowercase b.name = toAsciiLowercase name →
      toAsciiLowercase a.name = toAsciiLowercase name

/-- The tokens of the name match it: all of them, or, where there are several and no stored name
is matched by all, one of them. -/
def OwnTokens (name : String) : Prop :=
  nameMatches isUppercase final .all name name = true ∨
    (1 < (tokenizeSymbolQuery isUppercase final name).length ∧
      (∀ r, Stored s r → nameMatches isUppercase final .all name r.name = false) ∧
        nameMatches isUppercase final .any name name = true)

variable {isUppercase final s}

theorem mem_listSymbols {name : String} {r : SymbolRecord} :
    r ∈ listSymbols isUppercase final s { name := some name } ↔
      if querySymbols isUppercase final s { name := some name } .all = [] ∧
          1 < (tokenizeSymbolQuery isUppercase final name).length then
        r ∈ querySymbols isUppercase final s { name := some name } .any
      else r ∈ querySymbols isUppercase final s { name := some name } .all := by
  unfold listSymbols
  simp only [mem_rankSymbolMatches]
  split <;> rfl

theorem querySymbols_eq_nil {name : String} :
    querySymbols isUppercase final s { name := some name } .all = [] ↔
      ∀ r, Stored s r → nameMatches isUppercase final .all name r.name = false := by
  rw [List.eq_nil_iff_forall_not_mem]
  simp only [mem_querySymbols, not_and, Bool.not_eq_true]

/-- **A symbol is found under its own name exactly when the tokens of the name match it.** -/
theorem found_iff {name : String} (occurs : ∃ r, Stored s r ∧ r.name = name) :
    Found isUppercase final s name ↔ OwnTokens isUppercase final s name := by
  obtain ⟨r, stored, named⟩ := occurs
  constructor
  · intro found
    have mem := mem_listSymbols.mp (found.all r stored named)
    split at mem
    · rename_i fallback
      have any := (mem_querySymbols.mp mem).2
      rw [named] at any
      exact .inr ⟨fallback.2, querySymbols_eq_nil.mp fallback.1, any⟩
    · have held := (mem_querySymbols.mp mem).2
      rw [named] at held
      exact .inl held
  · intro own
    refine ⟨fun other stored' named' => mem_listSymbols.mpr ?_, ?_⟩
    · rcases own with all | ⟨several, none, any⟩
      · have some : querySymbols isUppercase final s { name := some name } .all ≠ [] := by
          intro empty
          have none := querySymbols_eq_nil.mp empty r stored
          rw [named, all] at none
          cases none
        rw [if_neg fun both => some both.1, mem_querySymbols, named']
        exact ⟨stored', all⟩
      · rw [if_pos ⟨querySymbols_eq_nil.mpr none, several⟩, mem_querySymbols, named']
        exact ⟨stored', any⟩
    · unfold listSymbols
      exact pairwise_rankSymbolMatches isUppercase final _ name

/-! ## Names whose letters beyond ASCII are in lower case -/

/-- A token is a part of the text in lower case. -/
def IsToken (final : List Char → List Char → Bool) (text : List Char) (token : String) : Prop :=
  ∃ piece, piece <:+: text ∧ token = String.ofList (toLowercase final piece)

theorem IsToken.widen {part text : List Char} {token : String} (isToken : IsToken final part token)
    (stands : part <:+: text) : IsToken final text token := by
  obtain ⟨piece, inside, rfl⟩ := isToken
  exact ⟨piece, inside.trans stands, rfl⟩

theorem isToken_splitCamelCase {current word : List Char} {token : String}
    (mem : token ∈ splitCamelCase isUppercase final current word) :
    IsToken final (current ++ word) token := by
  induction word generalizing current with
  | nil =>
      rw [splitCamelCase] at mem
      split at mem
      · cases mem
      · exact ⟨current, (List.prefix_append current []).isInfix, List.mem_singleton.mp mem⟩
  | cons c word ih =>
      rw [splitCamelCase] at mem
      split at mem
      · rcases List.mem_cons.mp mem with rfl | later
        · exact ⟨current, (List.prefix_append current _).isInfix, rfl⟩
        · exact (ih later).widen (List.suffix_append current _).isInfix
      · have rest := ih mem
        rwa [List.append_assoc, List.singleton_append] at rest

theorem isToken_of_mem {query token : String}
    (mem : token ∈ tokenizeSymbolQuery isUppercase final query) :
    IsToken final query.toList token := by
  obtain ⟨word, isWord, cut⟩ := List.mem_flatMap.mp (mem_sortedSet.mp (List.mem_filter.mp mem).1)
  obtain ⟨text, isText, rfl⟩ := List.mem_map.mp isWord
  have stands : text <:+: query.toList := infix_of_mem_splitOnP (List.mem_filter.mp isText).1
  rw [String.toList_ofList, wordTokens] at cut
  split at cut
  · obtain ⟨part, isPart, cut⟩ := List.mem_flatMap.mp cut
    have inside : part <:+: text := infix_of_mem_splitOnP (List.mem_filter.mp isPart).1
    exact (isToken_splitCamelCase cut).widen (inside.trans stands)
  · exact (isToken_splitCamelCase cut).widen stands

/-- Lower case only changes ASCII letters. -/
def AsciiCased (text : List Char) : Prop := ∀ c ∈ text, c ≠ 'Σ' ∧ lowerChar c = [c.toLower]

theorem asciiCased_of_ascii {text : List Char} (ascii : ∀ c ∈ text, c.toNat < 128) :
    AsciiCased text := by
  intro c mem
  refine ⟨?_, lowerChar_ascii (ascii c mem)⟩
  rintro rfl
  exact absurd (ascii _ mem) (by decide)

theorem toLowercase_of_asciiCased {text : List Char} (cased : AsciiCased text) :
    toLowercase final text = text.map Char.toLower := by
  have run : ∀ before, lowercaseFrom final before text = text.map Char.toLower := by
    induction text with
    | nil => intro before; rfl
    | cons c text ih =>
        intro before
        obtain ⟨other, lower⟩ := cased c List.mem_cons_self
        rw [lowercaseFrom_cons, lowerAt, if_neg other, lower,
          ih fun d mem => cased d (List.mem_cons_of_mem _ mem)]
        rfl
  exact run []

theorem toLower_toLower (c : Char) : c.toLower.toLower = c.toLower := by
  refine Char.toNat_inj.mp ?_
  rw [toNat_toLower, toNat_toLower]
  split
  · rw [if_neg (by omega)]
  · rfl

theorem contains_token {name token : String} (cased : AsciiCased name.toList)
    (isToken : IsToken final name.toList token) : contains token name = true := by
  obtain ⟨piece, stands, rfl⟩ := isToken
  have lower : toLowercase final piece = piece.map Char.toLower :=
    toLowercase_of_asciiCased fun c mem => cased c (stands.subset mem)
  rw [contains, String.toList_ofList, lower]
  refine like_contains ?_ stands
  rw [SameFold, List.map_map]
  exact List.map_congr_left fun c _ => toLower_toLower c

theorem nameMatches_self {name : String} (cased : AsciiCased name.toList) :
    nameMatches isUppercase final .all name name = true := by
  have each : ∀ token ∈ tokenizeSymbolQuery isUppercase final name, contains token name = true :=
    fun token mem => contains_token cased (isToken_of_mem mem)
  unfold nameMatches
  split
  · exact like_contains rfl List.infix_rfl
  · rename_i token single
    exact each token (by rw [single]; exact List.mem_singleton_self _)
  · exact List.all_eq_true.mpr each

/-- A name in which lower case only changes ASCII letters matches its own tokens. -/
theorem ownTokens_of_asciiCased {name : String} (cased : AsciiCased name.toList) :
    OwnTokens isUppercase final s name := .inl (nameMatches_self cased)

end Found

end Search

/-! ## Some names -/

def sampleRow (name : String) : SymbolRow where
  filePath := "a.rs"
  name := name
  kind := "function"
  visibility := "pub"
  signature := ""
  docComment := none
  modulePath := ""
  lineStart := 1
  lineEnd := 2
  cyclomaticComplexity := none

def sampleStore (name : String) : ContentStore :=
  { ContentStore.empty with symbols := (∅ : Rows String SymbolRow).insert "1" (sampleRow name) }

theorem stored_sample (name : String) : Stored (sampleStore name) { sampleRow name with id := "1" } :=
  AList.lookup_insert _

/-- A store with a symbol for each of these names. -/
def namedStore (names : List String) : ContentStore :=
  { ContentStore.empty with
    symbols := Rows.upsertAll ∅ (names.zipIdx.map fun n => (toString n.2, sampleRow n.1)) }

def urlNames : List String :=
  ["reparseUrls", "parse_url", "parseUrl", "parse", "PARSEURL", "parseUrl"]

/-- Of six symbols, both that are named `parseUrl` are found, and those whose name differs from it
in case only come first. -/
theorem found_parseUrl_amongOthers :
    Found Char.isUpper (fun _ _ => false) (namedStore urlNames) "parseUrl" ∧
      ∀ id ∈ ["2", "5"], { sampleRow "parseUrl" with id } ∈
        listSymbols Char.isUpper (fun _ _ => false) (namedStore urlNames)
          { name := some "parseUrl" } := by
  have stored : ∀ id ∈ ["2", "5"],
      Stored (namedStore urlNames) { sampleRow "parseUrl" with id } := by
    intro id mem
    unfold Stored
    revert id
    decide +kernel
  have letters : "parseUrl".toList.all (fun c => decide (c.toNat < 128)) = true := by decide
  have cased : AsciiCased "parseUrl".toList :=
    asciiCased_of_ascii fun c mem => of_decide_eq_true (List.all_eq_true.mp letters c mem)
  have found : Found Char.isUpper (fun _ _ => false) (namedStore urlNames) "parseUrl" :=
    (found_iff ⟨_, stored "2" (by decide), rfl⟩).mpr (ownTokens_of_asciiCased cased)
  exact ⟨found, fun id mem => found.all _ (stored id mem) rfl⟩

/-- `École` is asked for as `école`, which it does not contain. -/
theorem capital_missed :
    ¬ Found (fun c => c.isUpper || c == 'É') (fun _ _ => false) (sampleStore "École") "École" := by
  intro found
  have mem := mem_listSymbols.mp (found.all _ (stored_sample "École") rfl)
  have tokens : tokenizeSymbolQuery (fun c => c.isUpper || c == 'É') (fun _ _ => false) "École" =
      ["école"] := by
    decide +kernel
  rw [tokens, if_neg fun both => absurd both.2 (by decide)] at mem
  have held := (mem_querySymbols.mp mem).2
  rw [nameMatches, tokens] at held
  revert held
  decide

end Ministr.Content
