/-
# Ingestion.Symbols — code symbols and the references between them

`extract_code_symbols` replaces the symbols of one file and resolves the file's
references by name against the symbols stored at that moment.  A name nothing
defines yet is left pending; the pending references of a run get one more try at
its end, and what stays unresolved is written to `pending_refs`.

What the grammars make of a file's content is a parameter: `Extraction` is the
list of items and raw references of a parsed file, or the records of the shader
and C++ lexers, which resolve no references.
-/
import Ministr.Content.Store

namespace Ministr.Ingestion

open Ministr.Theory Ministr.Content

set_option autoImplicit false

/-! ## What the grammars deliver -/

inductive ItemKind where
  | function | struct | enum | trait | impl | module | type | const | static
  deriving DecidableEq, Repr

/-- `ItemKind::as_str`. -/
def ItemKind.asStr : ItemKind → String
  | .function => "function"
  | .struct => "struct"
  | .enum => "enum"
  | .trait => "trait"
  | .impl => "impl"
  | .module => "module"
  | .type => "type"
  | .const => "const"
  | .static => "static"

/-- An item of a parsed file; `fullText` is its source text. -/
structure CodeSymbol where
  name : String
  kind : ItemKind
  visibility : String
  signature : String
  docComment : Option String
  modulePath : List String
  lineStart : Nat
  lineEnd : Nat
  cyclomaticComplexity : Option Nat
  fullText : String
  deriving DecidableEq, Repr

structure RawRef where
  targetName : String
  kind : RefKind
  line : Nat
  fromContext : Option String
  targetCrate : Option String
  deriving DecidableEq, Repr

/-- A declaration a lexer found, with the text its lines cover. -/
structure LexedSymbol where
  modulePath : String
  name : String
  kind : String
  signature : String
  lineStart : Nat
  lineEnd : Nat
  lines : Option String
  deriving DecidableEq, Repr

/-- The content of a file, as the grammars see it.  `unsupported` is a file with no
grammar, or one its grammar could not parse. -/
inductive Extraction where
  | unsupported
  | tree (symbols : List CodeSymbol) (refs : List RawRef)
  | lexed (symbols : List LexedSymbol)
  deriving DecidableEq, Repr

structure PackageInfo where
  name : String
  crateName : String
  dirPrefix : String
  deriving DecidableEq, Repr

/-- The packages of a workspace. -/
abbrev PackageGraph := List PackageInfo

/-- `dir_prefix_for_crate`. -/
def PackageGraph.dirPrefixForCrate (graph : PackageGraph) (crateName : String) : Option String :=
  (graph.find? fun p => p.crateName = crateName).map PackageInfo.dirPrefix

/-- `package_for_file`. -/
def PackageGraph.packageForFile (graph : PackageGraph) (path : String) : Option String :=
  (graph.find? fun p => startsWith path p.dirPrefix).map PackageInfo.name

/-- The language of a path, by the extension table of the grammar registry. -/
abbrev LanguageOf := String → Option String

/-! ## Symbol rows and their embedding pairs -/

def symbolId (path : String) (sym : CodeSymbol) : String :=
  let qualifiedName := if sym.kind = .impl then "impl-" ++ sym.name else sym.name
  let moduleStr := "::".intercalate sym.modulePath
  if moduleStr.isEmpty then "sym-" ++ path ++ "::" ++ qualifiedName
  else "sym-" ++ path ++ "::" ++ moduleStr ++ "::" ++ qualifiedName

def symbolRecord (path : String) (sym : CodeSymbol) : SymbolRecord where
  id := symbolId path sym
  filePath := path
  name := sym.name
  kind := sym.kind.asStr
  visibility := sym.visibility
  signature := sym.signature
  docComment := sym.docComment
  modulePath := "::".intercalate sym.modulePath
  lineStart := sym.lineStart
  lineEnd := sym.lineEnd
  cyclomaticComplexity := sym.cyclomaticComplexity

/-- `make_record`, of the shader and of the C++ lexer. -/
def makeRecord (path : String) (sym : LexedSymbol) : SymbolRecord where
  id :=
    if sym.modulePath.isEmpty then "sym-" ++ path ++ "::" ++ sym.name
    else "sym-" ++ path ++ "::" ++ sym.modulePath ++ "::" ++ sym.name
  filePath := path
  name := sym.name
  kind := sym.kind
  visibility := "public"
  signature := sym.signature
  docComment := none
  modulePath := sym.modulePath
  lineStart := sym.lineStart
  lineEnd := sym.lineEnd
  cyclomaticComplexity := none

/-- A symbol's two embedding pairs; a blank text has none. -/
def symbolPairs (id stubText : String) (fullText : Option String) : List (VectorId × String) :=
  (if blank stubText then [] else [(.symbolStub id, stubText)])
    ++ (match fullText with
        | none => []
        | some text => if blank text then [] else [(.symbolFull id, text)])

def CodeSymbol.stubText (sym : CodeSymbol) : String :=
  match sym.docComment with
  | some doc => sym.signature ++ "\n" ++ doc
  | none => sym.signature

def treePairs (path : String) (sym : CodeSymbol) : List (VectorId × String) :=
  symbolPairs (symbolRecord path sym).id sym.stubText (some sym.fullText)

def lexedPairs (path : String) (sym : LexedSymbol) : List (VectorId × String) :=
  let stubText := if blank sym.signature then sym.name else sym.signature
  symbolPairs (makeRecord path sym).id stubText sym.lines

/-- The symbol rows a file's content gives. -/
def Extraction.records (path : String) : Extraction → List SymbolRecord
  | .unsupported => []
  | .tree symbols _ => symbols.map (symbolRecord path)
  | .lexed symbols => symbols.map (makeRecord path)

/-- The embedding pairs of those symbols. -/
def Extraction.pairs (path : String) : Extraction → List (VectorId × String)
  | .unsupported => []
  | .tree symbols _ => symbols.flatMap (treePairs path)
  | .lexed symbols => symbols.flatMap (lexedPairs path)

theorem Extraction.records_filePath {path : String} {extraction : Extraction} {r : SymbolRecord}
    (mem : r ∈ extraction.records path) : r.filePath = path := by
  cases extraction with
  | unsupported => cases mem
  | tree symbols refs =>
      obtain ⟨sym, -, rfl⟩ := List.mem_map.mp mem
      rfl
  | lexed symbols =>
      obtain ⟨sym, -, rfl⟩ := List.mem_map.mp mem
      rfl

theorem mem_symbolPairs {id stubText : String} {fullText : Option String}
    {pair : VectorId × String} (mem : pair ∈ symbolPairs id stubText fullText) :
    pair.1 = .symbolStub id ∨ pair.1 = .symbolFull id := by
  simp only [symbolPairs, List.mem_append] at mem
  rcases mem with mem | mem
  · split at mem
    · cases mem
    · exact .inl (by rw [List.mem_singleton.mp mem])
  · cases fullText with
    | none => cases mem
    | some text =>
        simp only at mem
        split at mem
        · cases mem
        · exact .inr (by rw [List.mem_singleton.mp mem])

/-- Every symbol pair is for a row of the same file. -/
theorem Extraction.pairs_records {path : String} {extraction : Extraction}
    {pair : VectorId × String} (mem : pair ∈ extraction.pairs path) :
    ∃ r ∈ extraction.records path, pair.1 = .symbolStub r.id ∨ pair.1 = .symbolFull r.id := by
  cases extraction with
  | unsupported => cases mem
  | tree symbols refs =>
      obtain ⟨sym, inFile, mem⟩ := List.mem_flatMap.mp mem
      exact ⟨_, List.mem_map_of_mem inFile, mem_symbolPairs mem⟩
  | lexed symbols =>
      obtain ⟨sym, inFile, mem⟩ := List.mem_flatMap.mp mem
      exact ⟨_, List.mem_map_of_mem inFile, mem_symbolPairs mem⟩

/-! ## Where a reference starts -/

/-- `enclosing_symbol_id`: the first of the narrowest owners around the line. -/
def enclosingSymbolId (locals : List SymbolRecord) (line : Nat) : Option String :=
  let owners := locals.filter fun s =>
    decide (s.lineStart ≤ line ∧ line ≤ s.lineEnd)
      && ["function", "method", "impl", "mod"].contains s.kind
  let best := owners.foldl (fun best s =>
    match best with
    | none => some s
    | some (b : SymbolRecord) =>
        if s.lineEnd - s.lineStart < b.lineEnd - b.lineStart then some s else some b) none
  best.map SymbolRecord.id

/-- The symbol that stands for the whole file. -/
def fileAnchor (locals : List SymbolRecord) : Option String :=
  ((locals.find? fun s => s.kind = "module")
    <|> (locals.find? fun s => ["struct", "enum", "trait", "function", "type"].contains s.kind)
    <|> locals.head?).map SymbolRecord.id

/-- The symbol a reference is attributed to. -/
def fromId (locals : List SymbolRecord) (raw : RawRef) : Option String :=
  let named := raw.fromContext.bind fun context =>
    (locals.find? fun s => s.name = context
      && ["struct", "enum", "type", "function", "trait"].contains s.kind).map SymbolRecord.id
  named <|> enclosingSymbolId locals raw.line <|> fileAnchor locals

/-! ## Where a reference ends -/

/-- The resolution family of a language. -/
def family (language : String) : String :=
  if language = "javascript" ∨ language = "typescript" ∨ language = "tsx" then "js_ts"
  else if language = "c" ∨ language = "cpp" then "c_cpp"
  else language

/-- `languages_compatible`. -/
def languagesCompatible (languageOf : LanguageOf) (sourcePath targetPath : String) : Bool :=
  match languageOf sourcePath, languageOf targetPath with
  | some a, some b => family a = family b
  | _, _ => false

/-- The kinds `filter_primary` keeps. -/
def primaryKinds : List String :=
  ["struct", "enum", "trait", "function", "type", "const", "static", "module"]

/-- A row that a reference from `path` to `name` may resolve to. -/
def isCandidate (languageOf : LanguageOf) (path name : String) (row : SymbolRow) : Bool :=
  row.name = name && languagesCompatible languageOf path row.filePath
    && primaryKinds.contains row.kind

/-- The candidates in the store: `list_symbols`, then the language guard, then
`filter_primary`. -/
def candidates (languageOf : LanguageOf) (s : ContentStore) (path name : String) :
    List SymbolRecord :=
  ((s.listSymbols fun row => row.name = name).filter fun r =>
    languagesCompatible languageOf path r.filePath).filter fun r => primaryKinds.contains r.kind

/-- The first record outside `path`, or else the first one. -/
def preferCrossFile (path : String) (records : List SymbolRecord) : Option SymbolRecord :=
  (records.find? fun s => s.filePath ≠ path) <|> records.head?

/-- The candidates in the crate the reference names. -/
def crateFiltered (graph : Option PackageGraph) (targetCrate : Option String)
    (primary : List SymbolRecord) : List SymbolRecord :=
  match targetCrate, graph with
  | some tc, some g =>
      match g.dirPrefixForCrate tc with
      | some dir => primary.filter fun s => startsWith s.filePath dir
      | none => []
  | _, _ => []

/-- The candidates in the package of the file.  The prefix is looked up by crate name, and
`package_for_file` delivers a package name. -/
def samePkg (graph : Option PackageGraph) (path : String) (primary : List SymbolRecord) :
    List SymbolRecord :=
  match graph.bind fun g => (g.packageForFile path).bind g.dirPrefixForCrate with
  | some dir => primary.filter fun s => startsWith s.filePath dir
  | none => []

/-- `disambiguate_target`. -/
def disambiguateTarget (primary : List SymbolRecord) (path : String) (targetCrate : Option String)
    (graph : Option PackageGraph) : Option SymbolRecord :=
  match primary with
  | [] => none
  | [only] => some only
  | _ =>
      let crate := crateFiltered graph targetCrate primary
      let package := samePkg graph path primary
      if crate.isEmpty then
        if package.isEmpty then preferCrossFile path primary else preferCrossFile path package
      else if crate.length = 1 then crate.head?
      else preferCrossFile path crate

/-- The symbol a reference resolves to in the store. -/
def target (languageOf : LanguageOf) (graph : Option PackageGraph) (s : ContentStore)
    (path name : String) (targetCrate : Option String) : Option SymbolRecord :=
  disambiguateTarget (candidates languageOf s path name) path targetCrate graph

/-! ## Resolving -/

/-- A reference whose target was not stored when its file was processed. -/
structure PendingRef where
  fromId : String
  targetName : String
  kind : RefKind
  filePath : String
  targetCrate : Option String
  deriving DecidableEq, Repr

/-- What the first pass makes of one raw reference. -/
inductive Resolved where
  | dropped
  | pending (ref : PendingRef)
  | edge (ref : SymbolRef)
  deriving DecidableEq, Repr

section Resolve

variable (languageOf : LanguageOf) (graph : Option PackageGraph)

def resolveRef (s : ContentStore) (path : String) (locals : List SymbolRecord) (raw : RawRef) :
    Resolved :=
  match fromId locals raw with
  | none => .dropped
  | some source =>
      match target languageOf graph s path raw.targetName raw.targetCrate with
      | none =>
          .pending
            { fromId := source, targetName := raw.targetName, kind := raw.kind, filePath := path,
              targetCrate := raw.targetCrate }
      | some found =>
          if source = found.id then .dropped
          else if (locals.map SymbolRecord.id).contains source then
            .edge { fromSymbolId := source, toSymbolId := found.id, refKind := raw.kind }
          else .dropped

def Resolved.pending? : Resolved → Option PendingRef
  | .pending ref => some ref
  | _ => none

def Resolved.edge? : Resolved → Option SymbolRef
  | .edge ref => some ref
  | _ => none

/-- `resolve_and_store_refs`. -/
def resolveAndStoreRefs (s : ContentStore) (path : String) (locals : List SymbolRecord)
    (refs : List RawRef) : ContentStore × List PendingRef :=
  if refs.isEmpty then (s, [])
  else
    let s := s.deleteRefsForFile path
    let results := refs.map (resolveRef languageOf graph s path locals)
    ((results.filterMap Resolved.edge?).foldl ContentStore.insertSymbolRef s,
      results.filterMap Resolved.pending?)

/-- One pending reference at the end of a run. -/
def resolvePendingRef (s : ContentStore) (pr : PendingRef) : ContentStore :=
  match target languageOf graph s pr.filePath pr.targetName pr.targetCrate with
  | none => s
  | some found =>
      if pr.fromId = found.id then s
      else
        s.insertSymbolRef
          { fromSymbolId := pr.fromId, toSymbolId := found.id, refKind := pr.kind }

/-- `resolve_pending_refs`: the store, and the references still unresolved. -/
def resolvePendingRefs (s : ContentStore) : List PendingRef → ContentStore × List PendingRef
  | [] => (s, [])
  | pr :: rest =>
      let (t, still) := resolvePendingRefs (resolvePendingRef languageOf graph s pr) rest
      if (target languageOf graph s pr.filePath pr.targetName pr.targetCrate).isNone then
        (t, pr :: still)
      else (t, still)

/-- `persist_pending_refs`. -/
def persistPendingRefs (s : ContentStore) (pending : List PendingRef) : ContentStore :=
  { s with
    pendingRefs := s.pendingRefs.upsertAll (pending.map fun pr =>
      ((pr.fromId, pr.targetName, pr.kind),
        { filePath := pr.filePath, targetCrate := pr.targetCrate })) }

end Resolve

/-! ## One file -/

structure CodeSymbolsResult where
  pendingRefs : List PendingRef
  embeddingPairs : List (VectorId × String)
  deriving DecidableEq, Repr

/-- `extract_code_symbols`.  A parsed file without items returns before the delete;
the lexer paths delete first. -/
def extractCodeSymbols (languageOf : LanguageOf) (graph : Option PackageGraph) (s : ContentStore)
    (path : String) (extraction : Extraction) : ContentStore × CodeSymbolsResult :=
  let records := extraction.records path
  let embeddingPairs := extraction.pairs path
  match extraction with
  | .unsupported => (s, { pendingRefs := [], embeddingPairs })
  | .tree _ refs =>
      if records.isEmpty then (s, { pendingRefs := [], embeddingPairs })
      else
        let s := (s.deleteSymbolsForFile path).insertSymbols records
        let (s, pendingRefs) := resolveAndStoreRefs languageOf graph s path records refs
        (s, { pendingRefs, embeddingPairs })
  | .lexed _ =>
      ((s.deleteSymbolsForFile path).insertSymbols records, { pendingRefs := [], embeddingPairs })

/-! ## What it leaves alone -/

section Frame

variable (languageOf : LanguageOf) (graph : Option PackageGraph) {s : ContentStore}

theorem resolveAndStoreRefs_frame (path : String) (locals : List SymbolRecord)
    (refs : List RawRef) :
    ∃ edges, (resolveAndStoreRefs languageOf graph s path locals refs).1 =
      { s with symbolRefs := edges } := by
  unfold resolveAndStoreRefs
  split
  · exact ⟨s.symbolRefs, rfl⟩
  · obtain ⟨edges, same⟩ := ContentStore.insertSymbolRefs_frame (s := s.deleteRefsForFile path)
      ((refs.map (resolveRef languageOf graph (s.deleteRefsForFile path) path locals)).filterMap
        Resolved.edge?)
    exact ⟨edges, same⟩

/-- Only symbols and references are written. -/
theorem extractCodeSymbols_tables (path : String) (extraction : Extraction) :
    ∃ symbols edges, (extractCodeSymbols languageOf graph s path extraction).1 =
      { s with symbols, symbolRefs := edges } := by
  obtain ⟨refs, inserted⟩ := ContentStore.insertSymbols_frame (s := s.deleteSymbolsForFile path)
    (extraction.records path)
  unfold extractCodeSymbols
  dsimp only
  rw [inserted]
  cases extraction with
  | unsupported => exact ⟨s.symbols, s.symbolRefs, rfl⟩
  | tree symbols rawRefs =>
      dsimp only
      split
      · exact ⟨s.symbols, s.symbolRefs, rfl⟩
      · exact ⟨_, resolveAndStoreRefs_frame languageOf graph _ _ _⟩
  | lexed symbols => exact ⟨_, refs, rfl⟩

/-- On a path that has no symbols, the file's own rows are written, and references. -/
theorem extractCodeSymbols_frame {path : String} (extraction : Extraction)
    (vacant : ∀ id row, s.symbols.lookup id = some row → row.filePath ≠ path) :
    ∃ edges, (extractCodeSymbols languageOf graph s path extraction).1 =
      { s with
        symbols := s.symbols.upsertAll ((extraction.records path).map fun r =>
          (r.id, r.toSymbolRow))
        symbolRefs := edges } := by
  obtain ⟨refs, inserted⟩ := ContentStore.insertSymbols_frame (s := s) (extraction.records path)
  unfold extractCodeSymbols
  dsimp only
  rw [ContentStore.deleteSymbolsForFile_eq_self vacant, inserted]
  cases extraction with
  | unsupported => exact ⟨s.symbolRefs, rfl⟩
  | tree symbols rawRefs =>
      dsimp only
      split
      · rename_i empty
        rw [List.isEmpty_iff.mp empty]
        exact ⟨s.symbolRefs, rfl⟩
      · exact resolveAndStoreRefs_frame languageOf graph _ _ _
  | lexed symbols => exact ⟨refs, rfl⟩

theorem extractCodeSymbols_pairs (path : String) (extraction : Extraction) :
    (extractCodeSymbols languageOf graph s path extraction).2.embeddingPairs =
      extraction.pairs path := by
  unfold extractCodeSymbols
  cases extraction with
  | unsupported => rfl
  | tree symbols refs =>
      dsimp only
      split <;> rfl
  | lexed symbols => rfl

end Frame

end Ministr.Ingestion
