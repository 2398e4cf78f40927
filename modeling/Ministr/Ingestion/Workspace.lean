/-
# Ingestion.Workspace — the operations that write documents and vectors

The entry points that store and embed a document (`ingest_content_with_embeddings`,
and `parse_and_store_file` with the embed stage behind it), the three removals, and
the repair that clears `file_hashes` when the documents are gone.  `Workspace.step`
takes one completed call; a call that fails is not a step.

The parsers all give a tree the id and the source path of the file they were handed;
`ParsedDocument` carries that.  Embedders are parameters.
-/
import Ministr.Ingestion.Process

namespace Ministr.Ingestion

open Ministr.Theory Ministr.Content Ministr.Index

set_option autoImplicit false

/-- A tree as the parsers deliver it. -/
abbrev ParsedDocument (path : String) :=
  { doc : DocumentTree // doc.id = path ∧ doc.sourcePath = path }

/-- `SparseEmbedder::embed_sparse_docs`: the terms and weights of each text. -/
abbrev SparseEmbedder (K : Type) :=
  List (String × String) → Except String (List (List TermId × List K))

/-- The configuration of an ingestion run. -/
structure Pipeline (α K : Type) where
  enricher : Enricher
  computeContentHash : String → String
  parse : (path : String) → String → Option (ParsedDocument path)
  isCode : String → Bool
  extract : String → String → Extraction
  languageOf : LanguageOf
  packageGraph : Option PackageGraph
  contextualizeEmbeddings : Bool
  inIgnoredDir : String → Bool
  embed : Embedder α
  embedSparse : Option (SparseEmbedder K)

/-- The pairs under the texts of their ids. -/
def named (pairs : List (VectorId × String)) : List (String × String) :=
  pairs.map fun pair => (pair.1.asStr, pair.2)

/-- `sparse_embed_and_insert`. -/
def sparseEmbedAndInsert {K : Type} (embed : SparseEmbedder K) (sparse : InvertedIndexInner String K)
    (pairs : List (String × String)) : Except IngestionError (InvertedIndexInner String K) :=
  if pairs.isEmpty then .ok sparse
  else
    match embed pairs with
    | .error reason => .error (.embedding ⟨"sparse embedding failed: " ++ reason⟩)
    | .ok vectors =>
        .ok ((pairs.zip vectors).foldl (fun sparse e => sparse.insertSparse e.1.1 e.2.1 e.2.2) sparse)

namespace Workspace

variable {α K : Type} [Component α]

/-- The sparse side of an embedding, when it is configured. -/
def embedSparsePairs (p : Pipeline α K) (w : Workspace α K) (pairs : List (VectorId × String)) :
    Except IngestionError (Workspace α K) :=
  match p.embedSparse, w.sparse with
  | some embed, some sparse => do
      let sparse ← sparseEmbedAndInsert embed sparse (named pairs)
      .ok { w with sparse := some sparse }
  | _, _ => .ok w

/-- `embed_document`: one call of the embedder for all pairs. -/
def embedDocument (p : Pipeline α K) (w : Workspace α K) (pairs : List (VectorId × String)) :
    Except IngestionError (Workspace α K) :=
  if pairs.isEmpty then .ok w
  else
    match w.vectors.embedChunk p.embed (named pairs) with
    | .error error => .error (.embedding error)
    | .ok vectors => .ok { w with vectors }

/-- `batch_embed_and_insert`. -/
def embedBatch (p : Pipeline α K) (w : Workspace α K) (pairs : List (VectorId × String)) :
    Except IngestionError (Workspace α K) :=
  match w.vectors.batchEmbedAndInsert p.embed (named pairs) with
  | .error error => .error (.embedding error)
  | .ok (vectors, _) => .ok { w with vectors }

/-- `extract_code_symbols`, on the store of the workspace. -/
def extractSymbols (p : Pipeline α K) (graph : Option PackageGraph) (w : Workspace α K)
    (path content : String) : Workspace α K × CodeSymbolsResult :=
  let (store, result) := extractCodeSymbols p.languageOf graph w.store path (p.extract path content)
  ({ w with store }, result)

/-- `ingest_content_with_embeddings`. -/
def ingestContentWithEmbeddings (p : Pipeline α K) (w : Workspace α K) (path content : String) :
    Except IngestionError (Workspace α K) :=
  let hash := p.computeContentHash content
  if ((w.store.getFileHash path).any fun existing => existing.contentHash = hash) then .ok w
  else
    match p.parse path content with
    | none => .error .parse
    | some doc => do
        let (w, doc) ← storeEnrichedDocument p.enricher w doc path hash none
          (w.store.getFileHash path).isSome
        let pairs := collectDocumentEmbeddings false doc
        let w ← w.embedDocument p pairs
        let w ← w.embedSparsePairs p pairs
        if p.isCode path then do
          let (w, symbols) := w.extractSymbols p none path content
          let w ← w.embedBatch p symbols.embeddingPairs
          w.embedSparsePairs p symbols.embeddingPairs
        else .ok w

/-- What `parse_and_store_file` makes of one file. -/
inductive FileResult where
  | skipped
  | indexed (pendingRefs : List PendingRef) (embeddingPairs : List (VectorId × String))
  deriving DecidableEq, Repr

/-- The stored row was written by the current extractor and resolver. -/
def cacheFresh (existing : FileHashRow) : Bool :=
  extractorVersion ≤ existing.extractorVersion && resolverVersion ≤ existing.resolverVersion

/-- The mtime skip of `parse_and_store_file`. -/
def unchangedByMtime (existing : Option FileHashRow) (mtimeNs : Option Int) : Bool :=
  existing.any fun row => cacheFresh row && row.mtimeNs.isSome && row.mtimeNs == mtimeNs

/-- The content skip of `parse_and_store_file`. -/
def unchangedByHash (existing : Option FileHashRow) (hash : String) : Bool :=
  existing.any fun row => cacheFresh row && row.contentHash == hash

/-- `parse_and_store_file`: the file is skipped by its mtime or its hash, or parsed
and stored with its embedding pairs left for the embed stage. -/
def parseAndStoreFile (p : Pipeline α K) (w : Workspace α K) (path content : String)
    (mtimeNs : Option Int) : Except IngestionError (Workspace α K × FileResult) :=
  if p.inIgnoredDir path then .ok (w, .skipped)
  else
    let existing := w.store.getFileHash path
    if unchangedByMtime existing mtimeNs then .ok (w, .skipped)
    else
      let hash := p.computeContentHash content
      if unchangedByHash existing hash then
        .ok ({ w with store := w.store.upsertFileHash path (freshHash hash mtimeNs) }, .skipped)
      else
        match p.parse path content with
        | none => .error .parse
        | some doc => do
            let (w, doc) ← storeEnrichedDocument p.enricher w doc path hash mtimeNs existing.isSome
            let pairs := collectDocumentEmbeddings p.contextualizeEmbeddings doc
            if p.isCode path then
              let (w, symbols) := w.extractSymbols p p.packageGraph path content
              .ok (w, .indexed symbols.pendingRefs (pairs ++ symbols.embeddingPairs))
            else .ok (w, .indexed [] pairs)

/-- One file through `parse_and_store_file` and then the embed stage. -/
def ingestFile (p : Pipeline α K) (w : Workspace α K) (path content : String)
    (mtimeNs : Option Int) : Except IngestionError (Workspace α K) := do
  let (w, result) ← w.parseAndStoreFile p path content mtimeNs
  match result with
  | .skipped => .ok w
  | .indexed _ pairs => do
      let w ← w.embedBatch p pairs
      w.embedSparsePairs p pairs

end Workspace

/-! ## Removals -/

/-- `strip_root_prefix` succeeds: the path is `root-` and sixteen hex digits, then a
slash. -/
def namespaced (path : String) : Bool :=
  let text := path.toList
  let head := text.takeWhile fun c => c ≠ '/'
  startsWith path "root-" && decide (22 < text.length) && decide (head.length < text.length)
    && decide (head.length = 21)
    && (head.drop 5).all fun c => c.isDigit || decide ('a' ≤ c ∧ c ≤ 'f') || decide ('A' ≤ c ∧ c ≤ 'F')

/-- `namespace_path`. -/
def namespacePath (rootId relativePath : String) : String := rootId ++ "/" ++ relativePath

namespace Workspace

variable {α K : Type}

/-- A document with all it owns: vectors first, then the row, then its hash. -/
def removeDocument (w : Workspace α K) (docId hashPath : String) : Workspace α K :=
  let w := w.deleteDocumentVectors docId
  { w with store := (w.store.deleteDocument docId).deleteFileHash hashPath }

/-- `remove_document_with_embeddings`. -/
def removeDocumentWithEmbeddings (w : Workspace α K) (docId : String) : Workspace α K :=
  w.removeDocument docId docId

/-- A removal followed by `delete_symbols_for_file`. -/
def removeWithSymbols (w : Workspace α K) (docId path : String) : Workspace α K :=
  let w := w.removeDocument docId path
  { w with store := w.store.deleteSymbolsForFile path }

/-- `CoherenceEngine::remove_file`. -/
def removeFile (w : Workspace α K) (relative : String) : Workspace α K :=
  w.removeWithSymbols relative relative

/-- The documents `sweep_stale_documents` removes: those this root answers for and
discovery did not turn up. -/
def staleDocuments (store : ContentStore) (rootId : Option String) (files : List String) :
    List (String × DocumentRow) :=
  let discovered := files.flatMap fun raw =>
    match rootId with
    | some rid => [namespacePath rid raw, raw]
    | none => [raw]
  let ours := fun (path : String) => rootId.any fun rid => startsWith path (rid ++ "/")
  let docs := store.listDocuments
  let hasForeignRoot := docs.any fun d => namespaced d.2.sourcePath && !ours d.2.sourcePath
  docs.filter fun d =>
    (if namespaced d.2.sourcePath then ours d.2.sourcePath else rootId.isNone || !hasForeignRoot)
      && !discovered.contains d.2.sourcePath

/-- `sweep_stale_documents`; nothing is swept when no file was discovered. -/
def sweepStaleDocuments (w : Workspace α K) (rootId : Option String) (files : List String) :
    Workspace α K :=
  if files.isEmpty then w
  else
    (staleDocuments w.store rootId files).foldl
      (fun w d => w.removeWithSymbols d.1 d.2.sourcePath) w

/-- `all_files_unchanged_by_mtime` for the stored keys and mtimes of the discovered
files: hashes without any document are cleared, so that the files are parsed again. -/
def allFilesUnchangedByMtime (w : Workspace α K) (files : List (String × Option Int)) :
    Workspace α K × Bool :=
  let unchanged := fun (file : String × Option Int) =>
    match w.store.fileHashes.lookup file.1 with
    | none => false
    | some row => row.mtimeNs.isSome && row.mtimeNs == file.2
  if w.store.fileHashes.keys.length ≠ files.length then (w, false)
  else if !files.all unchanged then (w, false)
  else if w.store.documentCount = 0 ∧ files ≠ [] then
    ({ w with store := w.store.clearFileHashes }, false)
  else (w, true)

end Workspace

/-! ## Runs -/

/-- A call on the workspace.  Each ingest brings its own configuration. -/
inductive WorkspaceOp (α K : Type) where
  | ingestContent (p : Pipeline α K) (path content : String)
  | ingestFile (p : Pipeline α K) (path content : String) (mtimeNs : Option Int)
  | removeDocument (docId : String)
  | removeFile (relative : String)
  | sweep (rootId : Option String) (files : List String)
  | checkMtimes (files : List (String × Option Int))

/-- The workspace after a call that completed. -/
def Workspace.step {α K : Type} [Component α] (w : Workspace α K) :
    WorkspaceOp α K → Option (Workspace α K)
  | .ingestContent p path content => (w.ingestContentWithEmbeddings p path content).toOption
  | .ingestFile p path content mtimeNs => (w.ingestFile p path content mtimeNs).toOption
  | .removeDocument docId => some (w.removeDocumentWithEmbeddings docId)
  | .removeFile relative => some (w.removeFile relative)
  | .sweep rootId files => some (w.sweepStaleDocuments rootId files)
  | .checkMtimes files => some (w.allFilesUnchangedByMtime files).1

/-- A new workspace. -/
def Workspace.new {α K : Type} (index : HnswInner String α) (hybrid : Bool) : Workspace α K where
  store := .empty
  vectors := { index, store := .empty }
  sparse := if hybrid then some .new else none

end Ministr.Ingestion
