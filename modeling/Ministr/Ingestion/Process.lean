/-
# Ingestion.Process — storing one document and tearing its vectors down

`store_enriched_document` is the core every entry point shares: reshape the
parsed sections, make their ids distinct, enrich them, tear down what the path
held before, insert the tree and record its content hash.  The teardown lists the
rows of the old document, so it has to run before the cascade takes them away.

The token counter, the claim extractor and the summary generator are parameters.
Claim relationships, which nothing here reads, are not modelled.
-/
import Ministr.Index.Inverted
import Ministr.Index.Rebuild
import Ministr.Ingestion.Symbols

namespace Ministr.Ingestion

open Ministr.Theory Ministr.Content Ministr.Index

set_option autoImplicit false

/-- `EXTRACTOR_VERSION`. -/
def extractorVersion : Nat := 14

/-- `RESOLVER_VERSION`. -/
def resolverVersion : Nat := 3

/-- `PARAGRAPH_SPLIT_THRESHOLD`. -/
def paragraphSplitThreshold : Nat := 500

/-- `SUMMARY_MAX_SENTENCES`. -/
def summaryMaxSentences : Nat := 3

/-- `DOC_SUMMARY_MAX_SENTENCES`. -/
def docSummaryMaxSentences : Nat := 5

/-- The collaborators of the enrichment. -/
structure Enricher where
  countTokens : String → Nat
  minSectionTokens : Nat
  extractClaims : String → String → List Claim
  summarize : String → Nat → String

/-! ## Reshaping -/

/-- The paragraphs of a section, each as a section of its own. -/
def paragraphSections (sourcePath : String) : List (List Char × Nat) → Sections
  | [] => .nil
  | (para, i) :: rest =>
      .cons
        { id := sourcePath ++ "#paragraph-" ++ toString i, headingPath := [], depth := 0,
          text := String.ofList para, claims := [], summary := none }
        .nil (paragraphSections sourcePath rest)

/-- `split_large_headingless_section`. -/
def splitLargeHeadinglessSection (sourcePath : String) (body : SectionBody) (children : Sections) :
    Sections :=
  if body.depth ≠ 0 ∨ Content.wordCount body.text ≤ paragraphSplitThreshold then .cons body children .nil
  else
    let paragraphs := ((splitParagraphs [] body.text.toList).map trim).filter fun p => !p.isEmpty
    if paragraphs.length ≤ 1 then .cons body children .nil
    else paragraphSections sourcePath paragraphs.zipIdx

def splitSections (sourcePath : String) : Sections → Sections
  | .nil => .nil
  | .cons body children rest =>
      (splitLargeHeadinglessSection sourcePath body children).append (splitSections sourcePath rest)

/-- `merge_into`, without the children. -/
def mergeInto (prev body : SectionBody) : SectionBody :=
  let heading := body.headingPath.getLast?.getD ""
  { prev with
    text := prev.text
      ++ (if heading.isEmpty then "\n\n" else "\n\n### " ++ heading ++ "\n\n") ++ body.text }

/-- The sections read so far end with `last`. -/
def flushLast (last : Option (SectionBody × Sections)) (rest : Sections) : Sections :=
  match last with
  | none => rest
  | some (body, children) => .cons body children rest

/-- The loop of `coalesce_small_sections`; `last` is the end of `result`, which a
small section may be merged into. -/
def coalesceFrom (e : Enricher) (last : Option (SectionBody × Sections)) : Sections → Sections
  | .nil => flushLast last .nil
  | .cons body children rest =>
      let own := (body, coalesceFrom e none children)
      match last with
      | none => coalesceFrom e (some own) rest
      | some (prev, prevChildren) =>
          if e.countTokens body.text < e.minSectionTokens ∧ prev.depth = body.depth
              ∧ e.countTokens prev.text < e.minSectionTokens then
            coalesceFrom e (some (mergeInto prev body, prevChildren.append children)) rest
          else flushLast last (coalesceFrom e (some own) rest)

/-- `coalesce_small_sections`. -/
def coalesceSmallSections (e : Enricher) (sections : Sections) : Sections :=
  if e.minSectionTokens = 0 then sections else coalesceFrom e none sections

/-! ## Enriching -/

/-- What `enrich_sections` does to one section. -/
def enrichBody (e : Enricher) (body : SectionBody) : SectionBody :=
  if blank body.text then body
  else
    let summary := e.summarize body.text summaryMaxSentences
    { body with
      claims := e.extractClaims body.text body.id
      summary := if summary.isEmpty then body.summary else some summary }

/-- `collect_all_text`. -/
def collectAllText (sections : Sections) : String :=
  " ".intercalate ((sections.bodies.map SectionBody.text).filter fun text => !blank text)

/-- Steps 1 to 5 of `store_enriched_document`; `none` is the panic of
`deduplicate_ids`. -/
def enrichDocument (e : Enricher) (doc : DocumentTree) (sourcePath : String) :
    Option DocumentTree :=
  let shaped := coalesceSmallSections e (splitSections sourcePath doc.sections)
  (DocumentTree.deduplicateIds { doc with sections := shaped }).map fun doc =>
    let sections := doc.sections.mapBodies (enrichBody e)
    let allText := collectAllText sections
    { doc with
      sections
      summary :=
        if allText.isEmpty then doc.summary
        else some (e.summarize allText docSummaryMaxSentences) }

/-- Reshaping and enriching keep the document where it is, with distinct ids. -/
theorem enrichDocument_spec {e : Enricher} {doc doc' : DocumentTree} {path : String}
    (done : enrichDocument e doc path = some doc') :
    doc'.id = doc.id ∧ doc'.sourcePath = doc.sourcePath ∧ doc'.sections.ids.Nodup := by
  obtain ⟨shaped, deduped, rfl⟩ := Option.map_eq_some_iff.mp done
  obtain ⟨⟨sections, seen⟩, ran, rfl⟩ := Option.map_eq_some_iff.mp deduped
  refine ⟨rfl, rfl, ?_⟩
  have same : (sections.mapBodies (enrichBody e)).ids = sections.ids := by
    simp only [Sections.ids, Sections.bodies_mapBodies, List.map_map]
    refine List.map_congr_left fun body _ => ?_
    simp only [Function.comp, enrichBody]
    split <;> rfl
  rw [same]
  exact (Sections.dedup_ids ran).1

/-! ## Embedding pairs -/

/-- The crumbs of a heading path; a path-like first one is cut to its last part. -/
def crumbs (headingPath : List String) : List String :=
  headingPath.zipIdx.filterMap fun (heading, i) =>
    let h := trim heading.toList
    if h.isEmpty then none
    else if i = 0 then
      some (String.ofList (h.reverse.takeWhile fun c => c ≠ '/' ∧ c ≠ '\\').reverse)
    else some (String.ofList h)

/-- `contextualize_text`. -/
def contextualizeText (headingPath : List String) (text : String) : String :=
  if (crumbs headingPath).isEmpty then text
  else
    let breadcrumb := " › ".intercalate (crumbs headingPath)
    if startsWith text breadcrumb then text else breadcrumb ++ "\n\n" ++ text

/-- The pairs of one section: a summary its text does not start with, the text,
and the claims. -/
def bodyPairs (contextualize : Bool) (body : SectionBody) : List (VectorId × String) :=
  let inContext := fun text => if contextualize then contextualizeText body.headingPath text else text
  (match body.summary with
    | some summary =>
        if blank summary || startsWith body.text summary then []
        else [(.secSummary body.id, inContext summary)]
    | none => [])
  ++ (if blank body.text then [] else [(.section body.id, inContext body.text)])
  ++ (body.claims.filter fun claim => !blank claim.text).map fun claim =>
      (.claim claim.id, claim.text)

/-- `collect_document_embeddings`, with `collect_embeddable_items` inside. -/
def collectDocumentEmbeddings (contextualize : Bool) (doc : DocumentTree) :
    List (VectorId × String) :=
  (match doc.summary with
    | some summary => if blank summary then [] else [(.docSummary doc.id, summary)]
    | none => [])
  ++ doc.sections.bodies.flatMap (bodyPairs contextualize)

/-- The ids a tree is embedded under are those of its own rows. -/
theorem mem_collectDocumentEmbeddings {contextualize : Bool} {doc : DocumentTree}
    {pair : VectorId × String} (mem : pair ∈ collectDocumentEmbeddings contextualize doc) :
    pair.1 = .docSummary doc.id ∨ ∃ body ∈ doc.sections.bodies,
      pair.1 = .secSummary body.id ∨ pair.1 = .section body.id ∨
        ∃ claim ∈ body.claims, pair.1 = .claim claim.id := by
  rcases List.mem_append.mp mem with mem | mem
  · split at mem
    · split at mem
      · cases mem
      · exact .inl (by rw [List.mem_singleton.mp mem])
    · cases mem
  · obtain ⟨body, inDoc, mem⟩ := List.mem_flatMap.mp mem
    refine .inr ⟨body, inDoc, ?_⟩
    simp only [bodyPairs, List.mem_append, List.mem_map, List.mem_filter] at mem
    rcases mem with (mem | mem) | ⟨claim, ⟨listed, -⟩, rfl⟩
    · split at mem
      · split at mem
        · cases mem
        · exact .inl (by rw [List.mem_singleton.mp mem])
      · cases mem
    · split at mem
      · cases mem
      · exact .inr (.inl (by rw [List.mem_singleton.mp mem]))
    · exact .inr (.inr ⟨claim, listed, rfl⟩)

/-! ## The workspace -/

/-- `IngestionError`, and the panic of the deduplication. -/
inductive IngestionError where
  | panicked
  | parse
  | storage (error : Content.StorageError)
  | embedding (error : EmbeddingError)
  deriving DecidableEq, Repr

/-- The database, the dense index with its stored vectors, and the sparse index
when one is configured. -/
structure Workspace (α K : Type) where
  store : ContentStore
  vectors : Corpus String α
  sparse : Option (InvertedIndexInner String K)

/-- The vector ids of a section and of its claims. -/
def sectionVectorIds (store : ContentStore) (sectionId : String) : List VectorId :=
  .secSummary sectionId :: .section sectionId
    :: (store.listClaims sectionId).map fun claim => .claim claim.1

/-- The vector ids of the symbols of a path. -/
def symbolVectorIds (store : ContentStore) (path : String) : List VectorId :=
  (store.listSymbols fun row => row.filePath = path).flatMap fun sym =>
    [.symbolStub sym.id, .symbolFull sym.id]

/-- The ids `delete_document_vectors` collects, in its order. -/
def documentVectorIds (store : ContentStore) (docId : String) : List VectorId :=
  .docSummary docId
    :: ((store.listSections docId).flatMap fun e => sectionVectorIds store e.1)
    ++ (match store.getDocument docId with
        | none => []
        | some doc => symbolVectorIds store doc.sourcePath)

namespace Workspace

variable {α K : Type}

/-- `delete_document_vectors`. -/
def deleteDocumentVectors (w : Workspace α K) (docId : String) : Workspace α K :=
  let removedVids := (documentVectorIds w.store docId).map VectorId.asStr
  { store :=
      match w.store.getDocument docId with
      | none => w.store
      | some doc => w.store.deleteSymbolsForFile doc.sourcePath
    vectors := w.vectors.deleteVectors removedVids
    sparse := w.sparse.map fun sparse =>
      removedVids.foldl (fun sparse vid => (sparse.deleteSparse vid).1) sparse }

/-- What the hash row of a stored file says. -/
def freshHash (contentHash : String) (mtimeNs : Option Int) : FileHashRow where
  contentHash := contentHash
  mtimeNs := mtimeNs
  extractorVersion := extractorVersion
  resolverVersion := resolverVersion

/-- `store_enriched_document`, with an index: the workspace and the tree as it was
stored. -/
def storeEnrichedDocument (e : Enricher) (w : Workspace α K) (doc : DocumentTree)
    (sourcePath contentHash : String) (mtimeNs : Option Int) (existingHash : Bool) :
    Except IngestionError (Workspace α K × DocumentTree) :=
  match enrichDocument e doc sourcePath with
  | none => .error .panicked
  | some doc =>
      let w :=
        if existingHash then
          let w := w.deleteDocumentVectors doc.id
          { w with store := w.store.deleteDocument doc.id }
        else w
      match w.store.insertDocument doc with
      | .error error => .error (.storage error)
      | .ok store =>
          .ok ({ w with store := store.upsertFileHash sourcePath (freshHash contentHash mtimeNs) },
            doc)

end Workspace

end Ministr.Ingestion
