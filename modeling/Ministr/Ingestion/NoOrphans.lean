/-
# Ingestion.NoOrphans — every vector id belongs to a stored row

The ids in `indexed_vectors`, in the dense index and in the sparse index are built
from the ids of documents, sections, claims and symbols.  A call may drop rows only
together with the vectors named after them.

Two facts about the tables carry the argument (`Tidy`): a symbol's path is the path
of a stored document, and a stored document has a hash row.  The first makes the
teardown of a document find all symbols of its path; the second makes the teardown
run whenever there is something to tear down, since it is only called when a hash row
exists.  `insert_document` deletes a document of the same path on its own, without its
vectors, and by then there is none.
-/
import Ministr.Index.HnswSearch
import Ministr.Index.LiveIndex
import Ministr.Ingestion.Workspace

namespace Ministr.Ingestion

open Ministr.Theory Ministr.Content Ministr.Index

set_option autoImplicit false

/-! ## Rows behind vector ids -/

/-- The row a vector id is named after is stored. -/
def Backed (s : ContentStore) : VectorId → Prop
  | .docSummary docId => docId ∈ s.documents
  | .secSummary sectionId => sectionId ∈ s.sections
  | .section sectionId => sectionId ∈ s.sections
  | .claim claimId => claimId ∈ s.claims
  | .symbolStub symbolId => symbolId ∈ s.symbols
  | .symbolFull symbolId => symbolId ∈ s.symbols

/-- The text is a vector id of a stored row. -/
def Covered (s : ContentStore) (id : String) : Prop :=
  ∃ v : VectorId, v.asStr = id ∧ Backed s v

/-- What the tables of a workspace satisfy between calls. -/
structure Tidy (s : ContentStore) : Prop where
  documents_at : ∀ id row, s.documents.lookup id = some row → row.sourcePath = id
  documents_hashed : ∀ id ∈ s.documents, id ∈ s.fileHashes
  sections_owned : ∀ id row, s.sections.lookup id = some row → row.documentId ∈ s.documents
  claims_owned : ∀ id row, s.claims.lookup id = some row → row.sectionId ∈ s.sections
  symbols_owned : ∀ id row, s.symbols.lookup id = some row → row.filePath ∈ s.documents

section Tables

variable {s t : ContentStore}

theorem tidy_empty : Tidy .empty := by
  constructor <;> simp [ContentStore.empty]

/-- The tables after a document and the symbols of its path are gone. -/
def teardown (s : ContentStore) (docId : String) : ContentStore :=
  ContentStore.deleteDocument
    (match s.getDocument docId with
      | none => s
      | some doc => s.deleteSymbolsForFile doc.sourcePath) docId

theorem teardown_documents {docId id : String} {row : DocumentRow} :
    (teardown s docId).documents.lookup id = some row ↔
      s.documents.lookup id = some row ∧ id ≠ docId := by
  unfold teardown ContentStore.deleteDocument
  split <;>
    simp [ContentStore.deleteDocumentsWhere_documents, ContentStore.deleteSymbolsForFile]

theorem teardown_sections (tidy : Tidy s) {docId id : String} {row : SectionRow} :
    (teardown s docId).sections.lookup id = some row ↔
      s.sections.lookup id = some row ∧ row.documentId ≠ docId := by
  have gone : s.sections.lookup id = some row →
      (s.hasDocument (fun id _ => id = docId) row.documentId = false ↔ row.documentId ≠ docId) := by
    intro found
    obtain ⟨doc, held⟩ := (Rows.mem_iff_lookup _ _).mp (tidy.sections_owned id row found)
    simp [ContentStore.hasDocument, held]
  unfold teardown ContentStore.deleteDocument
  split <;>
    · rw [ContentStore.deleteDocumentsWhere_sections]
      exact and_congr_right gone

theorem teardown_claims (tidy : Tidy s) {docId id : String} {row : ClaimRow} :
    (teardown s docId).claims.lookup id = some row ↔
      s.claims.lookup id = some row ∧ row.sectionId ∈ (teardown s docId).sections := by
  have gone : s.claims.lookup id = some row →
      (s.hasSectionOf (fun id _ => id = docId) row.sectionId = false ↔
        row.sectionId ∈ (teardown s docId).sections) := by
    intro found
    obtain ⟨owner, held⟩ := (Rows.mem_iff_lookup _ _).mp (tidy.claims_owned id row found)
    obtain ⟨doc, stored⟩ := (Rows.mem_iff_lookup _ _).mp (tidy.sections_owned _ _ held)
    rw [Rows.mem_iff_lookup]
    simp [teardown_sections tidy, ContentStore.hasSectionOf, ContentStore.hasDocument, held, stored]
  have claims : (teardown s docId).claims.lookup id = some row ↔
      s.claims.lookup id = some row ∧
        s.hasSectionOf (fun id _ => id = docId) row.sectionId = false := by
    unfold teardown ContentStore.deleteDocument
    split <;> exact ContentStore.deleteDocumentsWhere_claims
  rw [claims]
  exact and_congr_right gone

theorem teardown_symbols (tidy : Tidy s) {docId id : String} {row : SymbolRow} :
    (teardown s docId).symbols.lookup id = some row ↔
      s.symbols.lookup id = some row ∧ row.filePath ≠ docId := by
  unfold teardown ContentStore.deleteDocument
  cases held : s.getDocument docId with
  | none =>
      refine ⟨fun found => ⟨found, ?_⟩, And.left⟩
      rintro rfl
      obtain ⟨doc, stored⟩ := (Rows.mem_iff_lookup _ _).mp (tidy.symbols_owned id row found)
      rw [ContentStore.getDocument] at held
      rw [held] at stored
      cases stored
  | some doc =>
      have path : doc.sourcePath = docId := tidy.documents_at docId doc held
      rw [← path]
      exact ContentStore.deleteSymbolsForFile_symbols

theorem teardown_fileHashes {docId : String} : (teardown s docId).fileHashes = s.fileHashes := by
  unfold teardown
  split <;> rfl

theorem not_mem_teardown {docId : String} : docId ∉ (teardown s docId).documents := by
  rw [Rows.mem_iff_lookup]
  simp [teardown_documents]

theorem Tidy.teardown (tidy : Tidy s) (docId : String) : Tidy (teardown s docId) := by
  have kept : ∀ id, id ∈ s.documents → id ≠ docId → id ∈ (Ingestion.teardown s docId).documents := by
    intro id mem other
    obtain ⟨row, found⟩ := (Rows.mem_iff_lookup _ _).mp mem
    exact (Rows.mem_iff_lookup _ _).mpr ⟨row, teardown_documents.mpr ⟨found, other⟩⟩
  constructor
  · intro id row found
    exact tidy.documents_at id row (teardown_documents.mp found).1
  · intro id mem
    obtain ⟨row, found⟩ := (Rows.mem_iff_lookup _ _).mp mem
    rw [teardown_fileHashes]
    exact tidy.documents_hashed id
      ((Rows.mem_iff_lookup _ _).mpr ⟨row, (teardown_documents.mp found).1⟩)
  · intro id row found
    obtain ⟨found, other⟩ := (teardown_sections tidy).mp found
    exact kept _ (tidy.sections_owned id row found) other
  · intro id row found
    exact ((teardown_claims tidy).mp found).2
  · intro id row found
    obtain ⟨found, other⟩ := (teardown_symbols tidy).mp found
    exact kept _ (tidy.symbols_owned id row found) other

/-- **The teardown takes the vectors of every row it takes.**  A vector id that is
not among those it lists still has its row afterwards. -/
theorem Tidy.backed_teardown (tidy : Tidy s) {docId : String} {v : VectorId} (backed : Backed s v)
    (kept : v ∉ documentVectorIds s docId) : Backed (Ingestion.teardown s docId) v := by
  simp only [documentVectorIds, List.mem_cons, List.mem_append, List.mem_flatMap, not_or] at kept
  obtain ⟨⟨notSummary, notSection⟩, notSymbol⟩ := kept
  have sectionKept : ∀ id, id ∈ s.sections → v ∈ sectionVectorIds s id →
      id ∈ (Ingestion.teardown s docId).sections := by
    intro id mem listed
    obtain ⟨row, found⟩ := (Rows.mem_iff_lookup _ _).mp mem
    refine (Rows.mem_iff_lookup _ _).mpr ⟨row, (teardown_sections tidy).mpr ⟨found, fun own => ?_⟩⟩
    exact notSection ⟨(id, row), ContentStore.mem_listSections.mpr ⟨found, own⟩, listed⟩
  have symbolKept : ∀ id, id ∈ s.symbols → (v = .symbolStub id ∨ v = .symbolFull id) →
      id ∈ (Ingestion.teardown s docId).symbols := by
    intro id mem named
    obtain ⟨row, found⟩ := (Rows.mem_iff_lookup _ _).mp mem
    refine (Rows.mem_iff_lookup _ _).mpr ⟨row, (teardown_symbols tidy).mpr ⟨found, ?_⟩⟩
    rintro rfl
    obtain ⟨doc, stored⟩ := (Rows.mem_iff_lookup _ _).mp (tidy.symbols_owned id row found)
    have path : doc.sourcePath = row.filePath := tidy.documents_at _ _ stored
    rw [ContentStore.getDocument, stored] at notSymbol
    refine notSymbol (List.mem_flatMap.mpr ⟨{ row with id }, ?_, by simpa using named⟩)
    exact ContentStore.mem_listSymbols.mpr ⟨found, by simp [path]⟩
  cases v with
  | docSummary id =>
      obtain ⟨row, found⟩ := (Rows.mem_iff_lookup _ _).mp backed
      refine (Rows.mem_iff_lookup _ _).mpr ⟨row, teardown_documents.mpr ⟨found, ?_⟩⟩
      rintro rfl
      exact notSummary rfl
  | secSummary id => exact sectionKept id backed (by simp [sectionVectorIds])
  | «section» id => exact sectionKept id backed (by simp [sectionVectorIds])
  | claim id =>
      obtain ⟨row, found⟩ := (Rows.mem_iff_lookup _ _).mp backed
      refine (Rows.mem_iff_lookup _ _).mpr ⟨row, (teardown_claims tidy).mpr ⟨found, ?_⟩⟩
      refine sectionKept _ (tidy.claims_owned id row found) ?_
      have listed := ContentStore.mem_listClaims.mpr ⟨found, rfl⟩
      exact List.mem_cons_of_mem _ (List.mem_cons_of_mem _ (List.mem_map.mpr ⟨_, listed, rfl⟩))
  | symbolStub id => exact symbolKept id backed (.inl rfl)
  | symbolFull id => exact symbolKept id backed (.inr rfl)

/-- Every row of `s` is still there. -/
def Keeps (s t : ContentStore) : Prop := ∀ v, Backed s v → Backed t v

/-- Storing a document at a path that holds none. -/
theorem Tidy.insertDocument (tidy : Tidy s) {doc : DocumentTree} {path : String}
    (id_eq : doc.id = path) (path_eq : doc.sourcePath = path) (vacant : path ∉ s.documents)
    (distinct : doc.sections.ids.Nodup) (done : s.insertDocument doc = .ok t) (row : FileHashRow) :
    Tidy (t.upsertFileHash path row) ∧ Keeps s t ∧ path ∈ t.documents ∧ t.symbols = s.symbols ∧
      ∀ body ∈ doc.sections.bodies, body.id ∈ t.sections ∧
        ∀ claim ∈ body.claims, claim.id ∈ t.claims := by
  have untouched : s.deleteDocumentsWhere (fun _ row => row.sourcePath = doc.sourcePath) = s := by
    refine ContentStore.deleteDocumentsWhere_eq_self fun id row found => ?_
    simp only [decide_eq_false_iff_not, path_eq, tidy.documents_at id row found]
    rintro rfl
    exact vacant ((Rows.mem_iff_lookup _ _).mpr ⟨row, found⟩)
  simp only [ContentStore.insertDocument, untouched] at done
  split at done
  · cases done
  · obtain ⟨st, inserted, done⟩ := bind_eq_ok.mp done
    cases done
    have grows := ContentStore.insertSections_grows inserted
    have stored := fun body mem =>
      ((ContentStore.insertSections_stored inserted distinct (by simp)).2 body mem).mem
    subst id_eq
    have documentKept : ∀ id, id ∈ s.documents → id ∈ s.documents.insert doc.id
        { title := doc.title, sourcePath := doc.sourcePath, summary := doc.summary } :=
      fun id mem => (AList.mem_insert _).mpr (.inr mem)
    refine ⟨⟨?_, ?_, ?_, ?_, ?_⟩, ?_, (AList.mem_insert _).mpr (.inl rfl), rfl, stored⟩
    · intro id row found
      simp only [ContentStore.upsertFileHash, Rows.lookup_insert_if] at found
      split at found
      · rename_i here
        cases found
        exact path_eq.trans here.symm
      · exact tidy.documents_at id row found
    · intro id mem
      rcases (AList.mem_insert _).mp mem with rfl | mem
      · exact (AList.mem_insert _).mpr (.inl rfl)
      · exact (AList.mem_insert _).mpr (.inr (tidy.documents_hashed id mem))
    · intro id row found
      rcases grows.sections_new id row found with old | own
      · exact documentKept _ (tidy.sections_owned id row old)
      · exact own ▸ (AList.mem_insert _).mpr (.inl rfl)
    · intro id row found
      rcases grows.claims_new id row found with old | own
      · exact grows.mem_sections (tidy.claims_owned id row old)
      · exact own
    · intro id row found
      exact documentKept _ (tidy.symbols_owned id row found)
    · intro v backed
      cases v with
      | docSummary id => exact documentKept id backed
      | secSummary id => exact grows.mem_sections backed
      | «section» id => exact grows.mem_sections backed
      | claim id => exact grows.mem_claims backed
      | symbolStub id => exact backed
      | symbolFull id => exact backed

/-- No symbol of the path is stored. -/
def Vacant (s : ContentStore) (path : String) : Prop :=
  ∀ id row, s.symbols.lookup id = some row → row.filePath ≠ path

theorem Tidy.vacant (tidy : Tidy s) {path : String} (absent : path ∉ s.documents) :
    Vacant s path := by
  rintro id row found rfl
  exact absent (tidy.symbols_owned id row found)

/-- Symbol extraction at a stored path without symbols. -/
theorem Tidy.extract (tidy : Tidy s) (languageOf : LanguageOf) (graph : Option PackageGraph)
    {path : String} (stored : path ∈ s.documents) (vacant : Vacant s path)
    (extraction : Extraction) :
    let t := (extractCodeSymbols languageOf graph s path extraction).1
    Tidy t ∧ Keeps s t ∧ ∀ pair ∈ extraction.pairs path, Backed t pair.1 := by
  obtain ⟨edges, same⟩ := extractCodeSymbols_frame languageOf graph extraction vacant
  intro t
  have eq : t = _ := same
  have symbolKept : ∀ id, id ∈ s.symbols ∨ (∃ r ∈ extraction.records path, r.id = id) →
      id ∈ t.symbols := by
    intro id held
    rw [eq, Rows.mem_iff_lookup]
    dsimp only
    cases last : lastOf ((extraction.records path).map fun r => (r.id, r.toSymbolRow)) id with
    | some row => exact ⟨row, by rw [Rows.lookup_upsertAll, last]; rfl⟩
    | none =>
        rcases held with held | ⟨r, listed, rfl⟩
        · obtain ⟨row, found⟩ := (Rows.mem_iff_lookup _ _).mp held
          exact ⟨row, by rw [Rows.lookup_upsertAll, last]; exact found⟩
        · refine absurd rfl (lastOf_eq_none.mp last (r.id, r.toSymbolRow) ?_)
          exact List.mem_map_of_mem listed
  refine ⟨?_, ?_, ?_⟩
  · rw [eq]
    refine ⟨tidy.documents_at, tidy.documents_hashed, tidy.sections_owned, tidy.claims_owned, ?_⟩
    intro id row found
    rw [Rows.lookup_upsertAll, Option.or_eq_some_iff] at found
    rcases found with last | ⟨-, old⟩
    · obtain ⟨r, listed, same⟩ := List.mem_map.mp (mem_of_lastOf last)
      cases same
      rw [Extraction.records_filePath listed]
      exact stored
    · exact tidy.symbols_owned id row old
  · intro v backed
    cases v with
    | symbolStub id => exact symbolKept id (.inl backed)
    | symbolFull id => exact symbolKept id (.inl backed)
    | docSummary id => rw [eq]; exact backed
    | secSummary id => rw [eq]; exact backed
    | «section» id => rw [eq]; exact backed
    | claim id => rw [eq]; exact backed
  · intro pair mem
    obtain ⟨r, listed, named | named⟩ := Extraction.pairs_records mem
    · rw [named]
      exact symbolKept r.id (.inr ⟨r, listed, rfl⟩)
    · rw [named]
      exact symbolKept r.id (.inr ⟨r, listed, rfl⟩)

/-- The pairs of a stored tree are named after its rows. -/
theorem backed_documentPairs {doc : DocumentTree} {contextualize : Bool}
    (stored : doc.id ∈ t.documents)
    (bodies : ∀ body ∈ doc.sections.bodies, body.id ∈ t.sections ∧
      ∀ claim ∈ body.claims, claim.id ∈ t.claims) :
    ∀ pair ∈ collectDocumentEmbeddings contextualize doc, Backed t pair.1 := by
  intro pair mem
  rcases mem_collectDocumentEmbeddings mem with named | ⟨body, inDoc, named⟩
  · rw [named]
    exact stored
  obtain ⟨held, claims⟩ := bodies body inDoc
  rcases named with named | named | ⟨claim, listed, named⟩
  · rw [named]
    exact held
  · rw [named]
    exact held
  · rw [named]
    exact claims claim listed

end Tables

/-! ## The ids the indexes hold -/

section Indexes

variable {α K : Type} {w w' : Workspace α K} {P Q : String → Prop}

/-- Every id of `indexed_vectors`, of the dense index and of the sparse index. -/
structure Held (w : Workspace α K) (P : String → Prop) : Prop where
  dense : ∃ m, w.vectors.Sound m ∧ ∀ id ∈ m, P id
  rows : ∀ id ∈ w.vectors.store.rows, P id
  sparse : ∀ inverted, w.sparse = some inverted → ∃ m, Holds inverted m ∧ ∀ id ∈ m, P id

theorem Held.imp (held : Held w P) (weaker : ∀ id, P id → Q id) : Held w Q := by
  obtain ⟨⟨m, sound, dense⟩, rows, sparse⟩ := held
  refine ⟨⟨m, sound, fun id mem => weaker id (dense id mem)⟩, fun id mem => weaker id (rows id mem),
    fun inverted some_eq => ?_⟩
  obtain ⟨n, holds, ids⟩ := sparse inverted some_eq
  exact ⟨n, holds, fun id mem => weaker id (ids id mem)⟩

theorem Held.withStore (held : Held w P) (store : ContentStore) :
    Held { w with store } P :=
  ⟨held.dense, held.rows, held.sparse⟩

theorem holds_deleteAll {inverted : InvertedIndexInner String K} {m : SparseMap String K}
    (holds : Holds inverted m) (vids : List String) :
    Holds (vids.foldl (fun sparse vid => (sparse.deleteSparse vid).1) inverted) (m.eraseAll vids) := by
  induction vids generalizing inverted m with
  | nil => exact holds
  | cons vid vids ih => exact ih (holds.delete vid)

theorem Held.deleteDocumentVectors (held : Held w P) (docId : String) :
    Held (w.deleteDocumentVectors docId) fun id =>
      P id ∧ id ∉ (documentVectorIds w.store docId).map VectorId.asStr := by
  obtain ⟨⟨m, sound, dense⟩, rows, sparse⟩ := held
  refine ⟨⟨_, sound.deleteVectors _, fun id mem => ?_⟩, fun id mem => ?_, fun inverted some_eq => ?_⟩
  · obtain ⟨mem, kept⟩ := Rows.mem_eraseAll.mp mem
    exact ⟨dense id mem, kept⟩
  · have eq : (w.deleteDocumentVectors docId).vectors.store.rows =
        w.vectors.store.rows.eraseAll ((documentVectorIds w.store docId).map VectorId.asStr) :=
      VectorStore.deleteIndexedVectors_rows _ _
    rw [eq] at mem
    obtain ⟨mem, kept⟩ := Rows.mem_eraseAll.mp mem
    exact ⟨rows id mem, kept⟩
  · obtain ⟨before, had, rfl⟩ := Option.map_eq_some_iff.mp some_eq
    obtain ⟨n, holds, ids⟩ := sparse before had
    refine ⟨_, holds_deleteAll holds _, fun id mem => ?_⟩
    obtain ⟨mem, kept⟩ := Rows.mem_eraseAll.mp mem
    exact ⟨ids id mem, kept⟩

variable [Component α]

/-- Writing entries on the dense side, when their ids satisfy the property. -/
theorem Held.write {vectors : Corpus String α} (held : Held w P)
    (written : ∀ m, w.vectors.Sound m → ∃ es : List (String × List α), (∀ e ∈ es, P e.1) ∧
      vectors.Sound (m.putAll es) ∧
      vectors.store.rows = w.vectors.store.rows.upsertAll es) :
    Held { w with vectors } P := by
  obtain ⟨⟨m, before, dense⟩, old, sparse⟩ := held
  obtain ⟨es, ids, sound, rows⟩ := written m before
  refine ⟨⟨_, sound, fun id mem => ?_⟩, fun id mem => ?_, sparse⟩
  · rcases Rows.mem_upsertAll.mp mem with mem | ⟨e, listed, rfl⟩
    · exact dense id mem
    · exact ids e (List.mem_filter.mp listed).1
  · rw [rows] at mem
    rcases Rows.mem_upsertAll.mp mem with mem | ⟨e, listed, rfl⟩
    · exact old id mem
    · exact ids e listed

theorem named_ids {pairs : List (VectorId × String)} (ids : ∀ pair ∈ pairs, P pair.1.asStr)
    {id : String} (mem : id ∈ (named pairs).map Prod.fst) : P id := by
  obtain ⟨_, listed, rfl⟩ := List.mem_map.mp mem
  obtain ⟨pair, inPairs, rfl⟩ := List.mem_map.mp listed
  exact ids pair inPairs

theorem Held.embedDocument {p : Pipeline α K} {pairs : List (VectorId × String)} (held : Held w P)
    (ids : ∀ pair ∈ pairs, P pair.1.asStr) (done : w.embedDocument p pairs = .ok w') :
    Held w' P ∧ w'.store = w.store := by
  unfold Workspace.embedDocument at done
  split at done
  · cases done
    exact ⟨held, rfl⟩
  · split at done
    · cases done
    · rename_i vectors embedded
      cases done
      refine ⟨held.write fun m sound => ?_, rfl⟩
      obtain ⟨vs, -, sound', rows⟩ := sound.embedChunk embedded
      refine ⟨_, fun e listed => ?_, sound', rows⟩
      exact named_ids ids (List.of_mem_zip listed).1

omit [Component α] in
/-- The vectors of a batch go to the ids of its pairs. -/
theorem mem_embeddedChunks {embed : Embedder α} {cs : List (List (String × String))}
    {es : List (String × List α)} (embedded : embeddedChunks embed cs = .ok es)
    {e : String × List α} (mem : e ∈ es) : ∃ chunk ∈ cs, e.1 ∈ chunk.map Prod.fst := by
  induction cs generalizing es with
  | nil =>
      cases embedded
      cases mem
  | cons chunk cs ih =>
      unfold embeddedChunks at embedded
      split at embedded
      · rename_i later
        cases embedded
        rcases List.mem_append.mp mem with mem | mem
        · exact ⟨chunk, List.mem_cons_self, (List.of_mem_zip mem).1⟩
        · obtain ⟨chunk', listed, named⟩ := ih later mem
          exact ⟨chunk', List.mem_cons_of_mem _ listed, named⟩
      · cases embedded
      · cases embedded

theorem Held.embedBatch {p : Pipeline α K} {pairs : List (VectorId × String)} (held : Held w P)
    (ids : ∀ pair ∈ pairs, P pair.1.asStr) (done : w.embedBatch p pairs = .ok w') :
    Held w' P ∧ w'.store = w.store := by
  unfold Workspace.embedBatch at done
  split at done
  · cases done
  · rename_i vectors total embedded
    cases done
    refine ⟨held.write fun m sound => ?_, rfl⟩
    obtain ⟨es, written, sound', rows⟩ := sound.embedChunks embedded
    refine ⟨es, fun e listed => ?_, sound', rows⟩
    obtain ⟨chunk, isChunk, inChunk⟩ := mem_embeddedChunks written listed
    obtain ⟨pair, inChunk, same⟩ := List.mem_map.mp inChunk
    have positive : 0 < embedBatchChunk := by decide
    have listed : pair ∈ named pairs :=
      flatten_chunks positive (named pairs) ▸ List.mem_flatten_of_mem isChunk inChunk
    exact named_ids ids (same ▸ List.mem_map_of_mem listed)

theorem holds_insertAll {inverted : InvertedIndexInner String K} {m : SparseMap String K}
    (holds : Holds inverted m) (old : ∀ id ∈ m, P id)
    {es : List ((String × String) × List TermId × List K)} (ids : ∀ e ∈ es, P e.1.1) :
    ∃ n, Holds (es.foldl (fun sparse e => sparse.insertSparse e.1.1 e.2.1 e.2.2) inverted) n ∧
      ∀ id ∈ n, P id := by
  induction es generalizing inverted m with
  | nil => exact ⟨m, holds, old⟩
  | cons e es ih =>
      rw [List.forall_mem_cons] at ids
      refine ih (holds.insert e.1.1 e.2.1 e.2.2) (fun id mem => ?_) ids.2
      rcases (AList.mem_insert _).mp mem with rfl | mem
      · exact ids.1
      · exact old id mem

omit [Component α] in
theorem Held.embedSparsePairs {p : Pipeline α K} {pairs : List (VectorId × String)}
    (held : Held w P) (ids : ∀ pair ∈ pairs, P pair.1.asStr)
    (done : w.embedSparsePairs p pairs = .ok w') : Held w' P ∧ w'.store = w.store := by
  unfold Workspace.embedSparsePairs at done
  split at done
  · rename_i embed inverted configured had
    obtain ⟨inverted', inserted, done⟩ := bind_eq_ok.mp done
    cases done
    refine ⟨⟨held.dense, held.rows, fun _ some_eq => ?_⟩, rfl⟩
    cases some_eq
    obtain ⟨m, holds, old⟩ := held.sparse inverted had
    unfold sparseEmbedAndInsert at inserted
    split at inserted
    · cases inserted
      exact ⟨m, holds, old⟩
    · split at inserted
      · cases inserted
      · cases inserted
        refine holds_insertAll holds old fun e listed => ?_
        exact named_ids ids (List.mem_map_of_mem (List.of_mem_zip listed).1)
  · cases done
    exact ⟨held, rfl⟩

end Indexes

/-! ## Each call keeps the ids covered -/

section Calls

variable {α K : Type} {w w' : Workspace α K}

/-- The tables are tidy, and every vector id is one of a stored row. -/
structure NoOrphans (w : Workspace α K) : Prop where
  tidy : Tidy w.store
  held : Held w (Covered w.store)

theorem Keeps.covered {s t : ContentStore} (keeps : Keeps s t) {id : String}
    (covered : Covered s id) : Covered t id := by
  obtain ⟨v, name, backed⟩ := covered
  exact ⟨v, name, keeps v backed⟩

theorem covered_pairs {t : ContentStore} {pairs : List (VectorId × String)}
    (backed : ∀ pair ∈ pairs, Backed t pair.1) : ∀ pair ∈ pairs, Covered t pair.1.asStr :=
  fun pair mem => ⟨pair.1, rfl, backed pair mem⟩

/-- Changing only hash rows. -/
theorem keeps_fileHashes (s : ContentStore) (fileHashes : Rows String FileHashRow) :
    Keeps s { s with fileHashes } := by
  intro v backed
  cases v <;> exact backed

theorem NoOrphans.teardown (sound : NoOrphans w) (docId : String) :
    NoOrphans { w.deleteDocumentVectors docId with store := Ingestion.teardown w.store docId } := by
  refine ⟨sound.tidy.teardown docId, ((sound.held.deleteDocumentVectors docId).imp ?_).withStore _⟩
  rintro id ⟨⟨v, rfl, backed⟩, kept⟩
  exact ⟨v, rfl, sound.tidy.backed_teardown backed fun listed => kept (List.mem_map_of_mem listed)⟩

/-- A document is dropped with its vectors and its hash. -/
theorem NoOrphans.removeDocument (sound : NoOrphans w) (docId : String) :
    NoOrphans (w.removeDocument docId docId) ∧ docId ∉ (w.removeDocument docId docId).store.documents := by
  obtain ⟨tidy, held⟩ := sound.teardown docId
  refine ⟨⟨⟨tidy.documents_at, ?_, tidy.sections_owned, tidy.claims_owned, tidy.symbols_owned⟩, ?_⟩,
    not_mem_teardown⟩
  · intro id mem
    have other : id ≠ docId := by
      rintro rfl
      exact not_mem_teardown mem
    exact AList.mem_erase.mpr ⟨other, tidy.documents_hashed id mem⟩
  · exact (held.imp fun _ => (keeps_fileHashes _ _).covered).withStore _

theorem NoOrphans.removeWithSymbols (sound : NoOrphans w) (docId : String) :
    NoOrphans (w.removeWithSymbols docId docId) := by
  obtain ⟨removed, absent⟩ := sound.removeDocument docId
  have same := ContentStore.deleteSymbolsForFile_eq_self (removed.tidy.vacant absent)
  unfold Workspace.removeWithSymbols
  dsimp only
  rw [same]
  exact removed

theorem mem_listDocuments {s : ContentStore} {d : String × DocumentRow} :
    d ∈ s.listDocuments ↔ s.documents.lookup d.1 = some d.2 := by
  obtain ⟨id, row⟩ := d
  simp [ContentStore.listDocuments, List.mem_mergeSort, Rows.mem_select]

theorem NoOrphans.sweep (sound : NoOrphans w) (rootId : Option String) (files : List String) :
    NoOrphans (w.sweepStaleDocuments rootId files) := by
  unfold Workspace.sweepStaleDocuments
  split
  · exact sound
  · have atPath : ∀ d ∈ Workspace.staleDocuments w.store rootId files, d.2.sourcePath = d.1 := by
      intro d mem
      exact sound.tidy.documents_at d.1 d.2 (mem_listDocuments.mp (List.mem_filter.mp mem).1)
    generalize Workspace.staleDocuments w.store rootId files = stale at atPath
    induction stale generalizing w with
    | nil => exact sound
    | cons d stale ih =>
        rw [List.forall_mem_cons] at atPath
        rw [List.foldl_cons, atPath.1]
        exact ih (sound.removeWithSymbols d.1) atPath.2

/-- Clearing the hashes of a workspace without documents. -/
theorem NoOrphans.checkMtimes (sound : NoOrphans w) (files : List (String × Option Int)) :
    NoOrphans (w.allFilesUnchangedByMtime files).1 := by
  unfold Workspace.allFilesUnchangedByMtime
  dsimp only
  split
  · exact sound
  split
  · exact sound
  split
  · rename_i none_left
    have empty : ∀ id, id ∉ w.store.documents := by
      intro id mem
      have keys := AList.mem_keys.mp mem
      rw [List.eq_nil_of_length_eq_zero none_left.1] at keys
      cases keys
    refine ⟨⟨sound.tidy.documents_at, fun id mem => absurd mem (empty id),
      sound.tidy.sections_owned, sound.tidy.claims_owned, sound.tidy.symbols_owned⟩, ?_⟩
    exact (sound.held.imp fun _ => (keeps_fileHashes _ _).covered).withStore _
  · exact sound

/-- What a stored document leaves: its path is taken, no symbol is there yet, and its
pairs are named after its rows. -/
structure Stored (w : Workspace α K) (path : String) (doc : DocumentTree) : Prop where
  sound : NoOrphans w
  taken : path ∈ w.store.documents
  vacant : Vacant w.store path
  pairs : ∀ contextualize, ∀ pair ∈ collectDocumentEmbeddings contextualize doc,
    Backed w.store pair.1

/-- Inserting at a path no document holds. -/
theorem NoOrphans.insert (sound : NoOrphans w) {doc : DocumentTree} {path : String}
    {store : ContentStore} (id_eq : doc.id = path) (path_eq : doc.sourcePath = path)
    (vacant : path ∉ w.store.documents) (distinct : doc.sections.ids.Nodup)
    (done : w.store.insertDocument doc = .ok store) (row : FileHashRow) :
    Stored { w with store := store.upsertFileHash path row } path doc := by
  obtain ⟨tidy, keeps, taken, symbols, bodies⟩ :=
    sound.tidy.insertDocument id_eq path_eq vacant distinct done row
  have hashed := keeps_fileHashes store (store.fileHashes.insert path row)
  refine ⟨⟨tidy, (sound.held.imp fun id covered => ?_).withStore _⟩, taken, ?_, ?_⟩
  · exact hashed.covered (keeps.covered covered)
  · intro id symbol found
    exact sound.tidy.vacant vacant id symbol (symbols ▸ found)
  · intro contextualize pair mem
    exact hashed _ (backed_documentPairs (id_eq ▸ taken) bodies pair mem)

/-- `store_enriched_document`, called with whether the path has a hash row: with a row
the old document is torn down first, without one there is none.  Then the tree is
inserted at a path that no document holds. -/
theorem storeEnrichedDocument_eq_ok (tidy : Tidy w.store) {e : Enricher} {path : String}
    (parsed : ParsedDocument path) {contentHash : String} {mtimeNs : Option Int}
    {doc : DocumentTree}
    (done : w.storeEnrichedDocument e parsed path contentHash mtimeNs
      (w.store.getFileHash path).isSome = .ok (w', doc)) :
    ∃ base store, doc.id = path ∧ doc.sourcePath = path ∧ doc.sections.ids.Nodup ∧
      base.store.insertDocument doc = .ok store ∧
      w' = { base with store := store.upsertFileHash path (Workspace.freshHash contentHash mtimeNs) } ∧
      (base = { w.deleteDocumentVectors path with store := teardown w.store path } ∨
        base = w ∧ path ∉ w.store.documents) := by
  unfold Workspace.storeEnrichedDocument at done
  split at done
  · cases done
  · rename_i enriched shaped
    obtain ⟨id_eq, path_eq, distinct⟩ := enrichDocument_spec shaped
    replace id_eq := id_eq.trans parsed.2.1
    replace path_eq := path_eq.trans parsed.2.2
    rw [id_eq] at done
    cases hashed : w.store.getFileHash path with
    | some row =>
        rw [hashed] at done
        simp only [Option.isSome_some, if_true] at done
        split at done
        · cases done
        · rename_i store inserted
          cases done
          exact ⟨{ w.deleteDocumentVectors path with store := teardown w.store path }, store,
            id_eq, path_eq, distinct, inserted, rfl, Or.inl rfl⟩
    | none =>
        rw [hashed] at done
        simp only [Option.isSome_none, Bool.false_eq_true, if_false] at done
        have vacant : path ∉ w.store.documents := by
          intro taken
          obtain ⟨row, found⟩ := (Rows.mem_iff_lookup _ _).mp (tidy.documents_hashed path taken)
          rw [ContentStore.getFileHash, found] at hashed
          cases hashed
        split at done
        · cases done
        · rename_i store inserted
          cases done
          exact ⟨w, store, id_eq, path_eq, distinct, inserted, rfl, Or.inr ⟨rfl, vacant⟩⟩

theorem NoOrphans.storeEnrichedDocument (sound : NoOrphans w) {e : Enricher} {path : String}
    (parsed : ParsedDocument path) {contentHash : String} {mtimeNs : Option Int}
    {doc : DocumentTree}
    (done : w.storeEnrichedDocument e parsed path contentHash mtimeNs
      (w.store.getFileHash path).isSome = .ok (w', doc)) : Stored w' path doc := by
  obtain ⟨base, store, id_eq, path_eq, distinct, inserted, rfl, rfl | ⟨rfl, vacant⟩⟩ :=
    storeEnrichedDocument_eq_ok sound.tidy parsed done
  · exact (sound.teardown path).insert id_eq path_eq not_mem_teardown distinct inserted _
  · exact sound.insert id_eq path_eq vacant distinct inserted _

variable [Component α]

omit [Component α] in
/-- Symbol extraction behind a stored document. -/
theorem Stored.extractSymbols {path : String} {doc : DocumentTree} (stored : Stored w path doc)
    (p : Pipeline α K) (graph : Option PackageGraph) (content : String) :
    let r := w.extractSymbols p graph path content
    NoOrphans r.1 ∧ Keeps w.store r.1.store ∧
      ∀ pair ∈ r.2.embeddingPairs, Backed r.1.store pair.1 := by
  intro r
  obtain ⟨tidy, keeps, backed⟩ := stored.sound.tidy.extract p.languageOf graph
    stored.taken stored.vacant (p.extract path content)
  refine ⟨⟨tidy, (stored.sound.held.imp fun _ => keeps.covered).withStore _⟩, keeps, ?_⟩
  intro pair mem
  refine backed pair ?_
  rw [← extractCodeSymbols_pairs p.languageOf graph (s := w.store)]
  exact mem

theorem NoOrphans.embedDocument (sound : NoOrphans w) {p : Pipeline α K}
    {pairs : List (VectorId × String)} (backed : ∀ pair ∈ pairs, Backed w.store pair.1)
    (done : w.embedDocument p pairs = .ok w') : NoOrphans w' ∧ w'.store = w.store := by
  obtain ⟨held, same⟩ := sound.held.embedDocument (covered_pairs backed) done
  exact ⟨⟨same ▸ sound.tidy, same ▸ held⟩, same⟩

theorem NoOrphans.embedBatch (sound : NoOrphans w) {p : Pipeline α K}
    {pairs : List (VectorId × String)} (backed : ∀ pair ∈ pairs, Backed w.store pair.1)
    (done : w.embedBatch p pairs = .ok w') : NoOrphans w' ∧ w'.store = w.store := by
  obtain ⟨held, same⟩ := sound.held.embedBatch (covered_pairs backed) done
  exact ⟨⟨same ▸ sound.tidy, same ▸ held⟩, same⟩

omit [Component α] in
theorem NoOrphans.embedSparsePairs (sound : NoOrphans w) {p : Pipeline α K}
    {pairs : List (VectorId × String)} (backed : ∀ pair ∈ pairs, Backed w.store pair.1)
    (done : w.embedSparsePairs p pairs = .ok w') : NoOrphans w' ∧ w'.store = w.store := by
  obtain ⟨held, same⟩ := sound.held.embedSparsePairs (covered_pairs backed) done
  exact ⟨⟨same ▸ sound.tidy, same ▸ held⟩, same⟩

theorem NoOrphans.ingestContent (sound : NoOrphans w) {p : Pipeline α K} {path content : String}
    (done : w.ingestContentWithEmbeddings p path content = .ok w') : NoOrphans w' := by
  unfold Workspace.ingestContentWithEmbeddings at done
  dsimp only at done
  split at done
  · cases done
    exact sound
  · split at done
    · cases done
    · rename_i parsed _
      obtain ⟨⟨w₁, doc⟩, storing, done⟩ := bind_eq_ok.mp done
      obtain ⟨w₂, dense, done⟩ := bind_eq_ok.mp done
      obtain ⟨w₃, sparse, done⟩ := bind_eq_ok.mp done
      have stored := sound.storeEnrichedDocument parsed storing
      obtain ⟨sound₂, same₂⟩ := stored.sound.embedDocument (stored.pairs false) dense
      obtain ⟨sound₃, same₃⟩ := sound₂.embedSparsePairs (same₂ ▸ stored.pairs false) sparse
      replace stored : Stored w₃ path doc := by
        have same := same₃.trans same₂
        exact ⟨sound₃, same ▸ stored.taken, same ▸ stored.vacant, same ▸ stored.pairs⟩
      split at done
      · obtain ⟨w₅, denseSymbols, done⟩ := bind_eq_ok.mp done
        obtain ⟨sound₄, -, backed⟩ := stored.extractSymbols p none content
        obtain ⟨sound₅, same₅⟩ := sound₄.embedBatch backed denseSymbols
        exact (sound₅.embedSparsePairs (same₅ ▸ backed) done).1
      · cases done
        exact sound₃

omit [Component α] in
/-- What `parse_and_store_file` leaves behind, with its pairs still to embed. -/
theorem NoOrphans.parseAndStoreFile (sound : NoOrphans w) {p : Pipeline α K}
    {path content : String} {mtimeNs : Option Int} {result : Workspace.FileResult}
    (done : w.parseAndStoreFile p path content mtimeNs = .ok (w', result)) :
    NoOrphans w' ∧ ∀ pending pairs, result = .indexed pending pairs →
      ∀ pair ∈ pairs, Backed w'.store pair.1 := by
  unfold Workspace.parseAndStoreFile at done
  dsimp only at done
  split at done
  · cases done
    exact ⟨sound, fun _ _ impossible => by cases impossible⟩
  split at done
  · cases done
    exact ⟨sound, fun _ _ impossible => by cases impossible⟩
  split at done
  · cases done
    refine ⟨⟨?_, (sound.held.imp fun _ => (keeps_fileHashes _ _).covered).withStore _⟩,
      fun _ _ impossible => by cases impossible⟩
    refine ⟨sound.tidy.documents_at, fun id mem => ?_, sound.tidy.sections_owned,
      sound.tidy.claims_owned, sound.tidy.symbols_owned⟩
    exact (AList.mem_insert _).mpr (.inr (sound.tidy.documents_hashed id mem))
  · split at done
    · cases done
    · rename_i parsed _
      obtain ⟨⟨w₁, doc⟩, storing, done⟩ := bind_eq_ok.mp done
      have stored := sound.storeEnrichedDocument parsed storing
      dsimp only at done
      split at done
      · cases done
        obtain ⟨sound₂, keeps, backed⟩ := stored.extractSymbols p p.packageGraph content
        refine ⟨sound₂, fun pending pairs same pair mem => ?_⟩
        cases same
        rcases List.mem_append.mp mem with mem | mem
        · exact keeps _ (stored.pairs _ pair mem)
        · exact backed pair mem
      · cases done
        refine ⟨stored.sound, fun pending pairs same pair mem => ?_⟩
        cases same
        exact stored.pairs _ pair mem

theorem NoOrphans.ingestFile (sound : NoOrphans w) {p : Pipeline α K} {path content : String}
    {mtimeNs : Option Int} (done : w.ingestFile p path content mtimeNs = .ok w') :
    NoOrphans w' := by
  obtain ⟨⟨w₁, result⟩, parsed, done⟩ := bind_eq_ok.mp done
  obtain ⟨sound₁, backed⟩ := sound.parseAndStoreFile parsed
  cases result with
  | skipped =>
      cases done
      exact sound₁
  | indexed pending pairs =>
      obtain ⟨w₂, dense, done⟩ := bind_eq_ok.mp done
      obtain ⟨sound₂, same⟩ := sound₁.embedBatch (backed pending pairs rfl) dense
      exact (sound₂.embedSparsePairs (same ▸ backed pending pairs rfl) done).1

theorem toOption_eq_some {ε β : Type} {x : Except ε β} {b : β} (h : x.toOption = some b) :
    x = .ok b := by
  cases x with
  | error e => cases h
  | ok a => exact congrArg _ (Option.some.inj h)

theorem NoOrphans.step (sound : NoOrphans w) (op : WorkspaceOp α K) (taken : w.step op = some w') :
    NoOrphans w' := by
  cases op with
  | ingestContent p path content => exact sound.ingestContent (toOption_eq_some taken)
  | ingestFile p path content mtimeNs => exact sound.ingestFile (toOption_eq_some taken)
  | removeDocument docId =>
      cases taken
      exact (sound.removeDocument docId).1
  | removeFile relative =>
      cases taken
      exact sound.removeWithSymbols relative
  | sweep rootId files =>
      cases taken
      exact sound.sweep rootId files
  | checkMtimes files =>
      cases taken
      exact sound.checkMtimes files

end Calls

/-! ## Every run -/

/-- The ids of the sparse index that are not tombstoned. -/
def liveSparse {K : Type} (sparse : InvertedIndexInner String K) (id : String) : Prop :=
  ∃ n, sparse.docIdMap.lookup id = some n ∧ n ∉ sparse.deleted

/-- **No orphan vectors.**  However documents are ingested, ingested again and removed,
every id in `indexed_vectors`, in the dense index and in the sparse index is a vector id
of a document, section, claim or symbol row that is stored at that moment. -/
theorem workspace_vectors_covered {α K : Type} [Component α] {dim ef : Nat}
    {index : HnswInner String α} (made : HnswInner.withConfig dim ef = .ok index) (hybrid : Bool)
    (ops : List (WorkspaceOp α K)) :
    Throughout Workspace.step
      (fun w : Workspace α K =>
        (∀ id ∈ w.vectors.store.rows, Covered w.store id) ∧
        (∀ id ∈ w.vectors.index.idToInt, Covered w.store id) ∧
        ∀ sparse, w.sparse = some sparse → ∀ id, liveSparse sparse id → Covered w.store id)
      (Workspace.new index hybrid) ops := by
  have start : NoOrphans (Workspace.new index hybrid : Workspace α K) := by
    refine ⟨tidy_empty, ⟨∅, Corpus.fresh_sound made, ?_⟩, ?_, ?_⟩
    · intro id mem
      exact absurd mem (AList.notMem_empty id)
    · intro id mem
      exact absurd mem (AList.notMem_empty id)
    · intro inverted configured
      cases hybrid with
      | false => cases configured
      | true =>
          cases configured
          exact ⟨∅, holds_new, fun id mem => absurd mem (AList.notMem_empty id)⟩
  have throughout : Throughout Workspace.step NoOrphans (Workspace.new index hybrid) ops :=
    throughout_of_keeps (fun w op w' sound taken => sound.step op taken) ops start
  refine throughout.imp fun w sound => ?_
  obtain ⟨-, ⟨m, denseSound, dense⟩, rows, sparse⟩ := sound
  refine ⟨rows, fun id mem => dense id ?_, fun inverted configured id live => ?_⟩
  · exact (live_iff denseSound.represents.maps denseSound.represents.refines id).mp mem
  · obtain ⟨n, holds, ids⟩ := sparse inverted configured
    obtain ⟨position, found, alive⟩ := live
    exact ids id ((holds.live position id ((holds.indexed id position).mp found)).mp alive)

/-- A pipeline that makes one section, one claim and one function of a file. -/
def plainPipeline : Pipeline Int Int where
  enricher :=
    { countTokens := fun text => text.length
      minSectionTokens := 0
      extractClaims := fun text id => [{ id := id ++ ":c0", text, sectionId := id }]
      summarize := fun _ _ => "summary" }
  computeContentHash := fun content => content
  parse := fun path content =>
    some
      ⟨{ id := path, title := path, sourcePath := path, summary := none
         sections :=
           .cons
             { id := path ++ "#" ++ content, headingPath := [], depth := 1, text := content,
               claims := [], summary := none }
             .nil .nil }, rfl, rfl⟩
  isCode := fun _ => true
  extract := fun _ content =>
    .tree
      [{ name := content, kind := .function, visibility := "pub", signature := "fn " ++ content,
         docComment := none, modulePath := [], lineStart := 1, lineEnd := 1,
         cyclomaticComplexity := none, fullText := content }] []
  languageOf := fun _ => some "rust"
  packageGraph := none
  contextualizeEmbeddings := false
  inIgnoredDir := fun _ => false
  embed := fun texts => .ok (texts.map fun _ => [1, 0])
  embedSparse := some fun pairs => .ok (pairs.map fun _ => ([1], [1]))

/-- One file, then other content at the same path. -/
def editedFile : List (WorkspaceOp Int Int) :=
  [.ingestFile plainPipeline "a.rs" "old" (some 1), .ingestFile plainPipeline "a.rs" "new" (some 2)]

/-- The file is stored twice over, and its ids are covered throughout. -/
theorem workspace_vectors_covered_edited :
    (exec Workspace.step (Workspace.new emptyIndex true) editedFile).isSome = true ∧
      Throughout Workspace.step
        (fun w : Workspace Int Int =>
          (∀ id ∈ w.vectors.store.rows, Covered w.store id) ∧
          (∀ id ∈ w.vectors.index.idToInt, Covered w.store id) ∧
          ∀ sparse, w.sparse = some sparse → ∀ id, liveSparse sparse id → Covered w.store id)
        (Workspace.new emptyIndex true) editedFile := by
  have made : HnswInner.withConfig 2 defaultEfSearch = .ok emptyIndex := rfl
  refine ⟨?_, workspace_vectors_covered made true editedFile⟩
  decide +kernel

end Ministr.Ingestion
