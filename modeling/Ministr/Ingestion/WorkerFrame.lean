/-
# Ingestion.WorkerFrame — what a parse worker leaves alone

Workers run at the same time on different paths.  `Frame` says what the work on one
path keeps of every other: the document row, the section and claim rows under it, the
hash row; symbols that appear are the path's own.  The vector rows are kept as far as
they are not among the ids the teardown of the path lists, and a stored tree has none
of those (`Placed.not_listed`).

`Moves` is the summary of one worker step that the run invariant uses.
-/
import Ministr.Ingestion.NoOrphans
import Ministr.Ingestion.ProducerConsumer

namespace Ministr.Ingestion

open Ministr.Theory Ministr.Content Ministr.Index

set_option autoImplicit false

/-- No symbol id is given out for two paths. -/
def RunConfig.SymbolsApart {α K : Type} (c : RunConfig α K) : Prop :=
  ∀ path path', ∀ r ∈ (c.extractionOf path).records path,
    ∀ r' ∈ (c.extractionOf path').records path', r.id = r'.id → path = path'

/-- The rows of a tree are stored under its path. -/
structure TreeStored (s : ContentStore) (path : String) (doc : DocumentTree) : Prop where
  document : path ∈ s.documents
  bodies : ∀ body ∈ doc.sections.bodies,
    ContentStore.SectionStored path s.sections s.claims body

section Frames

variable {α K : Type} {c : RunConfig α K} {s t u : ContentStore} {path d : String}

/-- Documents and the symbols of the current content stand at their paths. -/
structure Placed (c : RunConfig α K) (s : ContentStore) : Prop where
  documents_at : ∀ id row, s.documents.lookup id = some row → row.sourcePath = id
  symbols_at : ∀ path, ∀ r ∈ (c.extractionOf path).records path,
    ∀ row, s.symbols.lookup r.id = some row → row.filePath = path

/-- `t` differs from `s` in what belongs to `path` only. -/
structure Frame (c : RunConfig α K) (path : String) (s t : ContentStore) : Prop where
  documents : ∀ d, d ≠ path → t.documents.lookup d = s.documents.lookup d
  document_at : ∀ row, t.documents.lookup path = some row →
    s.documents.lookup path = some row ∨ row.sourcePath = path
  sections : ∀ id row, s.sections.lookup id = some row → row.documentId ≠ path →
    t.sections.lookup id = some row
  claims : ∀ id row owner, s.claims.lookup id = some row →
    s.sections.lookup row.sectionId = some owner → owner.documentId ≠ path →
    t.claims.lookup id = some row
  symbols : ∀ id row, t.symbols.lookup id = some row → s.symbols.lookup id = some row ∨
    row.filePath = path ∧ ∃ r ∈ (c.extractionOf path).records path, r.id = id
  fileHashes : ∀ d, d ≠ path → t.fileHashes.lookup d = s.fileHashes.lookup d

theorem Frame.refl (c : RunConfig α K) (path : String) (s : ContentStore) : Frame c path s s where
  documents := fun _ _ => rfl
  document_at := fun _ found => .inl found
  sections := fun _ _ found _ => found
  claims := fun _ _ _ found _ _ => found
  symbols := fun _ _ found => .inl found
  fileHashes := fun _ _ => rfl

theorem Frame.trans (first : Frame c path s t) (second : Frame c path t u) : Frame c path s u where
  documents := fun d other => (second.documents d other).trans (first.documents d other)
  document_at := fun row found => by
    rcases second.document_at row found with found | own
    · exact first.document_at row found
    · exact .inr own
  sections := fun id row found other => second.sections id row (first.sections id row found other) other
  claims := fun id row owner found owned other =>
    second.claims id row owner (first.claims id row owner found owned other)
      (first.sections _ owner owned other) other
  symbols := fun id row found => by
    rcases second.symbols id row found with found | own
    · exact first.symbols id row found
    · exact .inr own
  fileHashes := fun d other => (second.fileHashes d other).trans (first.fileHashes d other)

theorem Frame.placed (frame : Frame c path s t) (apart : c.SymbolsApart) (placed : Placed c s) :
    Placed c t := by
  constructor
  · intro id row found
    by_cases here : id = path
    · subst here
      rcases frame.document_at row found with old | own
      · exact placed.documents_at id row old
      · exact own
    · exact placed.documents_at id row (frame.documents id here ▸ found)
  · intro d r listed row found
    rcases frame.symbols r.id row found with old | ⟨own, r', listed', same⟩
    · exact placed.symbols_at d r listed row old
    · rw [own]
      exact apart path d r' listed' r listed same

theorem Frame.mem_documents (frame : Frame c path s t) (other : d ≠ path) :
    d ∈ t.documents ↔ d ∈ s.documents := by
  rw [Rows.mem_iff_lookup, Rows.mem_iff_lookup, frame.documents d other]

theorem Frame.hashCurrent (frame : Frame c path s t) (other : d ≠ path) :
    c.HashCurrent t d ↔ c.HashCurrent s d := by
  unfold RunConfig.HashCurrent
  rw [frame.fileHashes d other]

theorem Frame.treeStored (frame : Frame c path s t) (other : d ≠ path) {doc : DocumentTree}
    (stored : TreeStored s d doc) : TreeStored t d doc := by
  refine ⟨(frame.mem_documents other).mpr stored.document, fun body mem => ?_⟩
  obtain ⟨⟨row, found, own⟩, claimRows⟩ := stored.bodies body mem
  have apart : row.documentId ≠ path := own ▸ other
  refine ⟨⟨row, frame.sections _ _ found apart, own⟩, fun claim listed => ?_⟩
  obtain ⟨claimRow, claimFound, owner⟩ := claimRows claim listed
  exact ⟨claimRow, frame.claims _ _ row claimFound (owner ▸ found) apart, owner⟩

/-! ## The statements -/

theorem frame_deleteDocumentsWhere {p : String → DocumentRow → Bool}
    (only : ∀ id row, s.documents.lookup id = some row → p id row = true → id = path) :
    Frame c path s (s.deleteDocumentsWhere p) := by
  have spared : ∀ id, id ≠ path → s.hasDocument p id = false := by
    intro id other
    unfold ContentStore.hasDocument
    cases found : s.documents.lookup id with
    | none => rfl
    | some row => exact Bool.eq_false_iff.mpr fun hit => other (only id row found hit)
  refine ⟨?_, ?_, ?_, ?_, fun _ _ found => .inl found, fun _ _ => rfl⟩
  · intro d other
    apply Option.ext
    intro row
    rw [ContentStore.deleteDocumentsWhere_documents, and_iff_left_iff_imp]
    intro found
    exact Bool.eq_false_iff.mpr fun hit => other (only d row found hit)
  · intro row found
    exact .inl (ContentStore.deleteDocumentsWhere_documents.mp found).1
  · intro id row found other
    exact ContentStore.deleteDocumentsWhere_sections.mpr ⟨found, spared _ other⟩
  · intro id row owner found owned other
    refine ContentStore.deleteDocumentsWhere_claims.mpr ⟨found, ?_⟩
    simp [ContentStore.hasSectionOf, owned, spared _ other]

theorem frame_deleteDocument : Frame c path s (s.deleteDocument path) :=
  frame_deleteDocumentsWhere fun _ _ _ hit => by simpa using hit

theorem frame_deleteSymbolsForFile (file : String) : Frame c path s (s.deleteSymbolsForFile file) where
  documents := fun _ _ => rfl
  document_at := fun _ found => .inl found
  sections := fun _ _ found _ => found
  claims := fun _ _ _ found _ _ => found
  symbols := fun _ _ found => .inl (ContentStore.deleteSymbolsForFile_symbols.mp found).1
  fileHashes := fun _ _ => rfl

theorem frame_teardown : Frame c path s (teardown s path) := by
  unfold teardown
  split
  · exact frame_deleteDocument
  · exact (frame_deleteSymbolsForFile _).trans frame_deleteDocument

theorem frame_upsertFileHash (row : FileHashRow) : Frame c path s (s.upsertFileHash path row) :=
  { Frame.refl c path s with
    fileHashes := fun d other => by
      rw [ContentStore.upsertFileHash, Rows.lookup_insert_if, if_neg other] }

theorem frame_deleteFileHash : Frame c path s (s.deleteFileHash path) :=
  { Frame.refl c path s with
    fileHashes := fun d other => by
      rw [ContentStore.deleteFileHash, Rows.lookup_erase_if, if_neg other] }

/-- The symbols of a file replaced by some of those of its current content. -/
theorem frame_insertSymbols {records : List SymbolRecord}
    (own : ∀ r ∈ records, r ∈ (c.extractionOf path).records path) :
    Frame c path s ((s.deleteSymbolsForFile path).insertSymbols records) := by
  obtain ⟨refs, same⟩ :=
    ContentStore.insertSymbols_frame (s := s.deleteSymbolsForFile path) records
  rw [same]
  refine (frame_deleteSymbolsForFile path).trans ⟨fun _ _ => rfl, fun _ found => .inl found,
    fun _ _ found _ => found, fun _ _ _ found _ _ => found, ?_, fun _ _ => rfl⟩
  intro id row found
  rw [Rows.lookup_upsertAll, Option.or_eq_some_iff] at found
  rcases found with last | ⟨-, old⟩
  · obtain ⟨r, listed, same⟩ := List.mem_map.mp (mem_of_lastOf last)
    cases same
    exact .inr ⟨Extraction.records_filePath (own r listed), r, own r listed, rfl⟩
  · exact .inl old

theorem frame_extractCodeSymbols (languageOf : LanguageOf) (graph : Option PackageGraph) :
    Frame c path s (extractCodeSymbols languageOf graph s path (c.extractionOf path)).1 := by
  have replaced : Frame c path s ((s.deleteSymbolsForFile path).insertSymbols
      ((c.extractionOf path).records path)) :=
    frame_insertSymbols fun r listed => listed
  unfold extractCodeSymbols
  cases extracted : c.extractionOf path with
  | unsupported => exact Frame.refl c path s
  | lexed symbols =>
      rw [extracted] at replaced
      exact replaced
  | tree symbols refs =>
      rw [extracted] at replaced
      dsimp only
      split
      · exact Frame.refl c path s
      · obtain ⟨edges, same⟩ := resolveAndStoreRefs_frame languageOf graph
          (s := (s.deleteSymbolsForFile path).insertSymbols
            (Extraction.records path (.tree symbols refs))) path
          (Extraction.records path (.tree symbols refs)) refs
        rw [same]
        exact { replaced with }

/-- A tree that was inserted is stored, and nothing else is touched. -/
theorem insertDocument_spec (placed : Placed c s) {doc : DocumentTree} (id_eq : doc.id = path)
    (path_eq : doc.sourcePath = path) (distinct : doc.sections.ids.Nodup)
    (done : s.insertDocument doc = .ok t) :
    Frame c path s t ∧ TreeStored t path doc ∧ t.fileHashes = s.fileHashes := by
  have cleared : Frame c path s
      (s.deleteDocumentsWhere fun _ row => row.sourcePath = doc.sourcePath) := by
    refine frame_deleteDocumentsWhere fun id row found hit => ?_
    rw [← placed.documents_at id row found, ← path_eq]
    exact of_decide_eq_true hit
  unfold ContentStore.insertDocument at done
  dsimp only at done
  split at done
  · cases done
  · obtain ⟨st, inserted, done⟩ := bind_eq_ok.mp done
    cases done
    have grows := ContentStore.insertSections_grows inserted
    have bodies := (ContentStore.insertSections_stored inserted distinct (by simp)).2
    subst id_eq
    refine ⟨cleared.trans ⟨?_, ?_, ?_, ?_, fun _ _ found => .inl found, fun _ _ => rfl⟩,
      ⟨(AList.mem_insert _).mpr (.inl rfl), bodies⟩, rfl⟩
    · intro d other
      rw [Rows.lookup_insert_if, if_neg other]
    · intro row found
      rw [Rows.lookup_insert_if, if_pos rfl] at found
      cases found
      exact .inr path_eq
    · intro id row found _
      exact grows.sections_kept id row found
    · intro id row _ found _ _
      exact grows.claims_kept id row found

/-! ## Whose vector ids are listed -/

/-- The row a vector id is named after belongs to the path. -/
def OwnedBy (s : ContentStore) (path : String) : VectorId → Prop
  | .docSummary docId => docId = path
  | .secSummary sectionId => ∃ row, s.sections.lookup sectionId = some row ∧ row.documentId = path
  | .section sectionId => ∃ row, s.sections.lookup sectionId = some row ∧ row.documentId = path
  | .claim claimId => ∃ row owner, s.claims.lookup claimId = some row ∧
      s.sections.lookup row.sectionId = some owner ∧ owner.documentId = path
  | .symbolStub symbolId => ∃ row, s.symbols.lookup symbolId = some row ∧ row.filePath = path
  | .symbolFull symbolId => ∃ row, s.symbols.lookup symbolId = some row ∧ row.filePath = path

theorem Placed.ownedBy_of_listed (placed : Placed c s) {v : VectorId}
    (listed : v ∈ documentVectorIds s path) : OwnedBy s path v := by
  simp only [documentVectorIds, List.mem_cons, List.mem_append, List.mem_flatMap] at listed
  rcases listed with (rfl | ⟨⟨id, row⟩, held, mem⟩) | mem
  · exact rfl
  · obtain ⟨found, own⟩ := ContentStore.mem_listSections.mp held
    simp only [sectionVectorIds, List.mem_cons, List.mem_map] at mem
    rcases mem with rfl | rfl | ⟨⟨claimId, claimRow⟩, claim, rfl⟩
    · exact ⟨row, found, own⟩
    · exact ⟨row, found, own⟩
    · obtain ⟨claimFound, owner⟩ := ContentStore.mem_listClaims.mp claim
      exact ⟨claimRow, row, claimFound, owner ▸ found, own⟩
  · cases held : s.getDocument path with
    | none =>
        rw [held] at mem
        cases mem
    | some doc =>
        rw [held] at mem
        obtain ⟨sym, listed, mem⟩ := List.mem_flatMap.mp mem
        obtain ⟨found, own⟩ := ContentStore.mem_listSymbols.mp listed
        have here : sym.filePath = path :=
          (of_decide_eq_true own).trans (placed.documents_at path doc held)
        simp only [List.mem_cons, List.not_mem_nil, or_false] at mem
        rcases mem with rfl | rfl
        · exact ⟨_, found, here⟩
        · exact ⟨_, found, here⟩

/-- A row belongs to one path. -/
theorem OwnedBy.unique {v : VectorId} (left : OwnedBy s d v) (right : OwnedBy s path v) :
    d = path := by
  cases v with
  | docSummary docId => exact left.symm.trans right
  | claim claimId =>
      obtain ⟨row, owner, found, owned, own⟩ := left
      obtain ⟨row', owner', found', owned', own'⟩ := right
      cases found.symm.trans found'
      cases owned.symm.trans owned'
      exact own.symm.trans own'
  | secSummary id | «section» id | symbolStub id | symbolFull id =>
      obtain ⟨row, found, own⟩ := left
      obtain ⟨row', found', own'⟩ := right
      cases found.symm.trans found'
      exact own.symm.trans own'

theorem treeOf_spec {doc : DocumentTree} (tree : c.treeOf path = some doc) :
    doc.id = path ∧ doc.sourcePath = path ∧ doc.sections.ids.Nodup := by
  obtain ⟨content, -, rest⟩ := Option.bind_eq_some_iff.mp tree
  obtain ⟨parsed, -, enriched⟩ := Option.bind_eq_some_iff.mp rest
  obtain ⟨id_eq, path_eq, distinct⟩ := enrichDocument_spec enriched
  exact ⟨id_eq.trans parsed.2.1, path_eq.trans parsed.2.2, distinct⟩

theorem TreeStored.ownedBy {doc : DocumentTree} (stored : TreeStored s d doc) (id_eq : doc.id = d)
    {contextualize : Bool} {pair : VectorId × String}
    (mem : pair ∈ collectDocumentEmbeddings contextualize doc) : OwnedBy s d pair.1 := by
  rcases mem_collectDocumentEmbeddings mem with named | ⟨body, inDoc, named⟩
  · rw [named]
    exact id_eq
  obtain ⟨⟨row, found, own⟩, claimRows⟩ := stored.bodies body inDoc
  rcases named with named | named | ⟨claim, listed, named⟩
  · rw [named]
    exact ⟨row, found, own⟩
  · rw [named]
    exact ⟨row, found, own⟩
  · rw [named]
    obtain ⟨claimRow, claimFound, owner⟩ := claimRows claim listed
    exact ⟨claimRow, row, claimFound, owner ▸ found, own⟩

/-- **The teardown of a path spares what is stored at another one.** -/
theorem Placed.not_listed (placed : Placed c s) {doc : DocumentTree} (tree : c.treeOf d = some doc)
    (stored : TreeStored s d doc) (other : d ≠ path) {pair : VectorId × String}
    (mem : pair ∈ c.documentPairs d) : pair.1 ∉ documentVectorIds s path := by
  intro listed
  have owned := placed.ownedBy_of_listed listed
  simp only [RunConfig.documentPairs, tree, List.mem_append] at mem
  rcases mem with mem | mem
  · exact other ((stored.ownedBy (treeOf_spec tree).1 mem).unique owned)
  · obtain ⟨r, inFile, named | named⟩ := Extraction.pairs_records mem
    · rw [named] at owned
      obtain ⟨row, found, own⟩ := owned
      exact other ((placed.symbols_at d r inFile row found).symm.trans own)
    · rw [named] at owned
      obtain ⟨row, found, own⟩ := owned
      exact other ((placed.symbols_at d r inFile row found).symm.trans own)

/-! ## Hash rows -/

theorem hashCurrent_iff {content : String} (reads : c.disk.read path = some content) :
    c.HashCurrent s path ↔
      Workspace.unchangedByHash (s.getFileHash path) (c.pipeline.computeContentHash content)
        = true := by
  simp only [RunConfig.HashCurrent, reads, Option.some.injEq, Workspace.unchangedByHash,
    ContentStore.getFileHash]
  cases s.fileHashes.lookup path with
  | none => simp
  | some row => simp [and_comm]

theorem hashCurrent_upsert {content : String} (reads : c.disk.read path = some content)
    (mtimeNs : Option Int) :
    c.HashCurrent (s.upsertFileHash path
      (Workspace.freshHash (c.pipeline.computeContentHash content) mtimeNs)) path := by
  refine ⟨content, Workspace.freshHash (c.pipeline.computeContentHash content) mtimeNs, reads, ?_,
    rfl, ?_⟩
  · rw [ContentStore.upsertFileHash, Rows.lookup_insert_if, if_pos rfl]
  · simp [Workspace.cacheFresh, Workspace.freshHash]

theorem hashCurrent_congr (same : t.fileHashes = s.fileHashes) :
    c.HashCurrent t path ↔ c.HashCurrent s path := by
  unfold RunConfig.HashCurrent
  rw [same]

end Frames

/-! ## One worker step -/

section Steps

variable {α K : Type} {c : RunConfig α K} {w w' : Workspace α K} {path d : String}
  {phase phase' : Phase}

/-- The text is the hash of the path's content. -/
def RunConfig.HashOf (c : RunConfig α K) (path hash : String) : Prop :=
  ∃ content, c.disk.read path = some content ∧ hash = c.pipeline.computeContentHash content

/-- What is known of the store while a worker is in a phase. -/
def WorkerOk (c : RunConfig α K) (s : ContentStore) (path : String) : Phase → Prop
  | .cleared doc hash => c.treeOf path = some doc ∧ c.HashOf path hash ∧ ¬ c.HashCurrent s path
  | .inserted doc hash =>
      c.treeOf path = some doc ∧ c.HashOf path hash ∧ ¬ c.HashCurrent s path ∧
        TreeStored s path doc
  | .hashed doc => c.treeOf path = some doc ∧ c.HashCurrent s path ∧ TreeStored s path doc
  | .extracted pairs =>
      pairs = c.documentPairs path ∧ c.HashCurrent s path ∧
        ∃ doc, c.treeOf path = some doc ∧ TreeStored s path doc
  | _ => True

theorem Frame.workerOk {s t : ContentStore} (frame : Frame c path s t) (other : d ≠ path)
    (ok : WorkerOk c s d phase) : WorkerOk c t d phase := by
  cases phase with
  | pulled => trivial
  | skipped => trivial
  | failed => trivial
  | cleared doc hash =>
      obtain ⟨tree, hashOf, stale⟩ := ok
      exact ⟨tree, hashOf, mt (frame.hashCurrent other).mp stale⟩
  | inserted doc hash =>
      obtain ⟨tree, hashOf, stale, stored⟩ := ok
      exact ⟨tree, hashOf, mt (frame.hashCurrent other).mp stale, frame.treeStored other stored⟩
  | hashed doc =>
      obtain ⟨tree, current, stored⟩ := ok
      exact ⟨tree, (frame.hashCurrent other).mpr current, frame.treeStored other stored⟩
  | extracted pairs =>
      obtain ⟨same, current, doc, tree, stored⟩ := ok
      exact ⟨same, (frame.hashCurrent other).mpr current, doc, tree, frame.treeStored other stored⟩

/-- What a step keeps of its own path once the hash row is current. -/
structure KeepsOwn (c : RunConfig α K) (path : String) (w w' : Workspace α K) : Prop where
  current : c.HashCurrent w'.store path
  document : path ∈ w'.store.documents ↔ path ∈ w.store.documents
  stored : ∀ doc, TreeStored w.store path doc → TreeStored w'.store path doc
  rows : ∀ id ∈ w.vectors.store.rows, id ∈ w'.vectors.store.rows

/-- What one worker step does. -/
structure Moves (c : RunConfig α K) (path : String) (w w' : Workspace α K)
    (phase phase' : Phase) : Prop where
  frame : Frame c path w.store w'.store
  spares : ∀ v : VectorId, v ∉ documentVectorIds w.store path →
    v.asStr ∈ w.vectors.store.rows → v.asStr ∈ w'.vectors.store.rows
  keeps : c.HashCurrent w.store path → KeepsOwn c path w w'
  fresh : c.HashCurrent w'.store path →
    c.HashCurrent w.store path ∨ phase'.hashWritten = true
  written : phase.hashWritten = true →
    phase'.hashWritten = true ∨ c.documentPairs path = []
  ok : WorkerOk c w'.store path phase'

/-- A step that writes neither tables nor vectors. -/
theorem Moves.idle (notWritten : phase.hashWritten = false) (ok : WorkerOk c w.store path phase') :
    Moves c path w w phase phase' where
  frame := Frame.refl c path w.store
  spares := fun _ _ held => held
  keeps := fun current => ⟨current, Iff.rfl, fun _ stored => stored, fun _ held => held⟩
  fresh := .inl
  written := fun done => by rw [notWritten] at done; cases done
  ok := ok

/-- A step at a path whose row is not current, neither before nor after. -/
theorem Moves.stale (frame : Frame c path w.store w'.store)
    (spares : ∀ v : VectorId, v ∉ documentVectorIds w.store path →
      v.asStr ∈ w.vectors.store.rows → v.asStr ∈ w'.vectors.store.rows)
    (hashes : w'.store.fileHashes = w.store.fileHashes) (stale : ¬ c.HashCurrent w.store path)
    (notWritten : phase.hashWritten = false) (ok : WorkerOk c w'.store path phase') :
    Moves c path w w' phase phase' where
  frame := frame
  spares := spares
  keeps := fun current => absurd current stale
  fresh := fun current => absurd ((hashCurrent_congr hashes).mp current) stale
  written := fun done => by rw [notWritten] at done; cases done
  ok := ok

theorem deleteDocumentVectors_spares (w : Workspace α K) (path : String) {v : VectorId}
    (kept : v ∉ documentVectorIds w.store path) (held : v.asStr ∈ w.vectors.store.rows) :
    v.asStr ∈ (w.deleteDocumentVectors path).vectors.store.rows := by
  have rows : (w.deleteDocumentVectors path).vectors.store.rows =
      w.vectors.store.rows.eraseAll ((documentVectorIds w.store path).map VectorId.asStr) :=
    VectorStore.deleteIndexedVectors_rows _ _
  rw [rows]
  refine Rows.mem_eraseAll.mpr ⟨held, fun listed => ?_⟩
  obtain ⟨v', listed, same⟩ := List.mem_map.mp listed
  exact kept (VectorId.asStr_injective same ▸ listed)

theorem startFile_moves (c : RunConfig α K) (w : Workspace α K) (path : String)
    (cancelled : Bool) :
    Moves c path w (startFile c cancelled w path).1 .pulled (startFile c cancelled w path).2 := by
  unfold startFile
  split
  · exact Moves.idle rfl trivial
  dsimp only
  split
  · exact Moves.idle rfl trivial
  cases reads : c.disk.read path with
  | none => exact Moves.idle rfl trivial
  | some content =>
      dsimp only
      split
      · rename_i unchanged
        have current := (hashCurrent_iff reads).mpr unchanged
        have after := hashCurrent_upsert (s := w.store) reads (c.disk.mtimeNs path)
        exact
          { frame := frame_upsertFileHash _
            spares := fun _ _ held => held
            keeps := fun _ => ⟨after, Iff.rfl, fun _ stored => ⟨stored.document, stored.bodies⟩,
              fun _ held => held⟩
            fresh := fun _ => .inl current
            written := nofun
            ok := trivial }
      · rename_i changed
        have stale := mt (hashCurrent_iff (s := w.store) reads).mp changed
        cases tree : c.treeOf path with
        | none => exact Moves.idle rfl trivial
        | some doc =>
            have hashOf : c.HashOf path (c.pipeline.computeContentHash content) :=
              ⟨content, reads, rfl⟩
            dsimp only
            split
            · rw [(treeOf_spec tree).1]
              refine Moves.stale frame_teardown
                (fun v => deleteDocumentVectors_spares w path) teardown_fileHashes stale rfl ?_
              exact ⟨tree, hashOf, mt (hashCurrent_congr teardown_fileHashes).mp stale⟩
            · exact Moves.idle rfl ⟨tree, hashOf, stale⟩

/-- A step behind the hash row, which touches symbols only. -/
theorem Moves.behindHash {store : ContentStore} (frame : Frame c path w.store store)
    (documents : store.documents = w.store.documents) (sections : store.sections = w.store.sections)
    (claims : store.claims = w.store.claims) (hashes : store.fileHashes = w.store.fileHashes)
    (current : c.HashCurrent w.store path)
    (written : phase'.hashWritten = true ∨ c.documentPairs path = [])
    (ok : WorkerOk c store path phase') : Moves c path w { w with store } phase phase' where
  frame := frame
  spares := fun _ _ held => held
  keeps := fun _ =>
    { current := (hashCurrent_congr hashes).mpr current
      document := by rw [documents]
      stored := fun doc stored =>
        ⟨documents ▸ stored.document, sections ▸ claims ▸ stored.bodies⟩
      rows := fun _ held => held }
  fresh := fun _ => .inl current
  written := fun _ => written
  ok := ok

/-- **One worker step.**  A symbol extraction may fail only for a file that has nothing to
embed. -/
theorem workerStep_moves (placed : Placed c w.store) (ok : WorkerOk c w.store path phase)
    {cancelled : Bool} {action : WorkerAction}
    (harmless : ∀ written, action = .extractFails written → c.documentPairs path = [])
    (taken : workerStep c cancelled path w action phase = some (w', phase')) :
    Moves c path w w' phase phase' := by
  unfold workerStep at taken
  split at taken
  · have moved := startFile_moves c w path cancelled
    rw [Option.some.inj taken] at moved
    exact moved
  · rename_i doc hash
    obtain ⟨tree, hashOf, stale⟩ := ok
    obtain ⟨id_eq, path_eq, distinct⟩ := treeOf_spec tree
    split at taken
    · cases taken
      exact Moves.idle rfl trivial
    · rename_i store inserted
      cases taken
      obtain ⟨frame, stored, hashes⟩ := insertDocument_spec placed id_eq path_eq distinct inserted
      exact Moves.stale frame (fun _ _ held => held) hashes stale rfl
        ⟨tree, hashOf, mt (hashCurrent_congr hashes).mp stale, stored⟩
  · cases taken
    exact Moves.idle rfl trivial
  · rename_i doc hash
    cases taken
    obtain ⟨tree, ⟨content, reads, rfl⟩, stale, stored⟩ := ok
    have current := hashCurrent_upsert (s := w.store) reads (c.disk.mtimeNs path)
    exact
      { frame := frame_upsertFileHash _
        spares := fun _ _ held => held
        keeps := fun before => absurd before stale
        fresh := fun _ => .inr rfl
        written := nofun
        ok := ⟨tree, current, stored.document, stored.bodies⟩ }
  · cases taken
    exact Moves.idle rfl trivial
  · rename_i doc
    simp only [Option.some.injEq, Prod.mk.injEq] at taken
    obtain ⟨rfl, rfl⟩ := taken
    obtain ⟨tree, current, stored⟩ := ok
    obtain ⟨symbols, edges, same⟩ := extractCodeSymbols_tables c.pipeline.languageOf
      c.pipeline.packageGraph (s := w.store) path (c.extractionOf path)
    refine Moves.behindHash (frame_extractCodeSymbols _ _) ?_ ?_ ?_ ?_ current (.inl rfl)
      ⟨?_, ?_, doc, tree, ?_⟩
    · rw [same]
    · rw [same]
    · rw [same]
    · rw [same]
    · rw [RunConfig.documentPairs, tree, extractCodeSymbols_pairs]
    · rw [same]
      exact current
    · rw [same]
      exact ⟨stored.document, stored.bodies⟩
  · rename_i written doc
    cases taken
    obtain ⟨tree, current, stored⟩ := ok
    obtain ⟨refs, same⟩ := ContentStore.insertSymbols_frame (s := w.store.deleteSymbolsForFile path)
      (((c.extractionOf path).records path).take written)
    refine Moves.behindHash (frame_insertSymbols fun r mem => List.mem_of_mem_take mem)
      ?_ ?_ ?_ ?_ current (.inr (harmless written rfl)) trivial
    all_goals rw [same]; rfl
  · cases taken

end Steps

/-! ## One chunk of the consumer -/

section Chunks

open RunState

variable {α K : Type} [Component α]

/-- A chunk that was stored has its rows. -/
theorem storeChunk_spec {w w' : Workspace α K} {chunk : EmbeddingPairs} {vectors : List (List α)}
    (stored : storeChunk w chunk vectors = some w') :
    w'.store = w.store ∧ (∀ id ∈ w.vectors.store.rows, id ∈ w'.vectors.store.rows) ∧
      ∀ pair ∈ chunk, pair.1.asStr ∈ w'.vectors.store.rows := by
  unfold storeChunk at stored
  split at stored
  · rename_i lengths
    split at stored
    · rename_i vectors' embedded
      cases stored
      obtain ⟨vectors, index, same, -, rfl⟩ := Corpus.embedChunk_eq_ok embedded
      cases same
      have rows := w.vectors.store.storeIndexedVectors_rows (((named chunk).map Prod.fst).zip vectors)
      refine ⟨rfl, fun id mem => ?_, fun pair mem => ?_⟩
      · dsimp only
        rw [rows]
        exact Rows.mem_upsertAll.mpr (.inl mem)
      · dsimp only
        rw [rows]
        refine Rows.mem_upsertAll.mpr (.inr ?_)
        have whole : (((named chunk).map Prod.fst).zip vectors).map Prod.fst =
            (named chunk).map Prod.fst := by
          rw [List.map_fst_zip]
          simp [named, lengths]
        have listed : pair.1.asStr ∈ (named chunk).map Prod.fst := by
          simp only [named, List.map_map, List.mem_map]
          exact ⟨pair, mem, rfl⟩
        rw [← whole] at listed
        exact List.mem_map.mp listed
    · cases stored
  · cases stored

theorem spoilChunk_spec (w : Workspace α K) (chunk : EmbeddingPairs) (vectors : List (List α))
    (inserted : Nat) :
    (spoilChunk w chunk vectors inserted).store = w.store ∧
      (spoilChunk w chunk vectors inserted).vectors.store = w.vectors.store := by
  unfold spoilChunk
  split <;> exact ⟨rfl, rfl⟩

end Chunks

end Ministr.Ingestion
