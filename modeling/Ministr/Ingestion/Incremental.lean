/-
# Ingestion.Incremental — re-indexing what changed, against indexing from scratch

A run takes files through `parse_and_store_file` in some order, resolves the references
that were left pending, and stores what stays unresolved.  A file whose mtime or hash is
the stored one is skipped.  Re-parsing a file deletes its symbols first, and the cascade
takes every edge that ends in them, those of other files included.

The graph of the tables is then the graph of the files, except where a reference loses its
edge for good: the file that makes it is not parsed again, or was parsed before its target
was deleted, and the target is there at the end.  `pending_refs` does not help, since nothing
reads it back.  In every history without these two, the tables are those of a run over the
final files from scratch (`incremental_eq_scratch`).

A run here is one in which every file is read, parsed and stored.  Embeddings do not touch
the tables of the graph and are left out.
-/
import Ministr.Ingestion.SymbolGraph

namespace Ministr.Ingestion

open Ministr.Theory Ministr.Content

set_option autoImplicit false

structure SourceFile where
  content : String
  mtimeNs : Option Int
  deriving DecidableEq, Repr

namespace Workspace

variable {α K : Type}

def FileResult.pendingRefs : FileResult → List PendingRef
  | .skipped => []
  | .indexed pendingRefs _ => pendingRefs

/-- `parse_and_store_file` for each file of a run, with the references it leaves pending. -/
def parseFiles (p : Pipeline α K) :
    Workspace α K → List (String × SourceFile) → Except IngestionError (Workspace α K × List PendingRef)
  | w, [] => .ok (w, [])
  | w, (path, file) :: rest => do
      let (w, result) ← w.parseAndStoreFile p path file.content file.mtimeNs
      let (w, pending) ← parseFiles p w rest
      .ok (w, result.pendingRefs ++ pending)

/-- The part of `finalize_ingestion` that writes references. -/
def finalizeIngestion (p : Pipeline α K) (w : Workspace α K) (pending : List PendingRef) :
    Workspace α K :=
  let (store, stillPending) := resolvePendingRefs p.languageOf p.packageGraph w.store pending
  { w with store := persistPendingRefs store stillPending }

/-- One run over the given files. -/
def indexFiles (p : Pipeline α K) (w : Workspace α K) (files : List (String × SourceFile)) :
    Except IngestionError (Workspace α K) := do
  let (w, pending) ← w.parseFiles p files
  .ok (w.finalizeIngestion p pending)

end Workspace

/-! ## What `parse_and_store_file` does to the tables -/

section Tables

variable {s t : ContentStore} {path : String}

theorem teardown_graph (tidy : Tidy s) (path : String) :
    (teardown s path).symbols = (s.deleteSymbolsForFile path).symbols ∧
      (teardown s path).symbolRefs = (s.deleteSymbolsForFile path).symbolRefs := by
  cases held : s.getDocument path with
  | none =>
      have absent : path ∉ s.documents := by
        rw [Rows.mem_iff_lookup]
        rintro ⟨row, found⟩
        cases held.symm.trans found
      rw [ContentStore.deleteSymbolsForFile_eq_self (tidy.vacant absent)]
      simp only [teardown, held]
      exact ⟨rfl, rfl⟩
  | some doc =>
      simp only [teardown, held, tidy.documents_at path doc held]
      exact ⟨rfl, rfl⟩

/-- The tables once the new document of a path is stored and its hash recorded: the symbols
of the path are gone, and every edge at them. -/
structure Reopened (s : ContentStore) (path : String) (row : FileHashRow) (t : ContentStore) :
    Prop where
  tidy : Tidy t
  taken : path ∈ t.documents
  vacant : Vacant t path
  symbols : t.symbols = (s.deleteSymbolsForFile path).symbols
  refs : t.symbolRefs = (s.deleteSymbolsForFile path).symbolRefs
  hashes : t.fileHashes = s.fileHashes.insert path row

variable {α K : Type} {w w' : Workspace α K}

theorem Tidy.reopen {base : ContentStore} (tidy : Tidy base) {doc : DocumentTree}
    (id_eq : doc.id = path) (path_eq : doc.sourcePath = path) (absent : path ∉ base.documents)
    (distinct : doc.sections.ids.Nodup) (done : base.insertDocument doc = .ok t) (row : FileHashRow)
    (symbols : base.symbols = (s.deleteSymbolsForFile path).symbols)
    (refs : base.symbolRefs = (s.deleteSymbolsForFile path).symbolRefs)
    (hashes : base.fileHashes = s.fileHashes) : Reopened s path row (t.upsertFileHash path row) := by
  obtain ⟨tidy', -, taken, sameSymbols, -⟩ :=
    tidy.insertDocument id_eq path_eq absent distinct done row
  obtain ⟨-, sameRefs, sameHashes⟩ := ContentStore.insertDocument_frame done
  refine
    { tidy := tidy'
      taken
      vacant := fun id symbol found => tidy.vacant absent id symbol (sameSymbols ▸ found)
      symbols := sameSymbols.trans symbols
      refs := sameRefs.trans refs
      hashes := ?_ }
  show t.fileHashes.insert path row = s.fileHashes.insert path row
  rw [sameHashes, hashes]

theorem storeEnrichedDocument_reopened (tidy : Tidy w.store) {e : Enricher}
    (parsed : ParsedDocument path) {contentHash : String} {mtimeNs : Option Int}
    {doc : DocumentTree}
    (done : w.storeEnrichedDocument e parsed path contentHash mtimeNs
      (w.store.getFileHash path).isSome = .ok (w', doc)) :
    Reopened w.store path (Workspace.freshHash contentHash mtimeNs) w'.store := by
  obtain ⟨base, store, id_eq, path_eq, distinct, inserted, rfl, rfl | ⟨rfl, absent⟩⟩ :=
    storeEnrichedDocument_eq_ok tidy parsed done
  · obtain ⟨symbols, refs⟩ := teardown_graph tidy path
    exact (tidy.teardown path).reopen id_eq path_eq not_mem_teardown distinct inserted _ symbols
      refs teardown_fileHashes
  · have same := ContentStore.deleteSymbolsForFile_eq_self (tidy.vacant absent)
    exact tidy.reopen id_eq path_eq absent distinct inserted _ (by rw [same]) (by rw [same]) rfl

/-- What `parse_and_store_file` does: it skips a file that looks unchanged, or it reopens the
path and extracts its symbols. -/
theorem parseAndStoreFile_cases (tidy : Tidy w.store) {p : Pipeline α K} {content : String}
    {mtimeNs : Option Int} {result : Workspace.FileResult}
    (watched : p.inIgnoredDir path = false)
    (done : w.parseAndStoreFile p path content mtimeNs = .ok (w', result)) :
    let hash := p.computeContentHash content
    (result = .skipped ∧ w' = w ∧
        Workspace.unchangedByMtime (w.store.getFileHash path) mtimeNs = true) ∨
      (result = .skipped ∧
        w'.store = w.store.upsertFileHash path (Workspace.freshHash hash mtimeNs) ∧
        Workspace.unchangedByHash (w.store.getFileHash path) hash = true) ∨
      (Workspace.unchangedByHash (w.store.getFileHash path) hash = false ∧
        ∃ s pairs, Reopened w.store path (Workspace.freshHash hash mtimeNs) s ∧
          let extracted := extractCodeSymbols p.languageOf p.packageGraph s path
            (p.extraction path content)
          w'.store = extracted.1 ∧ result = .indexed extracted.2.pendingRefs pairs) := by
  intro hash
  unfold Workspace.parseAndStoreFile at done
  rw [watched] at done
  simp only [Bool.false_eq_true, if_false] at done
  split at done
  · rename_i sameTime
    cases done
    exact .inl ⟨rfl, rfl, sameTime⟩
  split at done
  · rename_i sameHash
    cases done
    exact .inr (.inl ⟨rfl, rfl, sameHash⟩)
  · rename_i changed
    split at done
    · cases done
    · rename_i parsed _
      obtain ⟨⟨w₁, doc⟩, storing, done⟩ := bind_eq_ok.mp done
      have reopened := storeEnrichedDocument_reopened tidy parsed storing
      refine .inr (.inr ⟨Bool.eq_false_iff.mpr changed, w₁.store, ?_⟩)
      dsimp only at done
      split at done
      · rename_i code
        cases done
        rw [show p.extraction path content = p.extract path content from if_pos code]
        exact ⟨_, reopened, rfl, rfl⟩
      · rename_i text
        cases done
        rw [show p.extraction path content = .unsupported from if_neg text]
        exact ⟨_, reopened, rfl, rfl⟩

end Tables

/-! ## Histories -/

/-- The files of a corpus as its last run saw them, and the workspace. -/
structure IndexedCorpus (α K : Type) where
  files : Rows String SourceFile
  work : Workspace α K

/-- The contents of the files. -/
def contentsOf (files : Rows String SourceFile) : Contents :=
  fun path => (files.lookup path).map SourceFile.content

namespace IndexedCorpus

variable {α K : Type}

def fresh (work : Workspace α K) : IndexedCorpus α K where
  files := ∅
  work := work

/-- A run over files as they are now, in the order they are processed.  Files that are not
listed are unchanged. -/
def step (p : Pipeline α K) (s : IndexedCorpus α K) (files : List (String × SourceFile)) :
    Option (IndexedCorpus α K) :=
  (s.work.indexFiles p files).toOption.map fun work =>
    { files := s.files.upsertAll files, work }

end IndexedCorpus

section Conditions

variable {α K : Type} (p : Pipeline α K)

/-- Symbol ids are distinct, and a reference has at most one definition to mean. -/
structure WellFormed (files : Contents) : Prop where
  distinct : ∀ path content, files path = some content →
    (((p.extraction path content).records path).map SymbolRecord.id).Nodup
  apart : ∀ r r', files.Symbol p r → files.Symbol p r' → r.id = r'.id → r = r'
  onePrimary : ∀ path raw source d d', files.Ref p path raw source → files.Symbol p d →
    files.Symbol p d' → Contents.Means p path raw d → Contents.Means p path raw d' → d = d'

/-- A file that is not parsed again refers to nothing that is. -/
def Undisturbed (old new : Contents) : Prop :=
  ∀ path raw source d, new.Ref p path raw source → old path = new path → new.Symbol p d →
    Contents.Means p path raw d → old d.filePath = new d.filePath

/-- A changed file refers to nothing that a later changed file defined before, unless
the name is not defined any more. -/
def Ahead (old new : Contents) (path later : String) : Prop :=
  ∀ raw source d d', old path ≠ new path → new.Ref p path raw source → old later ≠ new later →
    old.Symbol p d → d.filePath = later → Contents.Means p path raw d → new.Symbol p d' →
    ¬ Contents.Means p path raw d'

/-- A change of content shows in the mtime and in the hash. -/
def Seen (was : Rows String SourceFile) (entry : String × SourceFile) : Prop :=
  ∀ old, was.lookup entry.1 = some old → old.content ≠ entry.2.content →
    (entry.2.mtimeNs = none ∨ old.mtimeNs ≠ entry.2.mtimeNs) ∧
      p.computeContentHash old.content ≠ p.computeContentHash entry.2.content

/-- What a run has to keep to.  The first five fields are what a corpus is: each file once,
none in an ignored directory, a change of content seen in mtime and hash, distinct ids and
definitions.  The last two keep the run clear of references that lose their edge. -/
structure Admitted (s : IndexedCorpus α K) (files : List (String × SourceFile)) : Prop where
  paths : (files.map Prod.fst).Nodup
  watched : ∀ file ∈ files, p.inIgnoredDir file.1 = false
  seen : ∀ file ∈ files, Seen p s.files file
  wellFormed : WellFormed p (contentsOf (s.files.upsertAll files))
  apart : ∀ r r', (contentsOf s.files).Symbol p r →
    (contentsOf (s.files.upsertAll files)).Symbol p r' → r.id = r'.id → r.filePath = r'.filePath
  undisturbed : Undisturbed p (contentsOf s.files) (contentsOf (s.files.upsertAll files))
  ahead : (files.map Prod.fst).Pairwise
    (Ahead p (contentsOf s.files) (contentsOf (s.files.upsertAll files)))

end Conditions

/-! ## The middle of a run -/

/-- The contents while `todo` is still to be processed. -/
def mix (old new : Contents) (todo : List String) : Contents :=
  fun path => if path ∈ todo then old path else new path

section Mix

variable {α K : Type} {p : Pipeline α K} {old new : Contents} {todo : List String}
  {path : String}

theorem mix_of_settled (settled : path ∈ todo → old path = new path) :
    mix old new todo path = new path := by
  unfold mix
  split
  · rename_i waits
    exact settled waits
  · rfl

theorem mix_cons_other {other : String} (ne : other ≠ path) :
    mix old new (path :: todo) other = mix old new todo other := by
  simp [mix, ne]

theorem Contents.symbol_congr {files files' : Contents} {r : SymbolRecord}
    (same : files r.filePath = files' r.filePath) : files.Symbol p r ↔ files'.Symbol p r := by
  unfold Contents.Symbol
  rw [same]

theorem Contents.ref_congr {files files' : Contents} {raw : RawRef} {source : String}
    (same : files path = files' path) :
    files.Ref p path raw source ↔ files'.Ref p path raw source := by
  unfold Contents.Ref
  rw [same]

/-- A symbol of the mixed contents is an old one of a file still to come, or a new one. -/
theorem symbol_mix {r : SymbolRecord} : (mix old new todo).Symbol p r ↔
    r.filePath ∈ todo ∧ old.Symbol p r ∨ r.filePath ∉ todo ∧ new.Symbol p r := by
  by_cases waits : r.filePath ∈ todo
  · have same : mix old new todo r.filePath = old r.filePath := if_pos waits
    simp [Contents.symbol_congr same, waits]
  · have same : mix old new todo r.filePath = new r.filePath := if_neg waits
    simp [Contents.symbol_congr same, waits]

/-- The symbol a reference starts in. -/
theorem Contents.Ref.start {files : Contents} {raw : RawRef} {source : String}
    (ref : files.Ref p path raw source) :
    ∃ r, files.Symbol p r ∧ r.id = source ∧ r.filePath = path := by
  obtain ⟨content, holds, -, starts⟩ := ref
  obtain ⟨r, listed, rfl⟩ := List.mem_map.mp (fromId_mem starts)
  have here := Extraction.records_filePath listed
  subst here
  exact ⟨r, ⟨content, holds, listed⟩, rfl, rfl⟩

/-- The ends of an edge are symbols. -/
theorem Contents.Edge.ends {files : Contents} {e : SymbolRef} (edge : files.Edge p e) :
    (∃ r, files.Symbol p r ∧ r.id = e.fromSymbolId) ∧
      ∃ r, files.Symbol p r ∧ r.id = e.toSymbolId := by
  obtain ⟨path, raw, source, d, ref, symbol, -, -, rfl⟩ := edge
  obtain ⟨r, starts, id, -⟩ := ref.start
  exact ⟨⟨r, starts, id⟩, ⟨d, symbol, rfl⟩⟩

end Mix

/-- The hash row of an indexed file. -/
def rowOf {α K : Type} (p : Pipeline α K) (file : SourceFile) : FileHashRow :=
  Workspace.freshHash (p.computeContentHash file.content) file.mtimeNs

/-- The tables in the middle of a run that takes the files from `was` to `now`.  The symbols
are those of the mixed contents, and no edge is wrong.  An edge of the new graph is stored
unless its reference is pending or its file is still to come; and a stored edge that ends in
a file still to come ends in one that will be skipped. -/
structure Midway {α K : Type} (p : Pipeline α K) (was now : Rows String SourceFile)
    (todo : List String) (pending : List PendingRef) (s : ContentStore) : Prop where
  tidy : Tidy s
  hashes : ∀ path, s.fileHashes.lookup path =
    ((if path ∈ todo then was else now).lookup path).map (rowOf p)
  symbols : ∀ r, HasSymbol s r ↔ (mix (contentsOf was) (contentsOf now) todo).Symbol p r
  sound : ∀ e ∈ s.symbolRefs, (mix (contentsOf was) (contentsOf now) todo).Edge p e
  complete : ∀ path raw source d, (contentsOf now).Ref p path raw source →
    (path ∈ todo → contentsOf was path = contentsOf now path) → (contentsOf now).Symbol p d →
    Contents.Means p path raw d → source ≠ d.id →
      (d.filePath ∈ todo → contentsOf was d.filePath = contentsOf now d.filePath) ∧
          raw.edgeTo source d ∈ s.symbolRefs ∨
        raw.pendingAt path source ∈ pending
  pending : ∀ pr ∈ pending, ∃ path raw source, (contentsOf now).Ref p path raw source ∧
    pr = raw.pendingAt path source

section Step

variable {α K : Type} {p : Pipeline α K} {was now : Rows String SourceFile} {path : String}
  {todo : List String} {pending : List PendingRef} {s t : ContentStore}

theorem Midway.closed (midway : Midway p was now todo pending s) : Closed s := by
  intro e mem
  obtain ⟨⟨r, symbol, starts⟩, ⟨r', symbol', stops⟩⟩ := (midway.sound e mem).ends
  rw [← starts, ← stops]
  exact ⟨((midway.symbols r).mpr symbol).mem, ((midway.symbols r').mpr symbol').mem⟩

/-- A skipped file: only its hash row may change. -/
theorem Midway.skip (midway : Midway p was now (path :: todo) pending s) (once : path ∉ todo)
    (same : contentsOf was path = contentsOf now path) {hashes : Rows String FileHashRow}
    (tidy : Tidy { s with fileHashes := hashes })
    (here : hashes.lookup path = (now.lookup path).map (rowOf p))
    (others : ∀ other, other ≠ path → hashes.lookup other = s.fileHashes.lookup other) :
    Midway p was now todo pending { s with fileHashes := hashes } := by
  have unmixed : mix (contentsOf was) (contentsOf now) (path :: todo) =
      mix (contentsOf was) (contentsOf now) todo := by
    funext other
    by_cases at_path : other = path
    · subst at_path
      rw [mix_of_settled fun _ => same, mix_of_settled fun _ => same]
    · exact mix_cons_other at_path
  have settled : ∀ {other}, (other ∈ todo → contentsOf was other = contentsOf now other) →
      other ∈ path :: todo → contentsOf was other = contentsOf now other := by
    intro other settled waits
    rcases List.mem_cons.mp waits with rfl | waits
    · exact same
    · exact settled waits
  refine
    { tidy
      hashes := fun other => ?_
      symbols := unmixed ▸ midway.symbols
      sound := unmixed ▸ midway.sound
      complete := fun path' raw source d ref ended symbol means ne => ?_
      pending := midway.pending }
  · by_cases at_path : other = path
    · subst at_path
      rw [if_neg once]
      exact here
    · show hashes.lookup other = _
      rw [others other at_path, midway.hashes other]
      simp [at_path]
  · refine (midway.complete path' raw source d ref (settled ended) symbol means ne).imp_left ?_
    exact fun ⟨stays, stored⟩ => ⟨fun waits => stays (List.mem_cons_of_mem _ waits), stored⟩

/-! ### A file that is parsed again -/

theorem Reopened.hasSymbol {row : FileHashRow} (reopened : Reopened s path row t)
    {r : SymbolRecord} : HasSymbol t r ↔ HasSymbol s r ∧ r.filePath ≠ path := by
  unfold HasSymbol
  rw [reopened.symbols]
  exact ContentStore.deleteSymbolsForFile_symbols

/-- An edge goes when a symbol of the path is at either end. -/
theorem Reopened.mem_refs {row : FileHashRow} (reopened : Reopened s path row t) {e : SymbolRef} :
    e ∈ t.symbolRefs ↔ e ∈ s.symbolRefs ∧
      (∀ row, s.symbols.lookup e.fromSymbolId = some row → row.filePath ≠ path) ∧
      ∀ row, s.symbols.lookup e.toSymbolId = some row → row.filePath ≠ path := by
  rw [reopened.refs]
  simp [ContentStore.deleteSymbolsForFile, Option.any_eq_false]

/-- An edge between symbols of other files stays. -/
theorem Reopened.keeps {row : FileHashRow} (reopened : Reopened s path row t) {e : SymbolRef}
    (mem : e ∈ s.symbolRefs) {r d : SymbolRecord} (starts : HasSymbol s r)
    (id : r.id = e.fromSymbolId) (elsewhere : r.filePath ≠ path) (stops : HasSymbol s d)
    (id' : d.id = e.toSymbolId) (elsewhere' : d.filePath ≠ path) : e ∈ t.symbolRefs := by
  refine reopened.mem_refs.mpr ⟨mem, fun row found => ?_, fun row found => ?_⟩
  · rw [← id, show s.symbols.lookup r.id = _ from starts, Option.some.injEq] at found
    exact found ▸ elsewhere
  · rw [← id', show s.symbols.lookup d.id = _ from stops, Option.some.injEq] at found
    exact found ▸ elsewhere'

/-- A changed file is about to be parsed again: `base` is what the tables are once its old
symbols are gone and its hash row is written. -/
structure Reparsing {α K : Type} (p : Pipeline α K) (was now : Rows String SourceFile)
    (path : String) (todo : List String) (pending : List PendingRef) (s : ContentStore)
    (file : SourceFile) (base : ContentStore) : Prop where
  midway : Midway p was now (path :: todo) pending s
  once : path ∉ todo
  found : now.lookup path = some file
  changed : contentsOf was path ≠ contentsOf now path
  wellFormed : WellFormed p (contentsOf now)
  apart : ∀ r r', (contentsOf was).Symbol p r → (contentsOf now).Symbol p r' → r.id = r'.id →
    r.filePath = r'.filePath
  ahead : ∀ later ∈ todo, Ahead p (contentsOf was) (contentsOf now) path later
  reopened : Reopened s path (rowOf p file) base

namespace Reparsing

variable {file : SourceFile} {base : ContentStore}

theorem content (reparsing : Reparsing p was now path todo pending s file base) :
    contentsOf now path = some file.content := by
  rw [contentsOf, reparsing.found]
  rfl

theorem mixed (reparsing : Reparsing p was now path todo pending s file base) :
    mix (contentsOf was) (contentsOf now) todo path = some file.content := by
  rw [mix_of_settled fun waits => absurd waits reparsing.once, reparsing.content]

theorem closed (reparsing : Reparsing p was now path todo pending s file base) : Closed base := by
  intro e mem
  obtain ⟨stored, starts, stops⟩ := reparsing.reopened.mem_refs.mp mem
  obtain ⟨from_mem, to_mem⟩ := reparsing.midway.closed e stored
  obtain ⟨row, found⟩ := (Rows.mem_iff_lookup _ _).mp from_mem
  obtain ⟨row', found'⟩ := (Rows.mem_iff_lookup _ _).mp to_mem
  rw [reparsing.reopened.symbols, Rows.mem_iff_lookup, Rows.mem_iff_lookup]
  exact ⟨⟨row, ContentStore.deleteSymbolsForFile_symbols.mpr ⟨found, starts row found⟩⟩,
    ⟨row', ContentStore.deleteSymbolsForFile_symbols.mpr ⟨found', stops row' found'⟩⟩⟩

theorem newSymbol (reparsing : Reparsing p was now path todo pending s file base)
    {r : SymbolRecord} (listed : r ∈ (p.extraction path file.content).records path) :
    (contentsOf now).Symbol p r := by
  have here := Extraction.records_filePath listed
  exact ⟨file.content, by rw [here]; exact reparsing.content, by rw [here]; exact listed⟩

/-- The file's own references are references of the new contents. -/
theorem ownRef (reparsing : Reparsing p was now path todo pending s file base) {raw : RawRef}
    {source : String} (listed : raw ∈ (p.extraction path file.content).rawRefs)
    (starts : fromId ((p.extraction path file.content).records path) raw = some source) :
    (contentsOf now).Ref p path raw source :=
  ⟨file.content, reparsing.content, listed, starts⟩

/-- The new ids are free: a symbol that is left has another path. -/
theorem unused (reparsing : Reparsing p was now path todo pending s file base)
    {r : SymbolRecord} (listed : r ∈ (p.extraction path file.content).records path) :
    r.id ∉ base.symbols := by
  intro taken
  obtain ⟨row, stored⟩ := (Rows.mem_iff_lookup _ _).mp taken
  have held : HasSymbol base { row with id := r.id } := stored
  obtain ⟨before, elsewhere⟩ := reparsing.reopened.hasSymbol.mp held
  have symbol := (reparsing.midway.symbols _).mp before
  have new := reparsing.newSymbol listed
  refine elsewhere ?_
  rcases symbol_mix.mp symbol with ⟨-, old⟩ | ⟨-, current⟩
  · exact (reparsing.apart _ r old new rfl).trans (Extraction.records_filePath listed)
  · rw [reparsing.wellFormed.apart _ r current new rfl]
    exact Extraction.records_filePath listed

theorem spec (reparsing : Reparsing p was now path todo pending s file base) :
    Extracted p.languageOf p.packageGraph base
      (extractCodeSymbols p.languageOf p.packageGraph base path (p.extraction path file.content)).1
      path (p.extraction path file.content)
      (extractCodeSymbols p.languageOf p.packageGraph base path
        (p.extraction path file.content)).2.pendingRefs :=
  extractCodeSymbols_spec _ _ reparsing.closed reparsing.reopened.vacant
    (fun _ listed => reparsing.unused listed)
    (reparsing.wellFormed.distinct path file.content reparsing.content)

variable {after : ContentStore} {refs : List PendingRef}

theorem symbols (reparsing : Reparsing p was now path todo pending s file base)
    (spec : Extracted p.languageOf p.packageGraph base after path
      (p.extraction path file.content) refs) (r : SymbolRecord) :
    HasSymbol after r ↔ (mix (contentsOf was) (contentsOf now) todo).Symbol p r := by
  rw [spec.symbols, reparsing.reopened.hasSymbol, reparsing.midway.symbols]
  by_cases here : r.filePath = path
  · unfold Contents.Symbol
    rw [here, reparsing.mixed]
    simp
  · rw [Contents.symbol_congr (mix_cons_other here)]
    refine ⟨fun held => held.elim And.left fun listed => ?_, fun held => .inl ⟨held, here⟩⟩
    exact absurd (Extraction.records_filePath listed) here

/-- No edge is wrong: the old ones start and end elsewhere, the new ones are resolved. -/
theorem sound (reparsing : Reparsing p was now path todo pending s file base)
    (spec : Extracted p.languageOf p.packageGraph base after path
      (p.extraction path file.content) refs) {e : SymbolRef} (mem : e ∈ after.symbolRefs) :
    (mix (contentsOf was) (contentsOf now) todo).Edge p e := by
  have midway := reparsing.midway
  rcases (spec.refs e).mp mem with old | ⟨raw, listed, source, d, starts, named, ne, rfl⟩
  · obtain ⟨stored, starts, stops⟩ := reparsing.reopened.mem_refs.mp old
    obtain ⟨path', raw, source, d, ref, symbol, means, ne, rfl⟩ := midway.sound e stored
    obtain ⟨r, symbol', id, here⟩ := ref.start
    have path_ne : path' ≠ path := by
      rw [← here]
      exact starts _ (id ▸ (midway.symbols r).mpr symbol')
    have file_ne : d.filePath ≠ path := stops _ ((midway.symbols d).mpr symbol)
    exact ⟨path', raw, source, d, (Contents.ref_congr (mix_cons_other path_ne)).mp ref,
      (Contents.symbol_congr (mix_cons_other file_ne)).mp symbol, means, ne, rfl⟩
  · obtain ⟨stored, means⟩ := target_eq_some named
    exact ⟨path, raw, source, d, ⟨file.content, reparsing.mixed, listed, starts⟩,
      (reparsing.symbols spec d).mp stored, means, ne, rfl⟩

/-- A reference of the file itself is resolved or pending. -/
theorem own_complete (reparsing : Reparsing p was now path todo pending s file base)
    (spec : Extracted p.languageOf p.packageGraph base after path
      (p.extraction path file.content) refs) {raw : RawRef} {source : String} {d : SymbolRecord}
    (listed : raw ∈ (p.extraction path file.content).rawRefs)
    (starts : fromId ((p.extraction path file.content).records path) raw = some source)
    (symbol : (contentsOf now).Symbol p d) (means : Contents.Means p path raw d)
    (ne : source ≠ d.id) :
    (d.filePath ∈ todo → contentsOf was d.filePath = contentsOf now d.filePath) ∧
        raw.edgeTo source d ∈ after.symbolRefs ∨ raw.pendingAt path source ∈ refs := by
  have own := reparsing.ownRef listed starts
  cases named : target p.languageOf p.packageGraph after path raw.targetName raw.targetCrate with
  | none => exact .inr ((spec.pending _).mpr ⟨raw, listed, source, starts, named, rfl⟩)
  | some d' =>
      obtain ⟨stored, means'⟩ := target_eq_some named
      have stored := (reparsing.symbols spec d').mp stored
      -- The target is no symbol that a later file is about to lose.
      have settled : d'.filePath ∈ todo →
          contentsOf was d'.filePath = contentsOf now d'.filePath := by
        intro waits
        by_contra differs
        rcases symbol_mix.mp stored with ⟨-, old⟩ | ⟨elsewhere, -⟩
        · exact reparsing.ahead _ waits raw source d' d reparsing.changed own differs old rfl
            means' symbol means
        · exact elsewhere waits
      have symbol' : (contentsOf now).Symbol p d' :=
        (Contents.symbol_congr (mix_of_settled settled)).mp stored
      have same := reparsing.wellFormed.onePrimary path raw source d d' own symbol symbol' means
        means'
      subst same
      refine .inl ⟨settled, (spec.refs _).mpr (.inr ?_)⟩
      exact ⟨raw, listed, source, d, starts, named, ne, rfl⟩

/-- An edge that was stored for another file stays, unless it ended in this one. -/
theorem other_complete (reparsing : Reparsing p was now path todo pending s file base)
    (spec : Extracted p.languageOf p.packageGraph base after path
      (p.extraction path file.content) refs) {path' : String} (here : path' ≠ path)
    {raw : RawRef} {source : String} {d : SymbolRecord}
    (ref : (contentsOf now).Ref p path' raw source)
    (ended : path' ∈ path :: todo → contentsOf was path' = contentsOf now path')
    (symbol : (contentsOf now).Symbol p d)
    (stays : d.filePath ∈ path :: todo → contentsOf was d.filePath = contentsOf now d.filePath)
    (stored : raw.edgeTo source d ∈ s.symbolRefs) : raw.edgeTo source d ∈ after.symbolRefs := by
  have elsewhere : d.filePath ≠ path := by
    intro same
    exact reparsing.changed (same ▸ stays (same ▸ List.mem_cons_self))
  obtain ⟨r, symbol', id, at_path⟩ := ref.start
  have starts : HasSymbol s r := by
    rw [reparsing.midway.symbols, Contents.symbol_congr (mix_of_settled (at_path ▸ ended))]
    exact symbol'
  have stops : HasSymbol s d := by
    rw [reparsing.midway.symbols, Contents.symbol_congr (mix_of_settled stays)]
    exact symbol
  refine (spec.refs _).mpr (.inl ?_)
  exact reparsing.reopened.keeps stored starts id (at_path ▸ here) stops rfl elsewhere

end Reparsing

/-- A changed file: its old symbols go with all their edges, its new ones come with the edges
that can be resolved now. -/
theorem Reparsing.reparse {file : SourceFile} {base : ContentStore}
    (reparsing : Reparsing p was now path todo pending s file base) :
    let extracted := extractCodeSymbols p.languageOf p.packageGraph base path
      (p.extraction path file.content)
    Midway p was now todo (pending ++ extracted.2.pendingRefs) extracted.1 := by
  intro extracted
  have midway := reparsing.midway
  have spec : Extracted p.languageOf p.packageGraph base extracted.1 path
      (p.extraction path file.content) extracted.2.pendingRefs := reparsing.spec
  refine
    { tidy := (reparsing.reopened.tidy.extract _ _ reparsing.reopened.taken
        reparsing.reopened.vacant _).1
      hashes := fun other => ?_
      symbols := reparsing.symbols spec
      sound := fun e mem => reparsing.sound spec mem
      complete := fun path' raw source d ref ended symbol means ne => ?_
      pending := fun pr mem => ?_ }
  · obtain ⟨symbolTable, edgeTable, tables⟩ := extractCodeSymbols_tables p.languageOf
      p.packageGraph (s := base) path (p.extraction path file.content)
    have hashes : extracted.1.fileHashes = s.fileHashes.insert path (rowOf p file) := by
      rw [← reparsing.reopened.hashes, show extracted.1 = _ from tables]
    rw [hashes, Rows.lookup_insert_if]
    by_cases here : other = path
    · subst here
      rw [if_pos rfl, if_neg reparsing.once, reparsing.found]
      rfl
    · rw [if_neg here, midway.hashes other]
      simp [here]
  · by_cases here : path' = path
    · subst here
      obtain ⟨content', holds, listed, starts⟩ := ref
      cases reparsing.content.symm.trans holds
      exact (reparsing.own_complete spec listed starts symbol means ne).imp_right
        (List.mem_append_right _)
    · have ended' : path' ∈ path :: todo → contentsOf was path' = contentsOf now path' :=
        fun waits => ended ((List.mem_cons.mp waits).resolve_left here)
      rcases midway.complete path' raw source d ref ended' symbol means ne with
        ⟨stays, stored⟩ | waits
      · exact .inl ⟨fun waits => stays (List.mem_cons_of_mem _ waits),
          reparsing.other_complete spec here ref ended' symbol stays stored⟩
      · exact .inr (List.mem_append_left _ waits)
  · rcases List.mem_append.mp mem with old | new
    · exact midway.pending pr old
    · obtain ⟨raw, listed, source, starts, -, rfl⟩ := (spec.pending pr).mp new
      exact ⟨path, raw, source, reparsing.ownRef listed starts, rfl⟩

/-- A file that looks as it did has its old content. -/
theorem Seen.unchanged {file old : SourceFile} (seen : Seen p was (path, file))
    (known : was.lookup path = some old)
    (looks : file.mtimeNs.isSome = true ∧ old.mtimeNs = file.mtimeNs ∨
      p.computeContentHash old.content = p.computeContentHash file.content) :
    old.content = file.content := by
  by_contra differs
  obtain ⟨time, hash⟩ := seen old known differs
  rcases looks with ⟨timed, same⟩ | same
  · rcases time with untimed | other
    · rw [show file.mtimeNs = none from untimed] at timed
      cases timed
    · exact other same
  · exact hash same

/-- One file of a run. -/
theorem Midway.parseAndStoreFile {file : SourceFile} {w w' : Workspace α K}
    {result : Workspace.FileResult}
    (midway : Midway p was now (path :: todo) pending w.store) (once : path ∉ todo)
    (watched : p.inIgnoredDir path = false) (seen : Seen p was (path, file))
    (found : now.lookup path = some file) (wellFormed : WellFormed p (contentsOf now))
    (apart : ∀ r r', (contentsOf was).Symbol p r → (contentsOf now).Symbol p r' → r.id = r'.id →
      r.filePath = r'.filePath)
    (ahead : ∀ later ∈ todo, Ahead p (contentsOf was) (contentsOf now) path later)
    (parsed : w.parseAndStoreFile p path file.content file.mtimeNs = .ok (w', result)) :
    Midway p was now todo (pending ++ result.pendingRefs) w'.store := by
  have content : contentsOf now path = some file.content := by
    rw [contentsOf, found]
    rfl
  have hash : w.store.getFileHash path = (was.lookup path).map (rowOf p) := by
    rw [ContentStore.getFileHash, midway.hashes path, if_pos List.mem_cons_self]
  rcases parseAndStoreFile_cases midway.tidy watched parsed with
    ⟨rfl, rfl, looks⟩ | ⟨rfl, store, looks⟩ | ⟨looks, base, pairs, reopened, store, rfl⟩
  · rw [hash] at looks
    obtain ⟨row, known, looks⟩ := (Option.any_eq_true _ _).mp looks
    obtain ⟨old, held, rfl⟩ := Option.map_eq_some_iff.mp known
    simp only [Bool.and_eq_true, beq_iff_eq] at looks
    have time : old.mtimeNs = file.mtimeNs := looks.2
    have same := seen.unchanged held (.inl ⟨time ▸ looks.1.2, time⟩)
    rw [show Workspace.FileResult.skipped.pendingRefs = [] from rfl, List.append_nil]
    refine midway.skip once ?_ midway.tidy ?_ fun _ _ => rfl
    · rw [content, contentsOf, held, Option.map_some, same]
    · have row : rowOf p old = rowOf p file := by
        unfold rowOf
        rw [same, time]
      rw [show w'.store.fileHashes.lookup path = _ from hash, held, found, Option.map_some, row,
        Option.map_some]
  · rw [hash] at looks
    obtain ⟨row, known, looks⟩ := (Option.any_eq_true _ _).mp looks
    obtain ⟨old, held, rfl⟩ := Option.map_eq_some_iff.mp known
    simp only [Bool.and_eq_true, beq_iff_eq] at looks
    have same := seen.unchanged held (.inr looks.2)
    rw [show Workspace.FileResult.skipped.pendingRefs = [] from rfl, List.append_nil, store]
    refine midway.skip once ?_ ?_ ?_ ?_
    · rw [content, contentsOf, held, Option.map_some, same]
    · refine ⟨midway.tidy.documents_at, fun id mem => ?_, midway.tidy.sections_owned,
        midway.tidy.claims_owned, midway.tidy.symbols_owned⟩
      exact (AList.mem_insert _).mpr (.inr (midway.tidy.documents_hashed id mem))
    · rw [Rows.lookup_insert_if, if_pos rfl, found]
      rfl
    · intro other ne
      rw [Rows.lookup_insert_if, if_neg ne]
  · rw [store]
    refine Reparsing.reparse ⟨midway, once, found, ?_, wellFormed, apart, ahead, reopened⟩
    rw [content]
    intro same
    obtain ⟨old, held, same⟩ := Option.map_eq_some_iff.mp same
    rw [hash, held] at looks
    simp [Workspace.unchangedByHash, rowOf, Workspace.freshHash, Workspace.cacheFresh, same] at looks

/-- **The files of a run**, one after the other. -/
theorem Midway.parseFiles {files : List (String × SourceFile)} {w w' : Workspace α K}
    {more : List PendingRef} (paths : (files.map Prod.fst).Nodup)
    (watched : ∀ file ∈ files, p.inIgnoredDir file.1 = false)
    (seen : ∀ file ∈ files, Seen p was file)
    (listed : ∀ file ∈ files, now.lookup file.1 = some file.2)
    (wellFormed : WellFormed p (contentsOf now))
    (apart : ∀ r r', (contentsOf was).Symbol p r → (contentsOf now).Symbol p r' → r.id = r'.id →
      r.filePath = r'.filePath)
    (ahead : (files.map Prod.fst).Pairwise (Ahead p (contentsOf was) (contentsOf now)))
    (midway : Midway p was now (files.map Prod.fst) pending w.store)
    (done : w.parseFiles p files = .ok (w', more)) :
    Midway p was now [] (pending ++ more) w'.store := by
  induction files generalizing w pending more with
  | nil =>
      cases done
      rw [List.append_nil]
      exact midway
  | cons entry files ih =>
      obtain ⟨path, file⟩ := entry
      obtain ⟨⟨w₁, result⟩, parsed, done⟩ := bind_eq_ok.mp done
      obtain ⟨⟨w₂, rest⟩, later, done⟩ := bind_eq_ok.mp done
      cases done
      obtain ⟨once, paths⟩ := List.nodup_cons.mp paths
      obtain ⟨aheadHere, ahead⟩ := List.pairwise_cons.mp ahead
      have next := midway.parseAndStoreFile once (watched _ List.mem_cons_self)
        (seen _ List.mem_cons_self) (listed _ List.mem_cons_self) wellFormed apart aheadHere parsed
      rw [← List.append_assoc]
      exact ih paths (fun f mem => watched f (List.mem_cons_of_mem _ mem))
        (fun f mem => seen f (List.mem_cons_of_mem _ mem))
        (fun f mem => listed f (List.mem_cons_of_mem _ mem)) ahead next later

/-- The end of a run: what was left pending is resolved against the final symbols. -/
theorem Midway.finish {w : Workspace α K} (midway : Midway p was now [] pending w.store)
    (wellFormed : WellFormed p (contentsOf now)) :
    let t := (w.finalizeIngestion p pending).store
    Tidy t ∧ (∀ path, t.fileHashes.lookup path = (now.lookup path).map (rowOf p)) ∧
      (∀ r, HasSymbol t r ↔ (contentsOf now).Symbol p r) ∧
      ∀ e, e ∈ t.symbolRefs ↔ (contentsOf now).Edge p e := by
  intro t
  obtain ⟨symbols, documents, hashes, sections, claims, refs⟩ :=
    resolvePendingRefs_spec p.languageOf p.packageGraph w.store pending
  have unmixed : mix (contentsOf was) (contentsOf now) [] = contentsOf now := by
    funext path
    exact if_neg List.not_mem_nil
  have stored : ∀ r, HasSymbol w.store r ↔ (contentsOf now).Symbol p r := by
    intro r
    rw [midway.symbols, unmixed]
  refine ⟨?_, fun path => ?_, fun r => ?_, fun e => ?_⟩
  · refine ⟨?_, ?_, ?_, ?_, ?_⟩
    · exact fun id row found => midway.tidy.documents_at id row (documents ▸ found)
    · intro id mem
      exact hashes ▸ midway.tidy.documents_hashed id (documents ▸ mem)
    · intro id row found
      exact documents ▸ midway.tidy.sections_owned id row (sections ▸ found)
    · intro id row found
      exact sections ▸ midway.tidy.claims_owned id row (claims ▸ found)
    · intro id row found
      exact documents ▸ midway.tidy.symbols_owned id row (symbols ▸ found)
  · rw [show t.fileHashes = w.store.fileHashes from hashes, midway.hashes path,
      if_neg List.not_mem_nil]
  · rw [← stored]
    unfold HasSymbol
    rw [show t.symbols = w.store.symbols from symbols]
  · rw [show e ∈ t.symbolRefs ↔ _ from refs e]
    constructor
    · rintro (old | ⟨pr, waits, d, named, ne, -, rfl⟩)
      · exact unmixed ▸ midway.sound e old
      · obtain ⟨path, raw, source, ref, rfl⟩ := midway.pending pr waits
        obtain ⟨held, means⟩ := target_eq_some named
        exact ⟨path, raw, source, d, ref, (stored d).mp held, means, ne, rfl⟩
    · rintro ⟨path, raw, source, d, ref, symbol, means, ne, rfl⟩
      rcases midway.complete path raw source d ref (fun waits => absurd waits List.not_mem_nil)
        symbol means ne with ⟨-, held⟩ | waits
      · exact .inl held
      · refine .inr ⟨_, waits, d, ?_, ne, ?_, rfl⟩
        · cases named : target p.languageOf p.packageGraph w.store path raw.targetName
              raw.targetCrate with
          | none =>
              have unnamed := target_eq_none.mp named d ((stored d).mpr symbol)
              rw [show isCandidate _ _ _ _ = true from means] at unnamed
              cases unnamed
          | some d' =>
              obtain ⟨held, means'⟩ := target_eq_some named
              have same := wellFormed.onePrimary path raw source d d' ref symbol
                ((stored d').mp held) means means'
              rw [same]
              exact named
        · obtain ⟨r, starts, id, -⟩ := ref.start
          exact id ▸ ((stored r).mpr starts).mem

end Step

end Ministr.Ingestion
