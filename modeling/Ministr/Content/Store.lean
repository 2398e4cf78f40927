/-
# Content.Store — the tables of the content database

Documents own sections, sections own claims, and symbols own the references that
start or end at them: deleting a row deletes what it owns.  `file_hashes` says
which content of a path was indexed last.  Symbols belong to a path, not to a
document row, so no cascade reaches them.

Each operation is the statement the code issues.  `insert_document` runs in a
savepoint, so a failed insert leaves the tables as they were.
-/
import Ministr.Content.Document
import Ministr.Theory.Run
import Mathlib.Data.Finset.Basic

namespace Ministr.Content

open Ministr.Theory

set_option autoImplicit false

/-! ## Rows -/

structure DocumentRow where
  title : String
  sourcePath : String
  summary : Option String
  deriving DecidableEq, Repr

structure SectionRow where
  documentId : String
  headingPath : List String
  depth : Nat
  text : String
  summary : Option String
  position : Nat
  deriving DecidableEq, Repr

structure ClaimRow where
  sectionId : String
  text : String
  position : Nat
  deriving DecidableEq, Repr

/-- A row of `symbols`.  `kind` is the text of the item kind; the shader and C++
lexers write kinds of their own. -/
structure SymbolRow where
  filePath : String
  name : String
  kind : String
  visibility : String
  signature : String
  docComment : Option String
  modulePath : String
  lineStart : Nat
  lineEnd : Nat
  cyclomaticComplexity : Option Nat
  deriving DecidableEq, Repr

structure SymbolRecord extends SymbolRow where
  id : String
  deriving DecidableEq, Repr

inductive RefKind where
  | calls | implements | imports | uses | bridge
  deriving DecidableEq, Repr

structure SymbolRef where
  fromSymbolId : String
  toSymbolId : String
  refKind : RefKind
  deriving DecidableEq, Repr

/-- The columns of `pending_refs` outside its key. -/
structure PendingRow where
  filePath : String
  targetCrate : Option String
  deriving DecidableEq, Repr

structure FileHashRow where
  contentHash : String
  mtimeNs : Option Int
  extractorVersion : Nat
  resolverVersion : Nat
  deriving DecidableEq, Repr

/-- The content database. -/
structure ContentStore where
  documents : Rows String DocumentRow
  sections : Rows String SectionRow
  claims : Rows String ClaimRow
  symbols : Rows String SymbolRow
  symbolRefs : Finset SymbolRef
  pendingRefs : Rows (String × String × RefKind) PendingRow
  fileHashes : Rows String FileHashRow

/-- `StorageError::Database`. -/
inductive StorageError where
  | database (reason : String)
  deriving DecidableEq, Repr

namespace ContentStore

def empty : ContentStore where
  documents := ∅
  sections := ∅
  claims := ∅
  symbols := ∅
  symbolRefs := ∅
  pendingRefs := ∅
  fileHashes := ∅

/-! ## Documents, sections and claims -/

/-- A document row that matches `p` is stored under `id`. -/
def hasDocument (s : ContentStore) (p : String → DocumentRow → Bool) (id : String) : Bool :=
  (s.documents.lookup id).any (p id)

/-- A section of a document that matches `p` is stored under `id`. -/
def hasSectionOf (s : ContentStore) (p : String → DocumentRow → Bool) (id : String) : Bool :=
  (s.sections.lookup id).any fun row => s.hasDocument p row.documentId

/-- `DELETE FROM documents WHERE p`, with the cascade to sections and claims. -/
def deleteDocumentsWhere (s : ContentStore) (p : String → DocumentRow → Bool) : ContentStore :=
  { s with
    documents := s.documents.deleteWhere p
    sections := s.sections.deleteWhere fun _ row => s.hasDocument p row.documentId
    claims := s.claims.deleteWhere fun _ row => s.hasSectionOf p row.sectionId }

/-- `delete_document`. -/
def deleteDocument (s : ContentStore) (docId : String) : ContentStore :=
  s.deleteDocumentsWhere fun id _ => id = docId

/-- `get_document`. -/
def getDocument (s : ContentStore) (docId : String) : Option DocumentRow :=
  s.documents.lookup docId

/-- `document_count`. -/
def documentCount (s : ContentStore) : Nat := s.documents.keys.length

/-- `list_documents`, in the order of the titles. -/
def listDocuments (s : ContentStore) : List (String × DocumentRow) :=
  (s.documents.select fun _ _ => true).mergeSort fun a b => a.2.title ≤ b.2.title

/-- `list_sections`: the ids of a document's sections, by position. -/
def listSections (s : ContentStore) (docId : String) : List (String × SectionRow) :=
  (s.sections.select fun _ row => row.documentId = docId).mergeSort
    fun a b => a.2.position ≤ b.2.position

/-- `list_claims`, by position. -/
def listClaims (s : ContentStore) (sectionId : String) : List (String × ClaimRow) :=
  (s.claims.select fun _ row => row.sectionId = sectionId).mergeSort
    fun a b => a.2.position ≤ b.2.position

/-- What `insert_sections_recursive` carries along. -/
structure InsertState where
  sections : Rows String SectionRow
  claims : Rows String ClaimRow
  position : Nat
  seen : List String

/-- The id a section is stored under; `none` skips it with its children. -/
def storedId (st : InsertState) (body : SectionBody) : Option String :=
  if body.id ∈ st.seen then
    let deduped := body.id ++ "-" ++ toString st.position
    if deduped ∈ st.seen then none else some deduped
  else some body.id

/-- The id a claim is stored under: made anew when the section's id was. -/
def storedClaimId (sectionId : String) (deduped : Bool) (claim : Claim) (position : Nat) : String :=
  if deduped then sectionId ++ ":c" ++ toString position else claim.id

/-- The claim rows of one section. -/
def insertClaims (sectionId : String) (deduped : Bool) (claims : Rows String ClaimRow) :
    List (Claim × Nat) → Except StorageError (Rows String ClaimRow)
  | [] => .ok claims
  | (claim, position) :: rest =>
      let claimId := storedClaimId sectionId deduped claim position
      if claimId ∈ claims then
        .error (.database ("failed to insert claim " ++ claimId
          ++ ": UNIQUE constraint failed: claims.id"))
      else
        insertClaims sectionId deduped
          (claims.insert claimId { sectionId, text := claim.text, position }) rest

/-- One section row and its claims. -/
def insertSection (docId sectionId : String) (body : SectionBody) (st : InsertState) :
    Except StorageError InsertState := do
  if sectionId ∈ st.sections then
    .error (.database ("failed to insert section " ++ sectionId
      ++ ": UNIQUE constraint failed: sections.id"))
  else
    let claims ← insertClaims sectionId (sectionId ≠ body.id) st.claims body.claims.zipIdx
    .ok
      { sections := st.sections.insert sectionId
          { documentId := docId, headingPath := body.headingPath, depth := body.depth,
            text := body.text, summary := body.summary, position := st.position }
        claims
        position := st.position + 1
        seen := sectionId :: st.seen }

/-- `insert_sections_recursive`. -/
def insertSections (docId : String) : Sections → InsertState → Except StorageError InsertState
  | .nil, st => .ok st
  | .cons body children rest, st =>
      match storedId st body with
      | none => insertSections docId rest { st with position := st.position + 1 }
      | some sectionId => do
          let st ← insertSection docId sectionId body st
          let st ← insertSections docId children st
          insertSections docId rest st

/-- `insert_document`: drop a document of the same path, then insert. -/
def insertDocument (s : ContentStore) (doc : DocumentTree) : Except StorageError ContentStore :=
  let s := s.deleteDocumentsWhere fun _ row => row.sourcePath = doc.sourcePath
  if doc.id ∈ s.documents then
    .error (.database ("failed to insert document " ++ doc.id
      ++ ": UNIQUE constraint failed: documents.id"))
  else do
    let st ← insertSections doc.id doc.sections
      { sections := s.sections, claims := s.claims, position := 0, seen := [] }
    .ok
      { s with
        documents := s.documents.insert doc.id
          { title := doc.title, sourcePath := doc.sourcePath, summary := doc.summary }
        sections := st.sections
        claims := st.claims }

/-! ## Symbols and their references -/

/-- `delete_symbols_for_file`, with the cascade to references at either end. -/
def deleteSymbolsForFile (s : ContentStore) (path : String) : ContentStore :=
  let gone := fun id => (s.symbols.lookup id).any fun row => row.filePath = path
  { s with
    symbols := s.symbols.deleteWhere fun _ row => row.filePath = path
    symbolRefs := s.symbolRefs.filter fun r => !gone r.fromSymbolId && !gone r.toSymbolId }

/-- One `INSERT OR REPLACE INTO symbols`: a row it replaces takes its references
with it. -/
def putSymbol (s : ContentStore) (record : SymbolRecord) : ContentStore :=
  { s with
    symbols := s.symbols.insert record.id record.toSymbolRow
    symbolRefs :=
      if record.id ∈ s.symbols then
        s.symbolRefs.filter fun r => r.fromSymbolId ≠ record.id ∧ r.toSymbolId ≠ record.id
      else s.symbolRefs }

/-- `insert_symbols`. -/
def insertSymbols (s : ContentStore) (records : List SymbolRecord) : ContentStore :=
  records.foldl putSymbol s

/-- `list_symbols` for a filter, by path and line. -/
def listSymbols (s : ContentStore) (p : SymbolRow → Bool) : List SymbolRecord :=
  ((s.symbols.select fun _ row => p row).map fun e => { e.2 with id := e.1 }).mergeSort
    fun a b => a.filePath < b.filePath ∨ a.filePath = b.filePath ∧ a.lineStart ≤ b.lineStart

/-- `delete_refs_for_file`. -/
def deleteRefsForFile (s : ContentStore) (path : String) : ContentStore :=
  let here := fun id => (s.symbols.lookup id).any fun row => row.filePath = path
  { s with
    symbolRefs := s.symbolRefs.filter fun r => !(here r.fromSymbolId || here r.toSymbolId) }

/-- `insert_symbol_refs` for one reference; a missing end fails the foreign key,
and the callers go on without the row. -/
def insertSymbolRef (s : ContentStore) (r : SymbolRef) : ContentStore :=
  if r.fromSymbolId ∈ s.symbols ∧ r.toSymbolId ∈ s.symbols then
    { s with symbolRefs := insert r s.symbolRefs }
  else s

/-! ## File hashes -/

/-- `get_file_hash`. -/
def getFileHash (s : ContentStore) (path : String) : Option FileHashRow :=
  s.fileHashes.lookup path

/-- `upsert_file_hash`. -/
def upsertFileHash (s : ContentStore) (path : String) (row : FileHashRow) : ContentStore :=
  { s with fileHashes := s.fileHashes.insert path row }

/-- `delete_file_hash`. -/
def deleteFileHash (s : ContentStore) (path : String) : ContentStore :=
  { s with fileHashes := s.fileHashes.erase path }

/-- `clear_file_hashes`. -/
def clearFileHashes (s : ContentStore) : ContentStore := { s with fileHashes := ∅ }

/-! ## What deleting documents leaves -/

section Facts

variable {s t : ContentStore}

theorem deleteDocumentsWhere_documents {p : String → DocumentRow → Bool} {id : String}
    {row : DocumentRow} :
    (s.deleteDocumentsWhere p).documents.lookup id = some row ↔
      s.documents.lookup id = some row ∧ p id row = false := by
  simp [deleteDocumentsWhere, Rows.lookup_deleteWhere, Option.filter_eq_some_iff]

theorem deleteDocumentsWhere_sections {p : String → DocumentRow → Bool} {id : String}
    {row : SectionRow} :
    (s.deleteDocumentsWhere p).sections.lookup id = some row ↔
      s.sections.lookup id = some row ∧ s.hasDocument p row.documentId = false := by
  simp [deleteDocumentsWhere, Rows.lookup_deleteWhere, Option.filter_eq_some_iff]

theorem deleteDocumentsWhere_claims {p : String → DocumentRow → Bool} {id : String}
    {row : ClaimRow} :
    (s.deleteDocumentsWhere p).claims.lookup id = some row ↔
      s.claims.lookup id = some row ∧ s.hasSectionOf p row.sectionId = false := by
  simp [deleteDocumentsWhere, Rows.lookup_deleteWhere, Option.filter_eq_some_iff]

/-- Deleting documents where none matches. -/
theorem deleteDocumentsWhere_eq_self {p : String → DocumentRow → Bool}
    (noMatch : ∀ id row, s.documents.lookup id = some row → p id row = false) :
    s.deleteDocumentsWhere p = s := by
  have noDocument : ∀ id, s.hasDocument p id = false := by
    intro id
    unfold hasDocument
    cases found : s.documents.lookup id with
    | none => rfl
    | some row => exact noMatch id row found
  have noSection : ∀ id, s.hasSectionOf p id = false := by
    intro id
    unfold hasSectionOf
    cases s.sections.lookup id with
    | none => rfl
    | some row => exact noDocument _
  unfold deleteDocumentsWhere
  rw [Rows.deleteWhere_eq_self noMatch, Rows.deleteWhere_eq_self fun _ _ _ => noDocument _,
    Rows.deleteWhere_eq_self fun _ _ _ => noSection _]

/-- Inserting a document writes documents, sections and claims. -/
theorem insertDocument_frame {doc : DocumentTree} (done : s.insertDocument doc = .ok t) :
    t.symbols = s.symbols ∧ t.symbolRefs = s.symbolRefs ∧ t.fileHashes = s.fileHashes := by
  unfold insertDocument at done
  dsimp only at done
  split at done
  · cases done
  · obtain ⟨st, -, done⟩ := bind_eq_ok.mp done
    cases done
    exact ⟨rfl, rfl, rfl⟩

theorem deleteSymbolsForFile_symbols {path id : String} {row : SymbolRow} :
    (s.deleteSymbolsForFile path).symbols.lookup id = some row ↔
      s.symbols.lookup id = some row ∧ row.filePath ≠ path := by
  simp [deleteSymbolsForFile, Rows.lookup_deleteWhere, Option.filter_eq_some_iff]

/-- Deleting the symbols of a path that has none. -/
theorem deleteSymbolsForFile_eq_self {path : String}
    (noMatch : ∀ id row, s.symbols.lookup id = some row → row.filePath ≠ path) :
    s.deleteSymbolsForFile path = s := by
  have gone : ∀ id, ((s.symbols.lookup id).any fun row => row.filePath = path) = false := by
    intro id
    cases found : s.symbols.lookup id with
    | none => rfl
    | some row => simpa using noMatch id row found
  unfold deleteSymbolsForFile
  rw [Rows.deleteWhere_eq_self fun id row found => decide_eq_false (noMatch id row found)]
  simp [gone]

/-- `insert_symbols` leaves the last record of each id, else the old row. -/
theorem insertSymbols_frame (records : List SymbolRecord) :
    ∃ refs, s.insertSymbols records =
      { s with
        symbols := s.symbols.upsertAll (records.map fun r => (r.id, r.toSymbolRow))
        symbolRefs := refs } := by
  induction records generalizing s with
  | nil => exact ⟨s.symbolRefs, rfl⟩
  | cons r records ih =>
      obtain ⟨refs, same⟩ := ih (s := s.putSymbol r)
      exact ⟨refs, same⟩

/-- Rows under ids no reference ends at take no reference with them. -/
theorem insertSymbols_untouched {records : List SymbolRecord}
    (untouched : ∀ e ∈ s.symbolRefs, ∀ r ∈ records, e.fromSymbolId ≠ r.id ∧ e.toSymbolId ≠ r.id) :
    s.insertSymbols records =
      { s with symbols := s.symbols.upsertAll (records.map fun r => (r.id, r.toSymbolRow)) } := by
  induction records generalizing s with
  | nil => rfl
  | cons r records ih =>
      have kept : s.symbolRefs.filter
          (fun e => e.fromSymbolId ≠ r.id ∧ e.toSymbolId ≠ r.id) = s.symbolRefs :=
        Finset.filter_true_of_mem fun e mem => untouched e mem r List.mem_cons_self
      have put : s.putSymbol r = { s with symbols := s.symbols.insert r.id r.toSymbolRow } := by
        simp only [putSymbol, kept, ite_self]
      refine (ih (s := s.putSymbol r) fun e mem r' later => ?_).trans ?_
      · rw [put] at mem
        exact untouched e mem r' (List.mem_cons_of_mem _ later)
      · rw [put]
        rfl

theorem insertSymbolRefs_frame (edges : List SymbolRef) :
    ∃ refs, edges.foldl insertSymbolRef s = { s with symbolRefs := refs } := by
  induction edges generalizing s with
  | nil => exact ⟨s.symbolRefs, rfl⟩
  | cons r edges ih =>
      obtain ⟨refs, same⟩ := ih (s := s.insertSymbolRef r)
      refine ⟨refs, same.trans ?_⟩
      unfold insertSymbolRef
      split <;> rfl

/-- Deleting the references of a path that none touches. -/
theorem deleteRefsForFile_eq_self {path : String}
    (elsewhere : ∀ e ∈ s.symbolRefs, ∀ row, s.symbols.lookup e.fromSymbolId = some row ∨
      s.symbols.lookup e.toSymbolId = some row → row.filePath ≠ path) :
    s.deleteRefsForFile path = s := by
  have kept : s.symbolRefs.filter (fun r =>
      !((s.symbols.lookup r.fromSymbolId).any (fun row => row.filePath = path) ||
        (s.symbols.lookup r.toSymbolId).any fun row => row.filePath = path)) = s.symbolRefs := by
    refine Finset.filter_true_of_mem fun e mem => ?_
    simp only [Bool.not_eq_true', Bool.or_eq_false_iff, Option.any_eq_false, decide_eq_false_iff_not]
    exact ⟨fun row found => elsewhere e mem row (.inl found),
      fun row found => elsewhere e mem row (.inr found)⟩
  unfold deleteRefsForFile
  dsimp only
  rw [kept]

/-- References whose ends are stored all arrive. -/
theorem mem_insertSymbolRefs {edges : List SymbolRef}
    (ends : ∀ e ∈ edges, e.fromSymbolId ∈ s.symbols ∧ e.toSymbolId ∈ s.symbols) {e : SymbolRef} :
    e ∈ (edges.foldl insertSymbolRef s).symbolRefs ↔ e ∈ s.symbolRefs ∨ e ∈ edges := by
  induction edges generalizing s with
  | nil => simp
  | cons e' edges ih =>
      have put : s.insertSymbolRef e' = { s with symbolRefs := insert e' s.symbolRefs } := by
        simp only [insertSymbolRef, if_pos (ends e' List.mem_cons_self)]
      have rest := ih (s := s.insertSymbolRef e') fun e mem => by
        rw [put]
        exact ends e (List.mem_cons_of_mem _ mem)
      rw [List.foldl_cons, rest, put, Finset.mem_insert, List.mem_cons]
      tauto

theorem mem_listSections {docId id : String} {row : SectionRow} :
    (id, row) ∈ s.listSections docId ↔ s.sections.lookup id = some row ∧ row.documentId = docId := by
  simp [listSections, List.mem_mergeSort, Rows.mem_select]

theorem mem_listClaims {sectionId id : String} {row : ClaimRow} :
    (id, row) ∈ s.listClaims sectionId ↔
      s.claims.lookup id = some row ∧ row.sectionId = sectionId := by
  simp [listClaims, List.mem_mergeSort, Rows.mem_select]

theorem mem_listSymbols {p : SymbolRow → Bool} {r : SymbolRecord} :
    r ∈ s.listSymbols p ↔ s.symbols.lookup r.id = some r.toSymbolRow ∧ p r.toSymbolRow = true := by
  simp only [listSymbols, List.mem_mergeSort, List.mem_map, Prod.exists, Rows.mem_select]
  constructor
  · rintro ⟨id, row, found, rfl⟩
    exact found
  · intro found
    exact ⟨r.id, r.toSymbolRow, found, rfl⟩

/-! ## What inserting a document adds -/

/-- Rows of `docId` were added, and no row was changed or dropped. -/
structure Grows (docId : String) (st st' : InsertState) : Prop where
  sections_kept : ∀ id row, st.sections.lookup id = some row → st'.sections.lookup id = some row
  claims_kept : ∀ id row, st.claims.lookup id = some row → st'.claims.lookup id = some row
  sections_new : ∀ id row, st'.sections.lookup id = some row →
    st.sections.lookup id = some row ∨ row.documentId = docId
  claims_new : ∀ id row, st'.claims.lookup id = some row →
    st.claims.lookup id = some row ∨ row.sectionId ∈ st'.sections

theorem Grows.refl (docId : String) (st : InsertState) : Grows docId st st where
  sections_kept := fun _ _ found => found
  claims_kept := fun _ _ found => found
  sections_new := fun _ _ found => .inl found
  claims_new := fun _ _ found => .inl found

theorem Grows.mem_sections {docId : String} {st st' : InsertState} (grows : Grows docId st st')
    {id : String} (mem : id ∈ st.sections) : id ∈ st'.sections :=
  Rows.mem_of_kept (grows.sections_kept id) mem

theorem Grows.mem_claims {docId : String} {st st' : InsertState} (grows : Grows docId st st')
    {id : String} (mem : id ∈ st.claims) : id ∈ st'.claims :=
  Rows.mem_of_kept (grows.claims_kept id) mem

theorem Grows.trans {docId : String} {st st₁ st₂ : InsertState} (first : Grows docId st st₁)
    (second : Grows docId st₁ st₂) : Grows docId st st₂ where
  sections_kept := fun id row found => second.sections_kept id row (first.sections_kept id row found)
  claims_kept := fun id row found => second.claims_kept id row (first.claims_kept id row found)
  sections_new := fun id row found => by
    rcases second.sections_new id row found with found | own
    · exact first.sections_new id row found
    · exact .inr own
  claims_new := fun id row found => by
    rcases second.claims_new id row found with found | own
    · rcases first.claims_new id row found with found | held
      · exact .inl found
      · exact .inr (second.mem_sections held)
    · exact .inr own

/-- The section row of a body under `docId`, with its claim rows. -/
structure SectionStored (docId : String) (sections : Rows String SectionRow)
    (claims : Rows String ClaimRow) (body : SectionBody) : Prop where
  row : ∃ row, sections.lookup body.id = some row ∧ row.documentId = docId
  claimRows : ∀ claim ∈ body.claims, ∃ row, claims.lookup claim.id = some row ∧
    row.sectionId = body.id

theorem SectionStored.mem {docId : String} {sections : Rows String SectionRow}
    {claims : Rows String ClaimRow} {body : SectionBody}
    (stored : SectionStored docId sections claims body) :
    body.id ∈ sections ∧ ∀ claim ∈ body.claims, claim.id ∈ claims := by
  obtain ⟨⟨row, found, -⟩, claimRows⟩ := stored
  refine ⟨(Rows.mem_iff_lookup _ _).mpr ⟨row, found⟩, fun claim mem => ?_⟩
  obtain ⟨claimRow, found, -⟩ := claimRows claim mem
  exact (Rows.mem_iff_lookup _ _).mpr ⟨claimRow, found⟩

theorem Grows.sectionStored {docId : String} {st st' : InsertState} (grows : Grows docId st st')
    {body : SectionBody} (stored : SectionStored docId st.sections st.claims body) :
    SectionStored docId st'.sections st'.claims body := by
  obtain ⟨⟨row, found, own⟩, claimRows⟩ := stored
  refine ⟨⟨row, grows.sections_kept _ _ found, own⟩, fun claim mem => ?_⟩
  obtain ⟨claimRow, found, own⟩ := claimRows claim mem
  exact ⟨claimRow, grows.claims_kept _ _ found, own⟩

theorem lookup_insert_kept {V : Type} {m : Rows String V} {id id' : String} {v w : V}
    (free : id ∉ m) (found : m.lookup id' = some w) : (m.insert id v).lookup id' = some w := by
  have apart : id' ≠ id := fun same => free ((Rows.mem_iff_lookup _ _).mpr ⟨w, same ▸ found⟩)
  rw [Rows.lookup_insert_if, if_neg apart]
  exact found

/-- The claim rows of one section: old rows stay, and the new ones are its own. -/
theorem insertClaims_spec {sectionId : String} {deduped : Bool} {rest : List (Claim × Nat)}
    {claims claims' : Rows String ClaimRow}
    (done : insertClaims sectionId deduped claims rest = .ok claims') :
    (∀ id row, claims.lookup id = some row → claims'.lookup id = some row) ∧
      (∀ id row, claims'.lookup id = some row →
        claims.lookup id = some row ∨ row.sectionId = sectionId) ∧
      (deduped = false → ∀ e ∈ rest, ∃ row, claims'.lookup e.1.id = some row ∧
        row.sectionId = sectionId) := by
  induction rest generalizing claims with
  | nil =>
      cases done
      exact ⟨fun _ _ h => h, fun _ _ h => .inl h, fun _ e mem => absurd mem List.not_mem_nil⟩
  | cons e rest ih =>
      obtain ⟨claim, position⟩ := e
      simp only [insertClaims] at done
      split at done
      · cases done
      · rename_i free
        obtain ⟨kept, new, stored⟩ := ih done
        refine ⟨fun id row found => kept id row (lookup_insert_kept free found), ?_, ?_⟩
        · intro id row found
          rcases new id row found with found | own
          · rw [Rows.lookup_insert_if] at found
            split at found
            · cases found
              exact .inr rfl
            · exact .inl found
          · exact .inr own
        · intro plain e mem
          rcases List.mem_cons.mp mem with rfl | mem
          · have row := kept claim.id { sectionId, text := claim.text, position }
              (by rw [Rows.lookup_insert_if, if_pos (by simp [storedClaimId, plain])])
            exact ⟨_, row, rfl⟩
          · exact stored plain e mem

/-- One section row: under its own id, the row is there with its claims. -/
theorem insertSection_spec {docId sectionId : String} {body : SectionBody} {st st' : InsertState}
    (done : insertSection docId sectionId body st = .ok st') :
    Grows docId st st' ∧ st'.seen = sectionId :: st.seen ∧
      (sectionId = body.id → SectionStored docId st'.sections st'.claims body) := by
  simp only [insertSection] at done
  split at done
  · cases done
  · rename_i free
    obtain ⟨claims, inserted, done⟩ := bind_eq_ok.mp done
    cases done
    obtain ⟨kept, new, stored⟩ := insertClaims_spec inserted
    have held : sectionId ∈ st.sections.insert sectionId
        { documentId := docId, headingPath := body.headingPath, depth := body.depth,
          text := body.text, summary := body.summary, position := st.position } :=
      AList.mem_insert _ |>.mpr (.inl rfl)
    refine ⟨⟨fun id row found => lookup_insert_kept free found, kept, ?_, ?_⟩, rfl, ?_⟩
    · intro id row found
      rw [Rows.lookup_insert_if] at found
      split at found
      · cases found
        exact .inr rfl
      · exact .inl found
    · intro id row found
      rcases new id row found with found | own
      · exact .inl found
      · exact .inr (own ▸ held)
    · intro same
      refine ⟨⟨_, by rw [Rows.lookup_insert_if, if_pos same.symm], rfl⟩, fun claim mem => ?_⟩
      obtain ⟨i, bound, rfl⟩ := List.mem_iff_getElem.mp mem
      rw [← same]
      refine stored (by simp [same]) (body.claims[i], i) ?_
      rw [List.mem_zipIdx_iff_getElem?]
      simp

theorem insertSections_grows {docId : String} {sections : Sections} {st st' : InsertState}
    (done : insertSections docId sections st = .ok st') : Grows docId st st' := by
  induction sections generalizing st st' with
  | nil =>
      cases done
      exact Grows.refl docId st
  | cons body children rest ihChildren ihRest =>
      simp only [insertSections] at done
      split at done
      · have skipped : Grows docId st { st with position := st.position + 1 } := by
          exact ⟨fun _ _ h => h, fun _ _ h => h, fun _ _ h => .inl h, fun _ _ h => .inl h⟩
        exact skipped.trans (ihRest done)
      · obtain ⟨st₁, first, done⟩ := bind_eq_ok.mp done
        obtain ⟨st₂, second, done⟩ := bind_eq_ok.mp done
        exact ((insertSection_spec first).1.trans (ihChildren second)).trans (ihRest done)

/-- With distinct ids no section is renamed or skipped: each one has its row, and
its claims have theirs. -/
theorem insertSections_stored {docId : String} {sections : Sections} {st st' : InsertState}
    (done : insertSections docId sections st = .ok st') (distinct : sections.ids.Nodup)
    (fresh : ∀ id ∈ sections.ids, id ∉ st.seen) :
    (∀ id, id ∈ st'.seen ↔ id ∈ sections.ids ∨ id ∈ st.seen) ∧
      ∀ body ∈ sections.bodies, SectionStored docId st'.sections st'.claims body := by
  induction sections generalizing st st' with
  | nil =>
      cases done
      simp [Sections.ids, Sections.bodies]
  | cons body children rest ihChildren ihRest =>
      have split : (Sections.cons body children rest).ids =
          body.id :: (children.ids ++ rest.ids) := by
        simp [Sections.ids, Sections.bodies]
      rw [split, List.nodup_cons, List.nodup_append] at distinct
      obtain ⟨own, distinctChildren, distinctRest, apart⟩ := distinct
      rw [split] at fresh ⊢
      have named : storedId st body = some body.id := by
        simp [storedId, fresh body.id List.mem_cons_self]
      simp only [insertSections, named] at done
      obtain ⟨st₁, first, done⟩ := bind_eq_ok.mp done
      obtain ⟨st₂, second, done⟩ := bind_eq_ok.mp done
      obtain ⟨-, seen₁, held⟩ := insertSection_spec first
      have freshChildren : ∀ id ∈ children.ids, id ∉ st₁.seen := by
        intro id mem taken
        rw [seen₁, List.mem_cons] at taken
        rcases taken with rfl | taken
        · exact own (List.mem_append_left _ mem)
        · exact fresh id (List.mem_cons_of_mem _ (List.mem_append_left _ mem)) taken
      obtain ⟨seen₂, storedChildren⟩ := ihChildren second distinctChildren freshChildren
      have freshRest : ∀ id ∈ rest.ids, id ∉ st₂.seen := by
        intro id mem taken
        rcases (seen₂ id).mp taken with inner | taken
        · exact apart id inner id mem rfl
        rw [seen₁, List.mem_cons] at taken
        rcases taken with rfl | taken
        · exact own (List.mem_append_right _ mem)
        · exact fresh id (List.mem_cons_of_mem _ (List.mem_append_right _ mem)) taken
      obtain ⟨seen₃, storedRest⟩ := ihRest done distinctRest freshRest
      have later := (insertSections_grows second).trans (insertSections_grows done)
      have last := insertSections_grows done
      refine ⟨?_, ?_⟩
      · intro id
        rw [seen₃, seen₂, seen₁]
        simp only [List.mem_cons, List.mem_append]
        tauto
      · intro b mem
        simp only [Sections.bodies, List.mem_cons, List.mem_append] at mem
        rcases mem with rfl | mem | mem
        · exact later.sectionStored (held rfl)
        · exact last.sectionStored (storedChildren b mem)
        · exact storedRest b mem

end Facts

end ContentStore

end Ministr.Content
