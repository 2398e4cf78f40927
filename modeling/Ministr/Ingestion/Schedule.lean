/-
# Ingestion.Schedule — the symbol graph and the order in which the workers finish

The parse workers complete their files in any order.  Each file stores its symbols and
resolves its references against what is stored by then; a reference that finds nothing
waits for the end of the run.  `symbolGraph` is what such a run leaves in `symbol_refs`,
and `completeGraph` what `disambiguate_target` would choose with all files stored.

A reference that finds one candidate takes it, and later candidates are never compared with
it.  So the order shows as soon as the candidates of a reference are spread over files and
the one it should take is in another file; `Unrivalled` corpora have no such reference, and
nothing else makes the graph depend on the order.
-/
import Ministr.Ingestion.SymbolGraph
import Ministr.Theory.StableSort
import Ministr.Theory.Bytes

namespace Ministr.Ingestion

open Ministr.Theory Ministr.Content

set_option autoImplicit false

/-! ## Files and runs -/

/-- A code file as the parse stage sees it. -/
structure CodeFile where
  path : String
  extraction : Extraction
  deriving DecidableEq, Repr

namespace CodeFile

def records (f : CodeFile) : List SymbolRecord := f.extraction.records f.path

/-- The rows of its symbols, in the order of the inserts. -/
def rows (f : CodeFile) : List (String × SymbolRow) := f.records.map fun r => (r.id, r.toSymbolRow)

/-- Two files of a corpus: other paths, and no symbol id in common. -/
structure Apart (f g : CodeFile) : Prop where
  paths : f.path ≠ g.path
  ids : ∀ r ∈ f.records, ∀ r' ∈ g.records, r.id ≠ r'.id

instance : Std.Symm Apart where
  symm _ _ apart :=
    ⟨apart.paths.symm, fun r mem r' mem' same => apart.ids r' mem' r mem same.symm⟩

theorem eq_of_path {files : List CodeFile} (apart : files.Pairwise Apart) {f g : CodeFile}
    (mem : f ∈ files) (mem' : g ∈ files) (same : f.path = g.path) : f = g := by
  by_contra other
  exact (apart.forall mem mem' other).paths same

theorem eq_of_id {files : List CodeFile} (apart : files.Pairwise Apart) {f g : CodeFile}
    (mem : f ∈ files) (mem' : g ∈ files) {r r' : SymbolRecord} (own : r ∈ f.records)
    (own' : r' ∈ g.records) (same : r.id = r'.id) : f = g := by
  by_contra other
  exact (apart.forall mem mem' other).ids r own r' own' same

/-- A symbol id starts with the path of its file. -/
theorem id_toList {f : CodeFile} {r : SymbolRecord} (mem : r ∈ f.records) :
    ∃ rest, r.id.toList = "sym-".toList ++ (f.path.toList ++ ':' :: rest) := by
  obtain ⟨path, extraction⟩ := f
  cases extraction with
  | unsupported => cases mem
  | tree symbols refs =>
      obtain ⟨sym, -, rfl⟩ := List.mem_map.mp mem
      simp only [symbolRecord, symbolId]
      split <;> simp
  | lexed symbols =>
      obtain ⟨sym, -, rfl⟩ := List.mem_map.mp mem
      simp only [makeRecord]
      split <;> simp

/-- Files whose paths have no colon in them share no id. -/
theorem apart_of_paths {f g : CodeFile} (other : f.path ≠ g.path) (free : ':' ∉ f.path.toList)
    (free' : ':' ∉ g.path.toList) : f.Apart g := by
  refine ⟨other, fun r mem r' mem' same => other ?_⟩
  obtain ⟨rest, starts⟩ := id_toList mem
  obtain ⟨rest', starts'⟩ := id_toList mem'
  have texts : f.path.toList ++ ':' :: rest = g.path.toList ++ ':' :: rest' :=
    List.append_cancel_left (by rw [← starts, ← starts', same])
  exact String.toList_injective (append_cons_inj free free' texts).1

end CodeFile

section Run

variable (languageOf : LanguageOf) (graph : Option PackageGraph)

/-- A worker completes a file: its symbols, its references, and what is left pending. -/
def completeFile (st : ContentStore × List PendingRef) (f : CodeFile) :
    ContentStore × List PendingRef :=
  let (s, result) := extractCodeSymbols languageOf graph st.1 f.path f.extraction
  (s, st.2 ++ result.pendingRefs)

/-- `run_parse_stage` on a fresh store, over the files in the order of their completion. -/
def runParseStage (order : List CodeFile) : ContentStore × List PendingRef :=
  order.foldl (completeFile languageOf graph) (ContentStore.empty, [])

/-- The references stored when the run is over. -/
def symbolGraph (order : List CodeFile) : Finset SymbolRef :=
  let (s, pending) := runParseStage languageOf graph order
  (resolvePendingRefs languageOf graph s pending).1.symbolRefs

end Run

/-! ## The symbols of a set of files -/

/-- The symbol table after the files were stored in this order. -/
def table (files : List CodeFile) : Rows String SymbolRow :=
  files.foldl (fun t f => t.upsertAll f.rows) ∅

/-- The rows of a table as records. -/
def storedRecords (t : Rows String SymbolRow) : List SymbolRecord :=
  t.entries.map fun e => { e.2 with id := e.1 }

/-- What a file alone leaves in the table: an id given twice has its last row. -/
def CodeFile.stored (f : CodeFile) : List SymbolRecord := storedRecords (Rows.upsertAll ∅ f.rows)

theorem mem_storedRecords {t : Rows String SymbolRow} {r : SymbolRecord} :
    r ∈ storedRecords t ↔ t.lookup r.id = some r.toSymbolRow := by
  simp only [storedRecords, List.mem_map, ← Rows.mem_entries_iff]
  constructor
  · rintro ⟨e, mem, rfl⟩
    exact mem
  · exact fun mem => ⟨_, mem, rfl⟩

theorem nodup_storedRecords (t : Rows String SymbolRow) : (storedRecords t).Nodup := by
  refine List.Nodup.of_map SymbolRecord.id ?_
  rw [storedRecords, List.map_map]
  exact t.nodupKeys

theorem CodeFile.mem_records_of_stored {f : CodeFile} {r : SymbolRecord} (mem : r ∈ f.stored) :
    r ∈ f.records := by
  have found := mem_storedRecords.mp mem
  rw [Rows.lookup_upsertAll, Option.or_eq_some_iff] at found
  have listed := mem_of_lastOf (found.resolve_right fun missing => by simp at missing)
  obtain ⟨⟨row, id⟩, mem, same⟩ := List.mem_map.mp listed
  cases same
  exact mem

theorem CodeFile.stored_filePath {f : CodeFile} {r : SymbolRecord} (mem : r ∈ f.stored) :
    r.filePath = f.path :=
  Extraction.records_filePath (mem_records_of_stored mem)

theorem table_concat (files : List CodeFile) (f : CodeFile) :
    table (files ++ [f]) = (table files).upsertAll f.rows := by
  simp [table]

theorem mem_table {files : List CodeFile} {id : String} :
    id ∈ table files ↔ ∃ f ∈ files, ∃ r ∈ f.records, r.id = id := by
  induction files using List.reverseRecOn with
  | nil => simp [table]
  | append_singleton files f ih =>
      rw [table_concat, Rows.mem_upsertAll, ih]
      simp only [List.mem_append, List.mem_singleton, or_and_right, exists_or, exists_eq_left,
        CodeFile.rows, List.mem_map, exists_exists_and_eq_and]

/-- No file has a symbol of another one. -/
theorem fresh_of_apart {files : List CodeFile} {f : CodeFile}
    (apart : (files ++ [f]).Pairwise CodeFile.Apart) : ∀ r ∈ f.records, r.id ∉ table files := by
  intro r mem stored
  obtain ⟨g, listed, r', mem', same⟩ := mem_table.mp stored
  have others := (List.pairwise_append.mp apart).2.2 g listed f (List.mem_singleton_self f)
  exact others.ids r' mem' r mem same

/-- The table holds the rows of each file in one piece. -/
theorem storedRecords_table {files : List CodeFile} (apart : files.Pairwise CodeFile.Apart) :
    storedRecords (table files) = files.reverse.flatMap CodeFile.stored := by
  induction files using List.reverseRecOn with
  | nil => rfl
  | append_singleton files f ih =>
      have fresh : ∀ e ∈ f.rows, e.1 ∉ table files := by
        intro e mem
        obtain ⟨r, listed, rfl⟩ := List.mem_map.mp mem
        exact fresh_of_apart apart r listed
      rw [table_concat, storedRecords, Rows.entries_upsertAll fresh, List.map_append,
        List.reverse_append, List.flatMap_append, ← ih (List.pairwise_append.mp apart).1]
      simp [CodeFile.stored, storedRecords]

theorem mem_storedRecords_table {files : List CodeFile} (apart : files.Pairwise CodeFile.Apart)
    {r : SymbolRecord} : r ∈ storedRecords (table files) ↔ ∃ f ∈ files, r ∈ f.stored := by
  rw [storedRecords_table apart]
  simp [List.mem_flatMap]

/-- The rows of one path are those of its file. -/
theorem filter_storedRecords_table {files : List CodeFile} (apart : files.Pairwise CodeFile.Apart)
    {f : CodeFile} (mem : f ∈ files) :
    (storedRecords (table files)).filter (fun r => r.filePath = f.path) = f.stored := by
  obtain ⟨before, after, rfl⟩ := List.append_of_mem mem
  have elsewhere : ∀ files : List CodeFile, (∀ g ∈ files, g.path ≠ f.path) →
      (files.reverse.flatMap CodeFile.stored).filter (fun r => r.filePath = f.path) = [] := by
    intro files other
    refine List.filter_eq_nil_iff.mpr fun r listed => ?_
    obtain ⟨g, mem, stored⟩ := List.mem_flatMap.mp listed
    simpa [CodeFile.stored_filePath stored] using other g (List.mem_reverse.mp mem)
  have own : f.stored.filter (fun r => r.filePath = f.path) = f.stored :=
    List.filter_eq_self.mpr fun r stored => decide_eq_true (CodeFile.stored_filePath stored)
  obtain ⟨-, tail, cross⟩ := List.pairwise_append.mp apart
  rw [storedRecords_table apart, List.reverse_append, List.reverse_cons, List.append_assoc,
    List.flatMap_append, List.flatMap_append, List.filter_append, List.filter_append,
    elsewhere after fun g listed => ((List.pairwise_cons.mp tail).1 g listed).paths.symm,
    elsewhere before fun g listed => (cross g listed f List.mem_cons_self).paths]
  simp [own]

/-! ## The candidates of a reference -/

/-- A store with these files. -/
def storeOf (files : List CodeFile) : ContentStore :=
  { ContentStore.empty with symbols := table files }

/-- The order of `list_symbols`. -/
def lineOrder (a b : SymbolRecord) : Bool :=
  a.filePath < b.filePath ∨ a.filePath = b.filePath ∧ a.lineStart ≤ b.lineStart

theorem lineOrder_trans (a b c : SymbolRecord) (ab : lineOrder a b) (bc : lineOrder b c) :
    lineOrder a c := by
  simp only [lineOrder, decide_eq_true_eq] at ab bc ⊢
  rcases ab with less | ⟨same, before⟩
  · rcases bc with less' | ⟨same', -⟩
    · exact .inl (String.lt_trans less less')
    · exact .inl (same' ▸ less)
  · rcases bc with less' | ⟨same', before'⟩
    · exact .inl (same ▸ less')
    · exact .inr ⟨same.trans same', before.trans before'⟩

theorem lineOrder_total (a b : SymbolRecord) : lineOrder a b || lineOrder b a := by
  simp only [lineOrder, Bool.or_eq_true, decide_eq_true_eq]
  by_cases less : a.filePath < b.filePath
  · exact .inl (.inl less)
  by_cases more : b.filePath < a.filePath
  · exact .inr (.inl more)
  have same : a.filePath = b.filePath :=
    String.le_antisymm (String.not_lt.mp more) (String.not_lt.mp less)
  rcases Nat.le_total a.lineStart b.lineStart with before | before
  · exact .inl (.inr ⟨same, before⟩)
  · exact .inr (.inr ⟨same.symm, before⟩)

theorem filePath_eq_of_lineOrder (a b : SymbolRecord) (ab : lineOrder a b) (ba : lineOrder b a) :
    a.filePath = b.filePath := by
  simp only [lineOrder, decide_eq_true_eq] at ab ba
  rcases ab with less | ⟨same, -⟩
  · rcases ba with less' | ⟨same, -⟩
    · exact absurd less' (String.lt_asymm less)
    · exact same.symm
  · exact same

theorem listSymbols_eq (s : ContentStore) (p : SymbolRow → Bool) :
    s.listSymbols p =
      ((storedRecords s.symbols).filter fun r => p r.toSymbolRow).mergeSort lineOrder := by
  unfold ContentStore.listSymbols Rows.select storedRecords
  rw [List.filter_map, List.map_map]
  rfl

section Candidates

variable {languageOf : LanguageOf} {path name : String} {few many : List CodeFile}

theorem nodup_candidates (s : ContentStore) : (candidates languageOf s path name).Nodup := by
  unfold candidates
  rw [listSymbols_eq]
  exact (((List.mergeSort_perm _ _).nodup_iff.mpr
    ((nodup_storedRecords _).filter _)).filter _).filter _

theorem mem_candidates_storeOf {files : List CodeFile} (apart : files.Pairwise CodeFile.Apart)
    {r : SymbolRecord} : r ∈ candidates languageOf (storeOf files) path name ↔
      (∃ f ∈ files, r ∈ f.stored) ∧ isCandidate languageOf path name r.toSymbolRow = true := by
  rw [mem_candidates, ← mem_storedRecords_table apart, mem_storedRecords]
  rfl

/-- Fewer files list fewer candidates, in the same order. -/
theorem candidates_sublist (within : few ⊆ many) (apart : few.Pairwise CodeFile.Apart)
    (apart' : many.Pairwise CodeFile.Apart) :
    (candidates languageOf (storeOf few) path name).Sublist
      (candidates languageOf (storeOf many) path name) := by
  unfold candidates
  refine List.Sublist.filter _ (List.Sublist.filter _ ?_)
  rw [listSymbols_eq, listSymbols_eq]
  refine mergeSort_sublist_of_blocks lineOrder_trans lineOrder_total
    (fun r : SymbolRecord => r.filePath) filePath_eq_of_lineOrder
    ((nodup_storedRecords _).filter _) ((nodup_storedRecords _).filter _) fun key => ?_
  rw [List.filter_comm, List.filter_comm _ _ (storedRecords (storeOf many).symbols)]
  refine List.Sublist.filter _ ?_
  by_cases known : ∃ f ∈ few, f.path = key
  · obtain ⟨f, mem, rfl⟩ := known
    show ((storedRecords (table few)).filter _).Sublist ((storedRecords (table many)).filter _)
    rw [filter_storedRecords_table apart mem, filter_storedRecords_table apart' (within mem)]
  · have none : (storedRecords (storeOf few).symbols).filter (fun r => r.filePath = key) = [] := by
      refine List.filter_eq_nil_iff.mpr fun r mem => ?_
      obtain ⟨f, listed, stored⟩ := (mem_storedRecords_table apart).mp mem
      simpa [CodeFile.stored_filePath stored] using fun same => known ⟨f, listed, same⟩
    rw [none]
    exact List.nil_sublist _

/-- A candidate whose file is there is one. -/
theorem mem_candidates_of_visible (within : few ⊆ many) (apart : few.Pairwise CodeFile.Apart)
    (apart' : many.Pairwise CodeFile.Apart) {r : SymbolRecord}
    (mem : r ∈ candidates languageOf (storeOf many) path name) {g : CodeFile} (visible : g ∈ few)
    (here : r.filePath = g.path) : r ∈ candidates languageOf (storeOf few) path name := by
  obtain ⟨⟨g', listed, stored⟩, named⟩ := (mem_candidates_storeOf apart').mp mem
  have same : g' = g := CodeFile.eq_of_path apart' listed (within visible)
    ((CodeFile.stored_filePath stored).symm.trans here)
  exact (mem_candidates_storeOf apart).mpr ⟨⟨g, visible, same ▸ stored⟩, named⟩

end Candidates

/-! ## The preferred candidates -/

section Preferred

variable (graph : Option PackageGraph) (path : String) (targetCrate : Option String)

/-- The candidates `disambiguate_target` compares: those of the crate the reference names, or
else those of the package of the file, or else all. -/
def preferred (primary : List SymbolRecord) : List SymbolRecord :=
  let crate := crateFiltered graph targetCrate primary
  let package := samePkg graph path primary
  if crate.isEmpty then if package.isEmpty then primary else package else crate

theorem crateFiltered_eq_filter :
    ∃ p, ∀ primary, crateFiltered graph targetCrate primary = primary.filter p := by
  unfold crateFiltered
  cases targetCrate with
  | none => exact ⟨fun _ => false, by simp⟩
  | some tc =>
      cases graph with
      | none => exact ⟨fun _ => false, by simp⟩
      | some g =>
          dsimp only
          cases g.dirPrefixForCrate tc with
          | none => exact ⟨fun _ => false, by simp⟩
          | some dir => exact ⟨_, fun _ => rfl⟩

theorem samePkg_eq_filter : ∃ p, ∀ primary, samePkg graph path primary = primary.filter p := by
  unfold samePkg
  cases graph.bind fun g => (g.packageForFile path).bind g.dirPrefixForCrate with
  | none => exact ⟨fun _ => false, by simp⟩
  | some dir => exact ⟨_, fun _ => rfl⟩

theorem preferCrossFile_singleton (only : SymbolRecord) :
    preferCrossFile path [only] = some only := by
  unfold preferCrossFile
  by_cases here : only.filePath = path <;> simp [here]

theorem preferred_singleton (only : SymbolRecord) :
    preferred graph path targetCrate [only] = [only] := by
  obtain ⟨p, crate⟩ := crateFiltered_eq_filter graph targetCrate
  obtain ⟨q, package⟩ := samePkg_eq_filter graph path
  have one : ∀ p : SymbolRecord → Bool, [only].filter p = [] ∨ [only].filter p = [only] := by
    intro p
    by_cases holds : p only = true <;> simp [holds]
  simp only [preferred, crate, package]
  rcases one p with none | all <;> rcases one q with none' | all' <;> simp [*]

/-- `disambiguate_target`, whose cases for one candidate agree with the general one. -/
theorem disambiguateTarget_eq (primary : List SymbolRecord) :
    disambiguateTarget primary path targetCrate graph =
      preferCrossFile path (preferred graph path targetCrate primary) := by
  rcases primary with _ | ⟨first, _ | ⟨second, rest⟩⟩
  · obtain ⟨p, crate⟩ := crateFiltered_eq_filter graph targetCrate
    obtain ⟨q, package⟩ := samePkg_eq_filter graph path
    simp [preferred, crate, package, disambiguateTarget, preferCrossFile]
  · rw [preferred_singleton, preferCrossFile_singleton]
    rfl
  · simp only [disambiguateTarget, preferred]
    split
    · split <;> rfl
    · split
      · rename_i one
        obtain ⟨only, same⟩ := List.length_eq_one_iff.mp one
        rw [same, preferCrossFile_singleton]
        rfl
      · rfl

theorem preferCrossFile_own {records : List SymbolRecord} (own : ∀ r ∈ records, r.filePath = path) :
    preferCrossFile path records = records.head? := by
  have none : records.find? (fun s => s.filePath ≠ path) = none := by
    simpa [List.find?_eq_none] using own
  simp only [preferCrossFile, none, Option.orElse_eq_orElse, Option.orElse_eq_or, Option.none_or]

theorem mem_of_preferCrossFile {records : List SymbolRecord} {d : SymbolRecord}
    (taken : preferCrossFile path records = some d) : d ∈ records := by
  simp only [preferCrossFile, Option.orElse_eq_orElse, Option.orElse_eq_or,
    Option.or_eq_some_iff] at taken
  rcases taken with other | ⟨-, first⟩
  · exact List.mem_of_find?_eq_some other
  · exact List.mem_of_mem_head? first

theorem preferCrossFile_cross {records : List SymbolRecord}
    (cross : ∃ r ∈ records, r.filePath ≠ path) :
    ∃ d : SymbolRecord, d.filePath ≠ path ∧ preferCrossFile path records = some d := by
  obtain ⟨r, mem, other⟩ := cross
  have some_other : (records.find? fun s => s.filePath ≠ path).isSome :=
    List.find?_isSome.mpr ⟨r, mem, decide_eq_true other⟩
  obtain ⟨d, found⟩ := Option.isSome_iff_exists.mp some_other
  have outside := List.find?_some found
  refine ⟨d, by simpa using outside, ?_⟩
  simp only [preferCrossFile, found, Option.orElse_eq_orElse, Option.orElse_eq_or, Option.some_or]

theorem preferred_sublist_self (primary : List SymbolRecord) :
    (preferred graph path targetCrate primary).Sublist primary := by
  obtain ⟨p, crate⟩ := crateFiltered_eq_filter graph targetCrate
  obtain ⟨q, package⟩ := samePkg_eq_filter graph path
  simp only [preferred, crate, package]
  split
  · split
    · exact List.Sublist.refl _
    · exact List.filter_sublist
  · exact List.filter_sublist

/-- A preferred candidate is preferred among fewer, and its rivals are too. -/
theorem preferred_sublist {few many : List SymbolRecord} (fewer : few.Sublist many)
    {d : SymbolRecord} (mem : d ∈ few) (taken : d ∈ preferred graph path targetCrate many) :
    d ∈ preferred graph path targetCrate few ∧
      (preferred graph path targetCrate few).Sublist (preferred graph path targetCrate many) := by
  obtain ⟨p, crate⟩ := crateFiltered_eq_filter graph targetCrate
  obtain ⟨q, package⟩ := samePkg_eq_filter graph path
  have emptied : ∀ p : SymbolRecord → Bool, many.filter p = [] → few.filter p = [] :=
    fun p empty => List.sublist_nil.mp (empty ▸ fewer.filter p)
  have filled : ∀ p : SymbolRecord → Bool, d ∈ many.filter p → d ∈ few.filter p :=
    fun p listed => List.mem_filter.mpr ⟨mem, (List.mem_filter.mp listed).2⟩
  simp only [preferred, crate, package, List.isEmpty_iff] at taken ⊢
  by_cases noCrate : many.filter p = []
  · simp only [noCrate, emptied p noCrate, if_true] at taken ⊢
    by_cases noPackage : many.filter q = []
    · simp only [noPackage, emptied q noPackage, if_true]
      exact ⟨mem, fewer⟩
    · simp only [noPackage, if_false] at taken ⊢
      rw [if_neg (List.ne_nil_of_mem (filled q taken))]
      exact ⟨filled q taken, fewer.filter q⟩
  · simp only [noCrate, if_false] at taken ⊢
    rw [if_neg (List.ne_nil_of_mem (filled p taken))]
    exact ⟨filled p taken, fewer.filter p⟩

/-- A choice in the file of the reference is made among fewer candidates too. -/
theorem disambiguateTarget_of_sublist {few many : List SymbolRecord} (fewer : few.Sublist many)
    (distinct : many.Nodup) {d : SymbolRecord} (mem : d ∈ few)
    (own : ∀ r ∈ preferred graph path targetCrate many, r.filePath = path)
    (chosen : disambiguateTarget many path targetCrate graph = some d) :
    disambiguateTarget few path targetCrate graph = some d := by
  rw [disambiguateTarget_eq, preferCrossFile_own path own] at chosen
  obtain ⟨rivals, is⟩ := List.head?_eq_some_iff.mp chosen
  obtain ⟨taken, sub⟩ := preferred_sublist graph path targetCrate fewer mem
    (List.mem_of_mem_head? chosen)
  rw [disambiguateTarget_eq, preferCrossFile_own path fun r listed => own r (sub.subset listed)]
  have first := (distinct.sublist (preferred_sublist_self graph path targetCrate many))
  rw [is] at sub first
  cases kept : preferred graph path targetCrate few with
  | nil => rw [kept] at taken; cases taken
  | cons r rest =>
      rw [kept] at sub taken
      cases sub with
      | cons _ within => exact absurd (within.subset taken) (List.nodup_cons.mp first).1
      | cons_cons _ within => rfl

end Preferred

/-! ## What a run stores -/

section Runs

variable (languageOf : LanguageOf) (graph : Option PackageGraph)

/-- The symbol a reference of `f` takes when `files` are stored. -/
def chosenIn (files : List CodeFile) (f : CodeFile) (raw : RawRef) : Option SymbolRecord :=
  target languageOf graph (storeOf files) f.path raw.targetName raw.targetCrate

/-- The edge of a reference with this choice. -/
def edgeOf (f : CodeFile) (raw : RawRef) (chosen : Option SymbolRecord) : Option SymbolRef :=
  (fromId f.records raw).bind fun source =>
    chosen.bind fun d => if source = d.id then none else some (raw.edgeTo source d)

/-- What the references would be if every one were resolved with all files stored. -/
def completeGraph (files : List CodeFile) : Finset SymbolRef :=
  (files.flatMap fun f => f.extraction.rawRefs.filterMap fun raw =>
    edgeOf f raw (chosenIn languageOf graph files f raw)).toFinset

variable {languageOf graph}

theorem edgeOf_eq_some {f : CodeFile} {raw : RawRef} {chosen : Option SymbolRecord}
    {e : SymbolRef} : edgeOf f raw chosen = some e ↔ ∃ source d, fromId f.records raw = some source ∧
      chosen = some d ∧ source ≠ d.id ∧ e = raw.edgeTo source d := by
  simp only [edgeOf, Option.bind_eq_some_iff, Option.ite_none_left_eq_some, Option.some.injEq]
  constructor
  · rintro ⟨source, starts, d, found, other, rfl⟩
    exact ⟨source, d, starts, found, other, rfl⟩
  · rintro ⟨source, d, starts, found, other, rfl⟩
    exact ⟨source, starts, d, found, other, rfl⟩

theorem mem_completeGraph {files : List CodeFile} {e : SymbolRef} :
    e ∈ completeGraph languageOf graph files ↔ ∃ f ∈ files, ∃ raw ∈ f.extraction.rawRefs,
      edgeOf f raw (chosenIn languageOf graph files f raw) = some e := by
  simp [completeGraph, List.mem_flatMap, List.mem_filterMap]

variable (languageOf graph) in
/-- The tables and the pending references after the files of `done`: every reference was
resolved with the files completed before its own. -/
structure FilesDone (done : List CodeFile) (st : ContentStore × List PendingRef) : Prop where
  symbols : st.1.symbols = table done
  closed : Closed st.1
  refs : ∀ e, e ∈ st.1.symbolRefs ↔ ∃ before f, before ++ [f] <+: done ∧
    ∃ raw ∈ f.extraction.rawRefs,
      edgeOf f raw (chosenIn languageOf graph (before ++ [f]) f raw) = some e
  pending : ∀ pr, pr ∈ st.2 ↔ ∃ before f, before ++ [f] <+: done ∧
    ∃ raw ∈ f.extraction.rawRefs, ∃ source, fromId f.records raw = some source ∧
      chosenIn languageOf graph (before ++ [f]) f raw = none ∧ pr = raw.pendingAt f.path source

theorem chosenIn_eq {s : ContentStore} {files : List CodeFile} (same : s.symbols = table files)
    (f : CodeFile) (raw : RawRef) :
    target languageOf graph s f.path raw.targetName raw.targetCrate =
      chosenIn languageOf graph files f raw :=
  target_congr same

theorem exists_prefix_concat {done : List CodeFile} {f : CodeFile}
    {P : List CodeFile → CodeFile → Prop} :
    (∃ before g, before ++ [g] <+: done ++ [f] ∧ P before g) ↔
      (∃ before g, before ++ [g] <+: done ∧ P before g) ∨ P done f := by
  constructor
  · rintro ⟨before, g, within, holds⟩
    rcases List.prefix_concat_iff.mp within with whole | earlier
    · obtain ⟨rfl, same⟩ := List.append_inj' whole rfl
      cases same
      exact .inr holds
    · exact .inl ⟨before, g, earlier, holds⟩
  · rintro (⟨before, g, within, holds⟩ | holds)
    · exact ⟨before, g, within.trans (List.prefix_append _ _), holds⟩
    · exact ⟨done, f, List.prefix_refl _, holds⟩

/-- One more file. -/
theorem FilesDone.step {done : List CodeFile} {st : ContentStore × List PendingRef}
    (filesDone : FilesDone languageOf graph done st) {f : CodeFile}
    (apart : (done ++ [f]).Pairwise CodeFile.Apart) :
    FilesDone languageOf graph (done ++ [f]) (completeFile languageOf graph st f) := by
  have vacant : Vacant st.1 f.path := by
    intro id row found here
    rw [filesDone.symbols] at found
    obtain ⟨g, listed, stored⟩ := (mem_storedRecords_table (List.pairwise_append.mp apart).1).mp
      (mem_storedRecords (r := { row with id }).mpr found)
    exact ((List.pairwise_append.mp apart).2.2 g listed f (List.mem_singleton_self f)).paths
      ((CodeFile.stored_filePath stored).symm.trans here)
  have fresh : ∀ r ∈ f.extraction.records f.path, r.id ∉ st.1.symbols := by
    rw [filesDone.symbols]
    exact fresh_of_apart apart
  obtain ⟨symbols, refs, pending⟩ :=
    extractCodeSymbols_rows languageOf graph filesDone.closed vacant fresh
  have now : (completeFile languageOf graph st f).1.symbols = table (done ++ [f]) := by
    rw [table_concat, ← filesDone.symbols]
    exact symbols
  refine { symbols := now, closed := fun e mem => ?_, refs := fun e => ?_, pending := fun pr => ?_ }
  · have grows : ∀ id ∈ st.1.symbols, id ∈ (completeFile languageOf graph st f).1.symbols := by
      intro id mem
      rw [show (completeFile languageOf graph st f).1.symbols = _ from symbols]
      exact Rows.mem_upsertAll.mpr (.inl mem)
    rcases (refs e).mp mem with old | ⟨raw, -, source, d, starts, found, -, rfl⟩
    · exact ⟨grows _ (filesDone.closed e old).1, grows _ (filesDone.closed e old).2⟩
    · refine ⟨?_, (target_eq_some found).1.mem⟩
      obtain ⟨r, own, same⟩ := List.mem_map.mp (fromId_mem starts)
      rw [now, mem_table]
      exact ⟨f, by simp, r, own, same⟩
  · rw [show e ∈ (completeFile languageOf graph st f).1.symbolRefs ↔ _ from refs e, filesDone.refs,
      exists_prefix_concat]
    simp only [edgeOf_eq_some, ← chosenIn_eq now]
    rfl
  · rw [exists_prefix_concat, ← filesDone.pending]
    simp only [← chosenIn_eq now]
    exact List.mem_append.trans (or_congr_right (pending pr))

theorem filesDone_runParseStage {order : List CodeFile} (apart : order.Pairwise CodeFile.Apart) :
    FilesDone languageOf graph order (runParseStage languageOf graph order) := by
  induction order using List.reverseRecOn with
  | nil =>
      have noPrefix : ∀ P : List CodeFile → CodeFile → Prop,
          ¬ ∃ before f, before ++ [f] <+: [] ∧ P before f := by
        rintro P ⟨before, f, within, -⟩
        simp at within
      exact
        { symbols := rfl
          closed := fun e mem => by cases mem
          refs := fun e => iff_of_false (by rintro ⟨⟩) (noPrefix _)
          pending := fun pr => iff_of_false (by rintro ⟨⟩) (noPrefix _) }
  | append_singleton order f ih =>
      rw [runParseStage, List.foldl_append]
      exact (ih (List.pairwise_append.mp apart).1).step apart

variable (languageOf graph) in
/-- The symbol a reference ends up with: the choice at its file's turn, or else the one at
the end of the run. -/
def boundTo (order before : List CodeFile) (f : CodeFile) (raw : RawRef) : Option SymbolRecord :=
  (chosenIn languageOf graph (before ++ [f]) f raw).or (chosenIn languageOf graph order f raw)

/-- The references a run leaves. -/
theorem mem_symbolGraph {order : List CodeFile} (apart : order.Pairwise CodeFile.Apart)
    {e : SymbolRef} : e ∈ symbolGraph languageOf graph order ↔
      ∃ before f, before ++ [f] <+: order ∧ ∃ raw ∈ f.extraction.rawRefs,
        edgeOf f raw (boundTo languageOf graph order before f raw) = some e := by
  have filesDone : FilesDone languageOf graph order (runParseStage languageOf graph order) :=
    filesDone_runParseStage apart
  obtain ⟨-, -, -, -, -, refs⟩ := resolvePendingRefs_spec languageOf graph
    (runParseStage languageOf graph order).1 (runParseStage languageOf graph order).2
  rw [show e ∈ symbolGraph languageOf graph order ↔ _ from refs e, filesDone.refs]
  constructor
  · rintro (⟨before, f, within, raw, mem, edge⟩ | ⟨pr, left, d, found, other, -, rfl⟩)
    · refine ⟨before, f, within, raw, mem, ?_⟩
      obtain ⟨source, d, starts, chosen, other, is⟩ := edgeOf_eq_some.mp edge
      exact edgeOf_eq_some.mpr ⟨source, d, starts, by rw [boundTo, chosen, Option.some_or], other, is⟩
    · obtain ⟨before, f, within, raw, mem, source, starts, none, rfl⟩ := (filesDone.pending pr).mp left
      refine ⟨before, f, within, raw, mem, edgeOf_eq_some.mpr ⟨source, d, starts, ?_, other, rfl⟩⟩
      rw [boundTo, none, Option.none_or, ← chosenIn_eq filesDone.symbols]
      exact found
  · rintro ⟨before, f, within, raw, mem, edge⟩
    obtain ⟨source, d, starts, bound, other, rfl⟩ := edgeOf_eq_some.mp edge
    rcases Option.or_eq_some_iff.mp bound with chosen | ⟨none, chosen⟩
    · exact .inl ⟨before, f, within, raw, mem,
        edgeOf_eq_some.mpr ⟨source, d, starts, chosen, other, rfl⟩⟩
    · refine .inr ⟨raw.pendingAt f.path source,
        (filesDone.pending _).mpr ⟨before, f, within, raw, mem, source, starts, none, rfl⟩, d,
        (chosenIn_eq filesDone.symbols f raw).trans chosen, other, ?_, rfl⟩
      obtain ⟨r, own, same⟩ := List.mem_map.mp (fromId_mem starts)
      rw [filesDone.symbols, mem_table]
      exact ⟨f, within.subset (by simp), r, own, same⟩

/-! ## When the order does not show -/

variable (languageOf graph) in
/-- Each reference prefers symbols of its own file, or all its candidates are in one file. -/
def Unrivalled (files : List CodeFile) : Prop :=
  ∀ f ∈ files, ∀ raw ∈ f.extraction.rawRefs,
    let named := candidates languageOf (storeOf files) f.path raw.targetName
    (∀ r ∈ preferred graph f.path raw.targetCrate named, r.filePath = f.path) ∨
      ∃ path, ∀ r ∈ named, r.filePath = path

/-- With the same files stored, the same symbol is taken. -/
theorem chosenIn_perm {files order : List CodeFile} (perm : order.Perm files)
    (apart : files.Pairwise CodeFile.Apart) (f : CodeFile) (raw : RawRef) :
    chosenIn languageOf graph order f raw = chosenIn languageOf graph files f raw := by
  have apart' : order.Pairwise CodeFile.Apart := (perm.pairwise_iff symm).mpr apart
  have same : candidates languageOf (storeOf order) f.path raw.targetName =
      candidates languageOf (storeOf files) f.path raw.targetName :=
    (candidates_sublist perm.subset apart' apart).antisymm
      (candidates_sublist perm.symm.subset apart apart')
  rw [chosenIn, chosenIn, target, target, same]

theorem chosenIn_mem {files : List CodeFile} {f : CodeFile} {raw : RawRef} {d : SymbolRecord}
    (chosen : chosenIn languageOf graph files f raw = some d) :
    d ∈ candidates languageOf (storeOf files) f.path raw.targetName :=
  mem_candidates.mpr (target_eq_some chosen)

theorem chosenIn_none {files : List CodeFile} {f : CodeFile} {raw : RawRef} :
    chosenIn languageOf graph files f raw = none ↔
      candidates languageOf (storeOf files) f.path raw.targetName = [] := by
  constructor
  · intro none
    by_contra filled
    obtain ⟨d, -, found⟩ := disambiguateTarget_spec graph f.path raw.targetCrate filled
    exact absurd (none.symm.trans found) nofun
  · intro empty
    rw [chosenIn, target, empty]
    rfl

/-- In an unrivalled corpus a reference is bound to the same symbol whatever is stored at its
file's turn. -/
theorem Unrivalled.boundTo {files order before : List CodeFile} {f : CodeFile}
    (unrivalled : Unrivalled languageOf graph files) (apart : files.Pairwise CodeFile.Apart)
    (perm : order.Perm files) (within : before ++ [f] <+: order) {raw : RawRef}
    (mem : raw ∈ f.extraction.rawRefs) :
    boundTo languageOf graph order before f raw = chosenIn languageOf graph files f raw := by
  have visible : before ++ [f] ⊆ files := fun g listed => perm.subset (within.subset listed)
  have apart' : (before ++ [f]).Pairwise CodeFile.Apart :=
    ((perm.pairwise_iff symm).mpr apart).sublist within.sublist
  have fewer : (candidates languageOf (storeOf (before ++ [f])) f.path raw.targetName).Sublist
      (candidates languageOf (storeOf files) f.path raw.targetName) :=
    candidates_sublist visible apart' apart
  rw [Ingestion.boundTo, chosenIn_perm perm apart]
  cases chosen : chosenIn languageOf graph files f raw with
  | none =>
      have empty := chosenIn_none.mp chosen
      rw [empty] at fewer
      rw [chosenIn_none.mpr (List.sublist_nil.mp fewer)]
      rfl
  | some d =>
      rcases unrivalled f (visible (by simp)) raw mem with own | ⟨path, one⟩
      · -- The choice is in `f`, whose symbols are stored at its turn.
        have taken := chosen
        rw [chosenIn, target, disambiguateTarget_eq] at taken
        have here := own d (mem_of_preferCrossFile f.path taken)
        have seen := mem_candidates_of_visible visible apart' apart (chosenIn_mem chosen)
          (g := f) (by simp) here
        rw [show chosenIn languageOf graph (before ++ [f]) f raw = some d from
          disambiguateTarget_of_sublist graph f.path raw.targetCrate fewer (nodup_candidates _) seen
            own chosen, Option.some_or]
      · -- The one file of the candidates is stored at `f`'s turn, or none of them is.
        cases now : candidates languageOf (storeOf (before ++ [f])) f.path raw.targetName with
        | nil => rw [chosenIn_none.mpr now, Option.none_or]
        | cons r rest =>
            have seen : r ∈ candidates languageOf (storeOf (before ++ [f])) f.path raw.targetName := by
              simp [now]
            obtain ⟨⟨g, listed, stored⟩, -⟩ := (mem_candidates_storeOf apart').mp seen
            have all : candidates languageOf (storeOf files) f.path raw.targetName ⊆
                candidates languageOf (storeOf (before ++ [f])) f.path raw.targetName := by
              intro r' mem'
              refine mem_candidates_of_visible visible apart' apart mem' listed ?_
              rw [one r' mem', ← one r (fewer.subset seen), CodeFile.stored_filePath stored]
            have same := fewer.eq_of_length_le
              (List.subperm_of_subset (nodup_candidates _) all).length_le
            rw [show chosenIn languageOf graph (before ++ [f]) f raw = some d by
              rw [chosenIn, target, same]
              exact chosen, Option.some_or]

theorem fromId_isSome {f : CodeFile} {raw : RawRef} (mem : raw ∈ f.extraction.rawRefs) :
    ∃ source, fromId f.records raw = some source := by
  obtain ⟨path, extraction⟩ := f
  cases extraction with
  | unsupported => cases mem
  | lexed symbols => cases mem
  | tree symbols refs =>
      cases symbols with
      | nil => cases mem
      | cons first rest =>
          refine Option.isSome_iff_exists.mp ?_
          simp [fromId, fileAnchor, CodeFile.records, Extraction.records]

/-- A file is completed once. -/
theorem eq_of_prefix_of_apart {before rest : List CodeFile} {f h : CodeFile}
    (apart : (rest ++ [f] ++ [h]).Pairwise CodeFile.Apart)
    (within : before ++ [f] <+: rest ++ [f] ++ [h]) : before = rest := by
  obtain ⟨apart', -, cross⟩ := List.pairwise_append.mp apart
  rcases List.prefix_concat_iff.mp within with whole | earlier
  · have last : f = h := List.singleton_inj.mp (List.append_inj' whole rfl).2
    exact absurd (congrArg CodeFile.path last) (cross f (by simp) h (by simp)).paths
  · rcases List.prefix_concat_iff.mp earlier with whole | twice
    · exact (List.append_inj' whole rfl).1
    · exact absurd rfl ((List.pairwise_append.mp apart').2.2 f (twice.subset (by simp)) f
        (by simp)).paths

/-- A file that finds a candidate before `h` is completed has no edge into `h` by that name. -/
theorem not_mem_symbolGraph_of_rival {rest : List CodeFile} {f h : CodeFile}
    (apart : (rest ++ [f] ++ [h]).Pairwise CodeFile.Apart) {raw : RawRef} {source : String}
    (starts : fromId f.records raw = some source) {d : SymbolRecord} (late : d ∈ h.stored)
    (named : d.name = raw.targetName)
    (rival : candidates languageOf (storeOf (rest ++ [f])) f.path raw.targetName ≠ []) :
    raw.edgeTo source d ∉ symbolGraph languageOf graph (rest ++ [f] ++ [h]) := by
  obtain ⟨apart', -, cross⟩ := List.pairwise_append.mp apart
  have notYet : ∀ k ∈ rest ++ [f], ∀ r ∈ k.records, r.id ≠ d.id := fun k listed r own =>
    (cross k listed h (List.mem_singleton_self h)).ids r own d (CodeFile.mem_records_of_stored late)
  intro mem
  obtain ⟨before, g, within, raw', -, edge⟩ := (mem_symbolGraph apart).mp mem
  obtain ⟨source', d', starts', bound, -, is⟩ := edgeOf_eq_some.mp edge
  obtain ⟨rfl, ids⟩ : source = source' ∧ d.id = d'.id :=
    ⟨congrArg SymbolRef.fromSymbolId is, congrArg SymbolRef.toSymbolId is⟩
  -- Only `f` has references from `source`, and it is completed after `rest`.
  obtain ⟨r, own, same⟩ := List.mem_map.mp (fromId_mem starts)
  obtain ⟨r', own', same'⟩ := List.mem_map.mp (fromId_mem starts')
  obtain rfl : g = f := CodeFile.eq_of_id apart (within.subset (by simp)) (by simp) own' own
    (same'.trans same.symm)
  obtain rfl : before = rest := eq_of_prefix_of_apart apart within
  rcases Option.or_eq_some_iff.mp bound with chosen | ⟨none, chosen⟩
  · obtain ⟨⟨k, listed, stored⟩, -⟩ := (mem_candidates_storeOf apart').mp (chosenIn_mem chosen)
    exact notYet k listed d' (CodeFile.mem_records_of_stored stored) ids.symm
  · obtain ⟨⟨k, listed, stored⟩, named'⟩ := (mem_candidates_storeOf apart).mp (chosenIn_mem chosen)
    have inH : k = h := CodeFile.eq_of_id apart listed (by simp)
      (CodeFile.mem_records_of_stored stored) (CodeFile.mem_records_of_stored late) ids.symm
    rw [inH] at stored
    have row : d.toSymbolRow = d'.toSymbolRow := by
      have found := mem_storedRecords.mp late
      rw [ids, mem_storedRecords.mp stored] at found
      exact (Option.some.inj found).symm
    have sameName : raw'.targetName = raw.targetName := by
      simp only [isCandidate, Bool.and_eq_true, decide_eq_true_eq] at named'
      rw [← named'.1.1, ← named, row]
    refine rival ?_
    rw [← sameName]
    exact chosenIn_none.mp none

/-- Where some reference has rivals, moving one file past another changes the graph. -/
theorem exists_orders_of_not_unrivalled {files : List CodeFile} (apart : files.Pairwise CodeFile.Apart)
    (rivalled : ¬ Unrivalled languageOf graph files) :
    ∃ order order' : List CodeFile, order.Perm files ∧ order'.Perm files ∧
      symbolGraph languageOf graph order ≠ symbolGraph languageOf graph order' := by
  simp only [Unrivalled, not_forall, not_or, not_exists] at rivalled
  obtain ⟨f, inFiles, raw, mem, ⟨r₀, pref, elsewhere⟩, spread⟩ := rivalled
  obtain ⟨d, other, taken⟩ := preferCrossFile_cross f.path ⟨r₀, pref, elsewhere⟩
  have chosen : chosenIn languageOf graph files f raw = some d := by
    rw [chosenIn, target, disambiguateTarget_eq]
    exact taken
  obtain ⟨⟨h, listed, stored⟩, named⟩ := (mem_candidates_storeOf apart).mp (chosenIn_mem chosen)
  have atH := CodeFile.stored_filePath stored
  obtain ⟨r, seen, away⟩ := spread d.filePath
  obtain ⟨source, starts⟩ := fromId_isSome mem
  have distinct : h ≠ f := by
    rintro rfl
    exact other atH
  -- The other files, and the two orders of `f` and `h` after them.
  have perm : files.Perm (f :: h :: (files.erase f).erase h) :=
    (List.perm_cons_erase inFiles).trans
      ((List.perm_cons_erase ((List.mem_erase_of_ne distinct).mpr listed)).cons f)
  generalize (files.erase f).erase h = rest at perm
  have hLast : (rest ++ [f] ++ [h]).Perm files := by
    rw [List.append_assoc]
    exact List.perm_append_comm.trans perm.symm
  have fLast : (rest ++ [h] ++ [f]).Perm files := by
    rw [List.append_assoc]
    exact List.perm_append_comm.trans ((List.Perm.swap f h rest).trans perm.symm)
  refine ⟨_, _, fLast, hLast, fun same => ?_⟩
  have edge : raw.edgeTo source d ∈ symbolGraph languageOf graph (rest ++ [h] ++ [f]) := by
    refine (mem_symbolGraph ((fLast.pairwise_iff symm).mpr apart)).mpr
      ⟨rest ++ [h], f, List.prefix_refl _, raw, mem, edgeOf_eq_some.mpr ⟨source, d, starts, ?_, ?_, rfl⟩⟩
    · rw [boundTo, Option.or_self, chosenIn_perm fLast apart, chosen]
    · rintro rfl
      obtain ⟨r', own, same⟩ := List.mem_map.mp (fromId_mem starts)
      exact distinct (CodeFile.eq_of_id apart listed inFiles (CodeFile.mem_records_of_stored stored)
        own same.symm)
  rw [same] at edge
  have apart' := (hLast.pairwise_iff symm).mpr apart
  refine not_mem_symbolGraph_of_rival apart' starts stored ?_ ?_ edge
  · simp only [isCandidate, Bool.and_eq_true, decide_eq_true_eq] at named
    exact named.1.1
  · obtain ⟨⟨g, inFiles', stored'⟩, named'⟩ := (mem_candidates_storeOf apart).mp seen
    have before : g ∈ rest ++ [f] := by
      rcases List.mem_append.mp (hLast.symm.subset inFiles') with before | last
      · exact before
      · rw [List.mem_singleton.mp last] at stored'
        exact absurd ((CodeFile.stored_filePath stored').trans atH.symm) away
    exact List.ne_nil_of_mem ((mem_candidates_storeOf (List.pairwise_append.mp apart').1).mpr
      ⟨⟨g, before, stored'⟩, named'⟩)

theorem symbolGraph_eq_completeGraph {files order : List CodeFile}
    (unrivalled : Unrivalled languageOf graph files) (apart : files.Pairwise CodeFile.Apart)
    (perm : order.Perm files) :
    symbolGraph languageOf graph order = completeGraph languageOf graph files := by
  ext e
  rw [mem_symbolGraph ((perm.pairwise_iff symm).mpr apart), mem_completeGraph]
  constructor
  · rintro ⟨before, f, within, raw, mem, edge⟩
    rw [unrivalled.boundTo apart perm within mem] at edge
    exact ⟨f, perm.subset (within.subset (by simp)), raw, mem, edge⟩
  · rintro ⟨f, listed, raw, mem, edge⟩
    obtain ⟨before, after, is⟩ := List.append_of_mem (perm.symm.subset listed)
    have within : before ++ [f] <+: order := ⟨after, by simp [is]⟩
    rw [← unrivalled.boundTo apart perm within mem] at edge
    exact ⟨before, f, within, raw, mem, edge⟩

variable (languageOf graph) in
/-- **The order of completion does not show exactly in unrivalled corpora**; there every
order gives what the complete corpus would. -/
theorem symbolGraph_scheduling {files : List CodeFile} (apart : files.Pairwise CodeFile.Apart) :
    ((∀ order order' : List CodeFile, order.Perm files → order'.Perm files →
      symbolGraph languageOf graph order = symbolGraph languageOf graph order') ↔
        Unrivalled languageOf graph files) ∧
    ((∀ order : List CodeFile, order.Perm files →
      symbolGraph languageOf graph order = completeGraph languageOf graph files) ↔
        Unrivalled languageOf graph files) := by
  have exact_ : (∀ order order' : List CodeFile, order.Perm files → order'.Perm files →
      symbolGraph languageOf graph order = symbolGraph languageOf graph order') →
        Unrivalled languageOf graph files := by
    intro same
    by_contra rivalled
    obtain ⟨order, order', perm, perm', differ⟩ := exists_orders_of_not_unrivalled apart rivalled
    exact differ (same order order' perm perm')
  have complete : Unrivalled languageOf graph files → ∀ order : List CodeFile, order.Perm files →
      symbolGraph languageOf graph order = completeGraph languageOf graph files :=
    fun unrivalled order perm => symbolGraph_eq_completeGraph unrivalled apart perm
  refine ⟨⟨exact_, fun unrivalled order order' perm perm' => ?_⟩, fun all => exact_ ?_, complete⟩
  · rw [complete unrivalled order perm, complete unrivalled order' perm']
  · exact fun order order' perm perm' => (all order perm).trans (all order' perm').symm

end Runs

/-! ## A corpus where the order shows -/

/-- `pub fn name() { body }`, on the first line of its file. -/
def fnItem (moduleName name body : String) : CodeSymbol where
  name := name
  kind := .function
  visibility := "public"
  signature := "pub fn " ++ name ++ "()"
  docComment := none
  modulePath := [moduleName]
  lineStart := 1
  lineEnd := 1
  cyclomaticComplexity := some 1
  fullText := "pub fn " ++ name ++ "() \x7b " ++ body ++ " \x7d"

def ownTarget : CodeFile where
  path := "app/src/own.rs"
  extraction := .tree [fnItem "own" "target" ""] []

/-- Another package defines `target` too. -/
def otherTarget : CodeFile where
  path := "lib/src/other.rs"
  extraction := .tree [fnItem "other" "target" ""] []

def callerFile : CodeFile where
  path := "app/src/caller.rs"
  extraction := .tree [fnItem "caller" "run" "target()"]
    [{ targetName := "target", kind := .calls, line := 1, fromContext := some "run",
       targetCrate := none }]

def twoTargets : List CodeFile := [ownTarget, callerFile, otherTarget]

def twoPackages : PackageGraph :=
  [{ name := "app", crateName := "app", dirPrefix := "app/" },
    { name := "lib", crateName := "lib", dirPrefix := "lib/" }]

theorem symbolGraph_scheduling_twoTargets :
    twoTargets.Pairwise CodeFile.Apart ∧
      ((∀ order order' : List CodeFile, order.Perm twoTargets → order'.Perm twoTargets →
        symbolGraph (fun _ => some "rust") (some twoPackages) order =
          symbolGraph (fun _ => some "rust") (some twoPackages) order') ↔
        Unrivalled (fun _ => some "rust") (some twoPackages) twoTargets) := by
  have paths : twoTargets.Pairwise fun f g =>
      f.path ≠ g.path ∧ ':' ∉ f.path.toList ∧ ':' ∉ g.path.toList := by decide
  have apart : twoTargets.Pairwise CodeFile.Apart :=
    paths.imp fun {f g} colonFree => CodeFile.apart_of_paths colonFree.1 colonFree.2.1 colonFree.2.2
  exact ⟨apart, (symbolGraph_scheduling _ _ apart).1⟩

/-- `run` calls the `target` of its own package, or that of the other one, as its file is
completed after the one or after the other. -/
theorem callee_of_other_package :
    [otherTarget, callerFile, ownTarget].Perm twoTargets ∧
      symbolGraph (fun _ => some "rust") (some twoPackages) twoTargets =
        {{ fromSymbolId := "sym-app/src/caller.rs::caller::run"
           toSymbolId := "sym-app/src/own.rs::own::target"
           refKind := .calls }} ∧
      symbolGraph (fun _ => some "rust") (some twoPackages) [otherTarget, callerFile, ownTarget] =
        {{ fromSymbolId := "sym-app/src/caller.rs::caller::run"
           toSymbolId := "sym-lib/src/other.rs::other::target"
           refKind := .calls }} := by
  decide +kernel

end Ministr.Ingestion
