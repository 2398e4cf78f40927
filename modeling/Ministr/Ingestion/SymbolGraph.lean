/-
# Ingestion.SymbolGraph — the graph of a corpus and the tables that hold it

The content of the files determines a graph: the symbols the grammars find, and an edge
from the symbol a reference stands in to the definition it names.  `Contents.Symbol` and
`Contents.Edge` say so without a store.  The tables come close to it one file at a time:
`extractCodeSymbols_spec` and `resolvePendingRefs_spec` give the rows a file and the end
of a run write, and nothing in them depends on the order in which SQLite lists candidates.
-/
import Ministr.Ingestion.NoOrphans
import Ministr.Theory.Scan

namespace Ministr.Ingestion

open Ministr.Theory Ministr.Content

set_option autoImplicit false

/-! ## The graph of the files -/

/-- The references of a file; one without items has none. -/
def Extraction.rawRefs : Extraction → List RawRef
  | .tree symbols refs => if symbols.isEmpty then [] else refs
  | _ => []

/-- What the pipeline makes of a file's content; a file that is no code has no symbols. -/
def Pipeline.extraction {α K : Type} (p : Pipeline α K) (path content : String) : Extraction :=
  if p.isCode path then p.extract path content else .unsupported

/-- The content of each file. -/
abbrev Contents := String → Option String

namespace Contents

variable {α K : Type} (p : Pipeline α K) (files : Contents)

def Symbol (r : SymbolRecord) : Prop :=
  ∃ content, files r.filePath = some content ∧
    r ∈ (p.extraction r.filePath content).records r.filePath

/-- The file at `path` makes the reference `raw` in the symbol `source`. -/
def Ref (path : String) (raw : RawRef) (source : String) : Prop :=
  ∃ content, files path = some content ∧ raw ∈ (p.extraction path content).rawRefs ∧
    fromId ((p.extraction path content).records path) raw = some source

/-- The reference may mean `d`. -/
def Means (path : String) (raw : RawRef) (d : SymbolRecord) : Prop :=
  isCandidate p.languageOf path raw.targetName d.toSymbolRow = true

instance (path : String) (raw : RawRef) (d : SymbolRecord) : Decidable (Means p path raw d) :=
  inferInstanceAs (Decidable (_ = true))

end Contents

/-- The row of a reference from `source` to `d`. -/
def RawRef.edgeTo (raw : RawRef) (source : String) (d : SymbolRecord) : SymbolRef where
  fromSymbolId := source
  toSymbolId := d.id
  refKind := raw.kind

/-- What is left of a reference that means nothing yet. -/
def RawRef.pendingAt (raw : RawRef) (path source : String) : PendingRef where
  fromId := source
  targetName := raw.targetName
  kind := raw.kind
  filePath := path
  targetCrate := raw.targetCrate

/-- An edge of the graph; a symbol has none to itself. -/
def Contents.Edge {α K : Type} (p : Pipeline α K) (files : Contents) (e : SymbolRef) : Prop :=
  ∃ path raw source d, files.Ref p path raw source ∧ files.Symbol p d ∧
    Contents.Means p path raw d ∧ source ≠ d.id ∧ e = raw.edgeTo source d

/-- The row of a symbol is stored. -/
def HasSymbol (s : ContentStore) (r : SymbolRecord) : Prop :=
  s.symbols.lookup r.id = some r.toSymbolRow

/-! ## What a reference resolves to -/

section Target

variable {languageOf : LanguageOf} (graph : Option PackageGraph) {s t : ContentStore}
  (path : String) {name : String} (targetCrate : Option String)

theorem mem_candidates {path : String} {r : SymbolRecord} : r ∈ candidates languageOf s path name ↔
    HasSymbol s r ∧ isCandidate languageOf path name r.toSymbolRow = true := by
  simp only [candidates, List.mem_filter, ContentStore.mem_listSymbols, isCandidate, HasSymbol,
    Bool.and_eq_true]
  tauto

theorem preferCrossFile_spec {records : List SymbolRecord} (some_record : records ≠ []) :
    ∃ d ∈ records, preferCrossFile path records = some d := by
  unfold preferCrossFile
  cases other : records.find? fun s => s.filePath ≠ path with
  | some d => exact ⟨d, List.mem_of_find?_eq_some other, rfl⟩
  | none => exact ⟨records.head some_record, List.head_mem _, List.head?_eq_some_head some_record⟩

/-- Whatever the package graph says, one of the candidates is taken. -/
theorem disambiguateTarget_spec {primary : List SymbolRecord} (some_record : primary ≠ []) :
    ∃ d ∈ primary, disambiguateTarget primary path targetCrate graph = some d := by
  unfold disambiguateTarget
  split
  · exact absurd rfl some_record
  · exact ⟨_, List.mem_singleton_self _, rfl⟩
  · have crateSub : ∀ d ∈ crateFiltered graph targetCrate primary, d ∈ primary := by
      intro d mem
      unfold crateFiltered at mem
      split at mem
      · split at mem
        · exact (List.mem_filter.mp mem).1
        · cases mem
      · cases mem
    have packageSub : ∀ d ∈ samePkg graph path primary, d ∈ primary := by
      intro d mem
      unfold samePkg at mem
      split at mem
      · exact (List.mem_filter.mp mem).1
      · cases mem
    have prefer : ∀ records : List SymbolRecord, (∀ d ∈ records, d ∈ primary) → records ≠ [] →
        ∃ d ∈ primary, preferCrossFile path records = some d := by
      intro records sub some_record
      obtain ⟨d, mem, found⟩ := preferCrossFile_spec path some_record
      exact ⟨d, sub d mem, found⟩
    dsimp only
    split
    · split
      · exact prefer primary (fun _ => id) some_record
      · rename_i filled
        exact prefer _ packageSub (mt List.isEmpty_iff.mpr filled)
    · rename_i filled
      replace filled := mt List.isEmpty_iff.mpr filled
      split
      · exact ⟨_, crateSub _ (List.head_mem filled), List.head?_eq_some_head filled⟩
      · exact prefer _ crateSub filled

variable {graph path targetCrate}

theorem target_eq_none : target languageOf graph s path name targetCrate = none ↔
    ∀ r, HasSymbol s r → isCandidate languageOf path name r.toSymbolRow = false := by
  constructor
  · intro noTarget r stored
    by_contra named
    have mem := mem_candidates.mpr ⟨stored, Bool.not_eq_false _ ▸ named⟩
    obtain ⟨d, -, found⟩ := disambiguateTarget_spec graph path targetCrate
      (List.ne_nil_of_mem mem)
    exact absurd (noTarget.symm.trans found) nofun
  · intro unnamed
    have empty : candidates languageOf s path name = [] := by
      refine List.eq_nil_iff_forall_not_mem.mpr fun r mem => ?_
      obtain ⟨stored, named⟩ := mem_candidates.mp mem
      rw [unnamed r stored] at named
      cases named
    rw [target, empty]
    rfl

theorem target_eq_some {d : SymbolRecord}
    (found : target languageOf graph s path name targetCrate = some d) :
    HasSymbol s d ∧ isCandidate languageOf path name d.toSymbolRow = true := by
  by_cases empty : candidates languageOf s path name = []
  · rw [target, empty] at found
    cases found
  · obtain ⟨d', mem, taken⟩ := disambiguateTarget_spec graph path targetCrate empty
    rw [target, taken, Option.some.injEq] at found
    exact mem_candidates.mp (found ▸ mem)

/-- Only the symbols matter. -/
theorem target_congr (same : s.symbols = t.symbols) :
    target languageOf graph s path name targetCrate =
      target languageOf graph t path name targetCrate := by
  unfold target candidates ContentStore.listSymbols
  rw [same]

end Target

/-! ## Where a reference starts -/

theorem enclosingSymbolId_mem {locals : List SymbolRecord} {line : Nat} {source : String}
    (found : enclosingSymbolId locals line = some source) :
    source ∈ locals.map SymbolRecord.id := by
  obtain ⟨r, chosen, rfl⟩ := Option.map_eq_some_iff.mp found
  refine List.mem_map_of_mem ?_
  have owner := mem_of_foldl_pick (fun best a r picked => ?_) _ chosen
  · exact (List.mem_filter.mp (owner.resolve_right nofun)).1
  · cases best with
    | none =>
        cases picked
        exact Or.inl rfl
    | some b =>
        simp only at picked
        split at picked
        · cases picked
          exact Or.inl rfl
        · exact Or.inr picked

theorem fileAnchor_mem {locals : List SymbolRecord} {source : String}
    (found : fileAnchor locals = some source) : source ∈ locals.map SymbolRecord.id := by
  obtain ⟨r, chosen, rfl⟩ := Option.map_eq_some_iff.mp found
  refine List.mem_map_of_mem ?_
  simp only [Option.orElse_eq_orElse, Option.orElse_eq_or, Option.or_eq_some_iff] at chosen
  rcases chosen with module | ⟨-, item | ⟨-, first⟩⟩
  · exact List.mem_of_find?_eq_some module
  · exact List.mem_of_find?_eq_some item
  · exact List.mem_of_mem_head? first

/-- A reference starts in a symbol of its own file. -/
theorem fromId_mem {locals : List SymbolRecord} {raw : RawRef} {source : String}
    (found : fromId locals raw = some source) : source ∈ locals.map SymbolRecord.id := by
  simp only [fromId, Option.orElse_eq_orElse, Option.orElse_eq_or, Option.or_eq_some_iff] at found
  rcases found with named | ⟨-, enclosing | ⟨-, anchor⟩⟩
  · obtain ⟨context, -, named⟩ := Option.bind_eq_some_iff.mp named
    obtain ⟨r, chosen, rfl⟩ := Option.map_eq_some_iff.mp named
    exact List.mem_map_of_mem (List.mem_of_find?_eq_some chosen)
  · exact enclosingSymbolId_mem enclosing
  · exact fileAnchor_mem anchor

/-! ## What one file writes -/

/-- Both ends of every reference are stored. -/
def Closed (s : ContentStore) : Prop :=
  ∀ e ∈ s.symbolRefs, e.fromSymbolId ∈ s.symbols ∧ e.toSymbolId ∈ s.symbols

theorem HasSymbol.mem {s : ContentStore} {r : SymbolRecord} (stored : HasSymbol s r) :
    r.id ∈ s.symbols :=
  (Rows.mem_iff_lookup _ _).mpr ⟨_, stored⟩

/-- Two records under one id are one record. -/
theorem HasSymbol.unique {s : ContentStore} {r r' : SymbolRecord} (stored : HasSymbol s r)
    (stored' : HasSymbol s r') (same : r.id = r'.id) : r = r' := by
  obtain ⟨row, id⟩ := r
  obtain ⟨row', id'⟩ := r'
  cases same
  cases stored.symm.trans stored'
  rfl

/-- The tables after the symbols and the references of a file are written.  The references
are resolved against the tables as they are then. -/
structure Extracted (languageOf : LanguageOf) (graph : Option PackageGraph) (s t : ContentStore)
    (path : String) (extraction : Extraction) (pending : List PendingRef) : Prop where
  symbols : ∀ r, HasSymbol t r ↔ HasSymbol s r ∨ r ∈ extraction.records path
  refs : ∀ e, e ∈ t.symbolRefs ↔ e ∈ s.symbolRefs ∨ ∃ raw ∈ extraction.rawRefs, ∃ source d,
    fromId (extraction.records path) raw = some source ∧
      target languageOf graph t path raw.targetName raw.targetCrate = some d ∧ source ≠ d.id ∧
      e = raw.edgeTo source d
  pending : ∀ pr, pr ∈ pending ↔ ∃ raw ∈ extraction.rawRefs, ∃ source,
    fromId (extraction.records path) raw = some source ∧
      target languageOf graph t path raw.targetName raw.targetCrate = none ∧
      pr = raw.pendingAt path source

section Extract

variable (languageOf : LanguageOf) (graph : Option PackageGraph) {s : ContentStore} {path : String}
  {extraction : Extraction}

theorem hasSymbol_upsertAll {records : List SymbolRecord}
    (fresh : ∀ r ∈ records, r.id ∉ s.symbols) (distinct : (records.map SymbolRecord.id).Nodup)
    {r : SymbolRecord} :
    (s.symbols.upsertAll (records.map fun r => (r.id, r.toSymbolRow))).lookup r.id =
      some r.toSymbolRow ↔ HasSymbol s r ∨ r ∈ records := by
  have listed : (r.id, r.toSymbolRow) ∈ records.map (fun r => (r.id, r.toSymbolRow)) ↔
      r ∈ records := by
    refine ⟨fun mem => ?_, fun mem => List.mem_map_of_mem mem⟩
    obtain ⟨⟨row, id⟩, mem, same⟩ := List.mem_map.mp mem
    cases same
    exact mem
  have keys : ((records.map fun r => (r.id, r.toSymbolRow)).map Prod.fst).Nodup := by
    rw [List.map_map]
    exact distinct
  rw [Rows.lookup_upsertAll, Option.or_eq_some_iff,
    lastOf_eq_some_iff fun w mem w' mem' => eq_of_nodup_fst keys mem mem', listed]
  constructor
  · rintro (mem | ⟨-, stored⟩)
    · exact .inr mem
    · exact .inl stored
  · rintro (stored | mem)
    · refine .inr ⟨lastOf_eq_none.mpr fun e mem same => ?_, stored⟩
      obtain ⟨r', mem', rfl⟩ := List.mem_map.mp mem
      refine fresh r' mem' ?_
      rw [show r'.id = r.id from same]
      exact HasSymbol.mem stored
    · exact .inl mem

theorem resolveRef_eq {t : ContentStore} {locals : List SymbolRecord} {raw : RawRef}
    {source : String} (starts : fromId locals raw = some source) :
    resolveRef languageOf graph t path locals raw =
      match target languageOf graph t path raw.targetName raw.targetCrate with
      | none => .pending (raw.pendingAt path source)
      | some d => if source = d.id then .dropped else .edge (raw.edgeTo source d) := by
  have own : (locals.map SymbolRecord.id).contains source = true :=
    List.contains_iff_mem.mpr (fromId_mem starts)
  unfold resolveRef
  rw [starts]
  dsimp only
  cases target languageOf graph t path raw.targetName raw.targetCrate with
  | none => rfl
  | some d => simp only [own, if_true]; rfl

theorem mem_resolved_edges {t : ContentStore} {locals : List SymbolRecord} {refs : List RawRef}
    {e : SymbolRef} :
    e ∈ (refs.map (resolveRef languageOf graph t path locals)).filterMap Resolved.edge? ↔
      ∃ raw ∈ refs, ∃ source d, fromId locals raw = some source ∧
        target languageOf graph t path raw.targetName raw.targetCrate = some d ∧ source ≠ d.id ∧
        e = raw.edgeTo source d := by
  simp only [List.mem_filterMap, List.mem_map, exists_exists_and_eq_and]
  refine exists_congr fun raw => and_congr_right fun _ => ?_
  cases starts : fromId locals raw with
  | none => simp [resolveRef, starts, Resolved.edge?]
  | some source =>
      rw [resolveRef_eq languageOf graph starts]
      cases target languageOf graph t path raw.targetName raw.targetCrate with
      | none => simp [Resolved.edge?]
      | some d =>
          by_cases same : source = d.id
          · simp [same, Resolved.edge?]
          · simp [same, Resolved.edge?, eq_comm]

theorem mem_resolved_pending {t : ContentStore} {locals : List SymbolRecord} {refs : List RawRef}
    {pr : PendingRef} :
    pr ∈ (refs.map (resolveRef languageOf graph t path locals)).filterMap Resolved.pending? ↔
      ∃ raw ∈ refs, ∃ source, fromId locals raw = some source ∧
        target languageOf graph t path raw.targetName raw.targetCrate = none ∧
        pr = raw.pendingAt path source := by
  simp only [List.mem_filterMap, List.mem_map, exists_exists_and_eq_and]
  refine exists_congr fun raw => and_congr_right fun _ => ?_
  cases starts : fromId locals raw with
  | none => simp [resolveRef, starts, Resolved.pending?]
  | some source =>
      rw [resolveRef_eq languageOf graph starts]
      cases target languageOf graph t path raw.targetName raw.targetCrate with
      | none => simp [Resolved.pending?, eq_comm]
      | some d =>
          by_cases same : source = d.id <;> simp [same, Resolved.pending?]

/-- `resolve_and_store_refs` where no reference touches the file yet. -/
theorem resolveAndStoreRefs_spec (path : String) (locals : List SymbolRecord) (refs : List RawRef)
    (elsewhere : ∀ e ∈ s.symbolRefs, ∀ row, s.symbols.lookup e.fromSymbolId = some row ∨
      s.symbols.lookup e.toSymbolId = some row → row.filePath ≠ path)
    (own : ∀ r ∈ locals, r.id ∈ s.symbols) :
    let result := resolveAndStoreRefs languageOf graph s path locals refs
    result.1.symbols = s.symbols ∧
      (∀ e, e ∈ result.1.symbolRefs ↔ e ∈ s.symbolRefs ∨ ∃ raw ∈ refs, ∃ source d,
        fromId locals raw = some source ∧
          target languageOf graph s path raw.targetName raw.targetCrate = some d ∧ source ≠ d.id ∧
          e = raw.edgeTo source d) ∧
      ∀ pr, pr ∈ result.2 ↔ ∃ raw ∈ refs, ∃ source, fromId locals raw = some source ∧
        target languageOf graph s path raw.targetName raw.targetCrate = none ∧
        pr = raw.pendingAt path source := by
  intro result
  by_cases empty : refs.isEmpty = true
  · rw [show result = (s, []) from if_pos empty, List.isEmpty_iff.mp empty]
    simp
  · have unfolded : result =
        (((refs.map (resolveRef languageOf graph s path locals)).filterMap Resolved.edge?).foldl
            ContentStore.insertSymbolRef s,
          (refs.map (resolveRef languageOf graph s path locals)).filterMap Resolved.pending?) := by
      show resolveAndStoreRefs languageOf graph s path locals refs = _
      unfold resolveAndStoreRefs
      rw [if_neg empty, ContentStore.deleteRefsForFile_eq_self elsewhere]
    rw [unfolded]
    refine ⟨?_, fun e => ?_, fun pr => mem_resolved_pending languageOf graph⟩
    · obtain ⟨edges, same⟩ := ContentStore.insertSymbolRefs_frame (s := s)
        ((refs.map (resolveRef languageOf graph s path locals)).filterMap Resolved.edge?)
      rw [same]
    · rw [ContentStore.mem_insertSymbolRefs, mem_resolved_edges]
      intro e mem
      obtain ⟨raw, -, source, d, starts, found, -, rfl⟩ :=
        (mem_resolved_edges languageOf graph).mp mem
      obtain ⟨r, local_, rfl⟩ := List.mem_map.mp (fromId_mem starts)
      exact ⟨own r local_, (target_eq_some found).1.mem⟩

/-- `extract_code_symbols` at a path without symbols, for symbols under new ids: the rows it
adds, and what becomes of the references. -/
theorem extractCodeSymbols_rows (closed : Closed s) (vacant : Vacant s path)
    (fresh : ∀ r ∈ extraction.records path, r.id ∉ s.symbols) :
    let result := extractCodeSymbols languageOf graph s path extraction
    result.1.symbols = s.symbols.upsertAll ((extraction.records path).map fun r =>
        (r.id, r.toSymbolRow)) ∧
      (∀ e, e ∈ result.1.symbolRefs ↔ e ∈ s.symbolRefs ∨ ∃ raw ∈ extraction.rawRefs, ∃ source d,
        fromId (extraction.records path) raw = some source ∧
          target languageOf graph result.1 path raw.targetName raw.targetCrate = some d ∧
          source ≠ d.id ∧ e = raw.edgeTo source d) ∧
      ∀ pr, pr ∈ result.2.pendingRefs ↔ ∃ raw ∈ extraction.rawRefs, ∃ source,
        fromId (extraction.records path) raw = some source ∧
          target languageOf graph result.1 path raw.targetName raw.targetCrate = none ∧
          pr = raw.pendingAt path source := by
  have untouched : ∀ e ∈ s.symbolRefs, ∀ r ∈ extraction.records path,
      e.fromSymbolId ≠ r.id ∧ e.toSymbolId ≠ r.id := by
    intro e mem r new
    refine ⟨fun same => fresh r new ?_, fun same => fresh r new ?_⟩
    · rw [← same]
      exact (closed e mem).1
    · rw [← same]
      exact (closed e mem).2
  unfold extractCodeSymbols
  dsimp only
  rw [ContentStore.deleteSymbolsForFile_eq_self vacant,
    ContentStore.insertSymbols_untouched untouched]
  cases extraction with
  | unsupported => simp [Extraction.records, Extraction.rawRefs]
  | lexed symbols => simp [Extraction.rawRefs]
  | tree symbols refs =>
      dsimp only
      split
      · rename_i empty
        have noItems : symbols = [] := by simpa [Extraction.records] using empty
        simp [noItems, Extraction.records, Extraction.rawRefs]
      · rename_i filled
        have items : symbols ≠ [] := by simpa [Extraction.records] using filled
        have rawRefs : (Extraction.tree symbols refs).rawRefs = refs := by
          simp [Extraction.rawRefs, items]
        -- The rows an old reference ends at are old rows, and those are of other files.
        have kept : ∀ id ∈ s.symbols, ∀ row, (s.symbols.upsertAll
            (((Extraction.tree symbols refs).records path).map fun r =>
              (r.id, r.toSymbolRow))).lookup id = some row → row.filePath ≠ path := by
          intro id old row found
          rw [Rows.lookup_upsertAll, lastOf_eq_none.mpr, Option.none_or] at found
          · exact vacant id row found
          · rintro e mem rfl
            obtain ⟨r, listed, rfl⟩ := List.mem_map.mp mem
            exact fresh r listed old
        obtain ⟨symbols_eq, edges, pending⟩ := resolveAndStoreRefs_spec languageOf graph
          (s := { s with
            symbols := s.symbols.upsertAll (((Extraction.tree symbols refs).records path).map
              fun r => (r.id, r.toSymbolRow)) })
          path ((Extraction.tree symbols refs).records path) refs
          (fun e mem row found => found.elim (kept _ (closed e mem).1 row)
            (kept _ (closed e mem).2 row))
          (fun r mem => Rows.mem_upsertAll.mpr (.inr ⟨_, List.mem_map_of_mem mem, rfl⟩))
        rw [rawRefs]
        refine ⟨symbols_eq, fun e => ?_, fun pr => ?_⟩
        · simp only [target_congr symbols_eq]
          exact edges e
        · simp only [target_congr symbols_eq]
          exact pending pr

/-- The same where no id is given twice, symbol by symbol. -/
theorem extractCodeSymbols_spec (closed : Closed s) (vacant : Vacant s path)
    (fresh : ∀ r ∈ extraction.records path, r.id ∉ s.symbols)
    (distinct : ((extraction.records path).map SymbolRecord.id).Nodup) :
    Extracted languageOf graph s (extractCodeSymbols languageOf graph s path extraction).1 path
      extraction (extractCodeSymbols languageOf graph s path extraction).2.pendingRefs := by
  obtain ⟨symbols, refs, pending⟩ :=
    extractCodeSymbols_rows languageOf graph closed vacant fresh
  refine { symbols := fun r => ?_, refs, pending }
  unfold HasSymbol
  rw [symbols]
  exact hasSymbol_upsertAll fresh distinct

/-! ## What the end of a run writes -/

/-- `resolve_pending_refs` adds an edge for each reference that now means something. -/
theorem resolvePendingRefs_spec (s : ContentStore) (pending : List PendingRef) :
    let t := (resolvePendingRefs languageOf graph s pending).1
    t.symbols = s.symbols ∧ t.documents = s.documents ∧ t.fileHashes = s.fileHashes ∧
      t.sections = s.sections ∧ t.claims = s.claims ∧
      ∀ e, e ∈ t.symbolRefs ↔ e ∈ s.symbolRefs ∨ ∃ pr ∈ pending, ∃ d,
        target languageOf graph s pr.filePath pr.targetName pr.targetCrate = some d ∧
          pr.fromId ≠ d.id ∧ pr.fromId ∈ s.symbols ∧
          e = { fromSymbolId := pr.fromId, toSymbolId := d.id, refKind := pr.kind } := by
  induction pending generalizing s with
  | nil => simp [resolvePendingRefs]
  | cons pr pending ih =>
      have here : ∃ edges, resolvePendingRef languageOf graph s pr = { s with symbolRefs := edges } ∧
          ∀ e, e ∈ edges ↔ e ∈ s.symbolRefs ∨ ∃ d,
            target languageOf graph s pr.filePath pr.targetName pr.targetCrate = some d ∧
              pr.fromId ≠ d.id ∧ pr.fromId ∈ s.symbols ∧
              e = { fromSymbolId := pr.fromId, toSymbolId := d.id, refKind := pr.kind } := by
        unfold resolvePendingRef
        cases found : target languageOf graph s pr.filePath pr.targetName pr.targetCrate with
        | none => exact ⟨s.symbolRefs, rfl, by simp⟩
        | some d =>
            have stored := (target_eq_some found).1.mem
            dsimp only
            by_cases self : pr.fromId = d.id
            · rw [if_pos self]
              exact ⟨s.symbolRefs, rfl, by simp [self]⟩
            · rw [if_neg self, ContentStore.insertSymbolRef]
              by_cases starts : pr.fromId ∈ s.symbols
              · rw [if_pos ⟨starts, stored⟩]
                refine ⟨_, rfl, fun e => ?_⟩
                simp [self, starts, or_comm]
              · rw [if_neg fun both => starts both.1]
                exact ⟨s.symbolRefs, rfl, by simp [starts]⟩
      obtain ⟨edges, same, members⟩ := here
      have first : (resolvePendingRefs languageOf graph s (pr :: pending)).1 =
          (resolvePendingRefs languageOf graph { s with symbolRefs := edges } pending).1 := by
        rw [resolvePendingRefs, same]
        dsimp only
        split <;> rfl
      intro t
      rw [show t = _ from first]
      obtain ⟨symbols, documents, hashes, sections, claims, refs⟩ :=
        ih { s with symbolRefs := edges }
      refine ⟨symbols, documents, hashes, sections, claims, fun e => ?_⟩
      rw [refs]
      simp only [members, List.mem_cons, exists_eq_or_imp, or_assoc]
      rfl

end Extract

end Ministr.Ingestion
