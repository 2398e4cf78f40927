/-
# Ingestion.IncrementalSound — the same graph as from scratch

Between two runs the tables hold the graph of the files (`IndexedCorpus.Current`), and a run
that keeps to `Admitted` takes one such state to the next.  Since a run from scratch over
well-formed files always keeps to it, both end with the same symbols and references
(`incremental_eq_scratch`).  Whether a given history keeps to `Admitted` can be computed.
-/
import Ministr.Ingestion.Incremental

namespace Ministr.Ingestion

open Ministr.Theory Ministr.Content Ministr.Index

set_option autoImplicit false

/-! ## The ends of a run -/

namespace IndexedCorpus

variable {α K : Type} {p : Pipeline α K} {s t : IndexedCorpus α K}

/-- The tables hold the graph of the files. -/
structure Current (p : Pipeline α K) (s : IndexedCorpus α K) : Prop where
  tidy : Tidy s.work.store
  hashes : ∀ path, s.work.store.fileHashes.lookup path = (s.files.lookup path).map (rowOf p)
  symbols : ∀ r, HasSymbol s.work.store r ↔ (contentsOf s.files).Symbol p r
  refs : ∀ e, e ∈ s.work.store.symbolRefs ↔ (contentsOf s.files).Edge p e
  wellFormed : WellFormed p (contentsOf s.files)
  watched : ∀ path file, s.files.lookup path = some file → p.inIgnoredDir path = false

theorem current_fresh (index : Index.HnswInner String α) (hybrid : Bool) :
    Current p (fresh (Workspace.new index hybrid : Workspace α K)) where
  tidy := tidy_empty
  hashes := fun path => rfl
  symbols := fun r => by simp [HasSymbol, fresh, Workspace.new, ContentStore.empty,
    Contents.Symbol, contentsOf]
  refs := fun e => by simp [fresh, Workspace.new, ContentStore.empty, Contents.Edge, Contents.Ref,
    contentsOf]
  wellFormed :=
    { distinct := fun path content holds => by cases holds
      apart := fun r r' ⟨content, holds, _⟩ => by cases holds
      onePrimary := fun path raw source d d' ⟨content, holds, _⟩ => by cases holds }
  watched := fun path file found => by cases found

/-- The start of a run. -/
theorem Current.midway (current : Current p s) {files : List (String × SourceFile)}
    (admitted : Admitted p s files) :
    Midway p s.files (s.files.upsertAll files) (files.map Prod.fst) [] s.work.store := by
  have outside : ∀ path, path ∉ files.map Prod.fst →
      (s.files.upsertAll files).lookup path = s.files.lookup path := by
    intro path absent
    rw [Rows.lookup_upsertAll, lastOf_eq_none.mpr, Option.none_or]
    rintro e mem rfl
    exact absent (List.mem_map_of_mem mem)
  have same : ∀ path, path ∉ files.map Prod.fst →
      contentsOf s.files path = contentsOf (s.files.upsertAll files) path := by
    intro path absent
    unfold contentsOf
    rw [outside path absent]
  have unmixed : mix (contentsOf s.files) (contentsOf (s.files.upsertAll files))
      (files.map Prod.fst) = contentsOf s.files := by
    funext path
    unfold mix
    split
    · rfl
    · rename_i absent
      exact (same path absent).symm
  refine
    { tidy := current.tidy
      hashes := fun path => ?_
      symbols := by
        rw [unmixed]
        exact current.symbols
      sound := by
        rw [unmixed]
        exact fun e mem => (current.refs e).mp mem
      complete := fun path raw source d ref settled symbol means ne => .inl ?_
      pending := fun pr mem => absurd mem List.not_mem_nil }
  · rw [current.hashes]
    split
    · rfl
    · rename_i absent
      rw [outside path absent]
  · have kept : ∀ path, (path ∈ files.map Prod.fst →
        contentsOf s.files path = contentsOf (s.files.upsertAll files) path) →
        contentsOf s.files path = contentsOf (s.files.upsertAll files) path := by
      intro path settled
      by_cases waits : path ∈ files.map Prod.fst
      · exact settled waits
      · exact same path waits
    have target := admitted.undisturbed path raw source d ref (kept path settled) symbol means
    refine ⟨fun _ => target, (current.refs _).mpr ⟨path, raw, source, d, ?_, ?_, means, ne, rfl⟩⟩
    · exact (Contents.ref_congr (kept path settled)).mpr ref
    · exact (Contents.symbol_congr target).mpr symbol

theorem step_files {files : List (String × SourceFile)} (taken : s.step p files = some t) :
    t.files = s.files.upsertAll files := by
  obtain ⟨work, -, rfl⟩ := Option.map_eq_some_iff.mp taken
  rfl

/-- **A run keeps the graph of the files.** -/
theorem Current.step (current : Current p s) {files : List (String × SourceFile)}
    (admitted : Admitted p s files) (taken : s.step p files = some t) : Current p t := by
  obtain ⟨work, done, rfl⟩ := Option.map_eq_some_iff.mp taken
  obtain ⟨⟨w, pending⟩, parsed, finished⟩ := bind_eq_ok.mp (toOption_eq_some done)
  cases finished
  have listed : ∀ file ∈ files, (s.files.upsertAll files).lookup file.1 = some file.2 := by
    intro file mem
    rw [Rows.lookup_upsertAll, (lastOf_eq_some_iff fun w mem w' mem' =>
      eq_of_nodup_fst admitted.paths mem mem').mpr mem, Option.some_or]
  have ended := (current.midway admitted).parseFiles admitted.paths admitted.watched admitted.seen
    listed admitted.wellFormed admitted.apart admitted.ahead parsed
  obtain ⟨tidy, hashes, symbols, refs⟩ := ended.finish admitted.wellFormed
  refine
    { tidy
      hashes
      symbols
      refs
      wellFormed := admitted.wellFormed
      watched := fun path file found => ?_ }
  rw [Rows.lookup_upsertAll, Option.or_eq_some_iff] at found
  rcases found with last | ⟨-, old⟩
  · exact admitted.watched _ (mem_of_lastOf last)
  · exact current.watched path file old

end IndexedCorpus

/-- Two stores hold the same symbols and the same references. -/
structure SameGraph (s t : ContentStore) : Prop where
  symbols : ∀ id, s.symbols.lookup id = t.symbols.lookup id
  refs : s.symbolRefs = t.symbolRefs

/-- The tables are those of any run over the files, in any order, into an empty workspace. -/
def IndexedCorpus.MatchesScratch {α K : Type} (p : Pipeline α K) (s : IndexedCorpus α K) : Prop :=
  ∀ index hybrid files work, (files.map Prod.fst).Nodup →
    (∀ path, (Rows.upsertAll ∅ files).lookup path = s.files.lookup path) →
    (Workspace.new index hybrid).indexFiles p files = .ok work →
    SameGraph s.work.store work.store

namespace IndexedCorpus

variable {α K : Type} {p : Pipeline α K} {s t : IndexedCorpus α K}

theorem Current.same (left : Current p s) (right : Current p t)
    (files : ∀ path, t.files.lookup path = s.files.lookup path) :
    SameGraph s.work.store t.work.store := by
  have contents : contentsOf t.files = contentsOf s.files := by
    funext path
    unfold contentsOf
    rw [files]
  have rows : ∀ r, HasSymbol s.work.store r ↔ HasSymbol t.work.store r := by
    intro r
    rw [left.symbols, right.symbols, contents]
  constructor
  · intro id
    refine Option.ext fun row => ?_
    exact rows { row with id }
  · refine Finset.ext fun e => ?_
    rw [left.refs, right.refs, contents]

/-- A run from scratch over well-formed files is admitted. -/
theorem Current.scratch (current : Current p s) {files : List (String × SourceFile)}
    (paths : (files.map Prod.fst).Nodup)
    (same : ∀ path, (Rows.upsertAll ∅ files).lookup path = s.files.lookup path)
    (work : Workspace α K) : Admitted p (fresh work) files := by
  have contents : contentsOf ((fresh work).files.upsertAll files) = contentsOf s.files := by
    funext path
    unfold contentsOf
    rw [show (fresh work).files = ∅ from rfl, same]
  have nothing : ∀ path, contentsOf (fresh work).files path = none := fun path => rfl
  have listed : ∀ file ∈ files, s.files.lookup file.1 = some file.2 := by
    intro file mem
    rw [← same, Rows.lookup_upsertAll, (lastOf_eq_some_iff fun w mem w' mem' =>
      eq_of_nodup_fst paths mem mem').mpr mem, Option.some_or]
  refine
    { paths
      watched := fun file mem => current.watched _ _ (listed file mem)
      seen := fun file mem old known => by cases known
      wellFormed := contents ▸ current.wellFormed
      apart := fun r r' ⟨content, holds, _⟩ => by cases holds
      undisturbed := fun path raw source d ⟨content, holds, _⟩ unchanged => ?_
      ahead := List.pairwise_of_forall fun path later raw source d d' _ _ _ old => ?_ }
  · rw [← unchanged] at holds
    cases holds
  · obtain ⟨content, holds, -⟩ := old
    cases holds

end IndexedCorpus

/-! ## Checking a history -/

section Check

variable {α K : Type} (p : Pipeline α K) (files : Rows String SourceFile)

def symbolsOf : List SymbolRecord :=
  (files.select fun _ _ => true).flatMap fun file =>
    (p.extraction file.1 file.2.content).records file.1

def refsOf : List (String × RawRef × String) :=
  (files.select fun _ _ => true).flatMap fun file =>
    (p.extraction file.1 file.2.content).rawRefs.filterMap fun raw =>
      (fromId ((p.extraction file.1 file.2.content).records file.1) raw).map fun source =>
        (file.1, raw, source)

variable {p files}

theorem contentsOf_eq_some {path content : String} : contentsOf files path = some content ↔
    ∃ file, files.lookup path = some file ∧ file.content = content :=
  Option.map_eq_some_iff

theorem mem_symbolsOf {r : SymbolRecord} : r ∈ symbolsOf p files ↔ (contentsOf files).Symbol p r := by
  simp only [symbolsOf, List.mem_flatMap, Prod.exists, Rows.mem_select, and_true, Contents.Symbol,
    contentsOf_eq_some]
  constructor
  · rintro ⟨path, file, found, listed⟩
    have here := Extraction.records_filePath listed
    subst here
    exact ⟨file.content, ⟨file, found, rfl⟩, listed⟩
  · rintro ⟨content, ⟨file, found, rfl⟩, listed⟩
    exact ⟨r.filePath, file, found, listed⟩

theorem mem_refsOf {path : String} {raw : RawRef} {source : String} :
    (path, raw, source) ∈ refsOf p files ↔ (contentsOf files).Ref p path raw source := by
  simp only [refsOf, List.mem_flatMap, Prod.exists, Rows.mem_select, and_true, Contents.Ref,
    contentsOf_eq_some, List.mem_filterMap, Option.map_eq_some_iff, Prod.mk.injEq]
  constructor
  · rintro ⟨path, file, found, raw, listed, source, starts, rfl, rfl, rfl⟩
    exact ⟨file.content, ⟨file, found, rfl⟩, listed, starts⟩
  · rintro ⟨content, ⟨file, found, rfl⟩, listed, starts⟩
    exact ⟨path, file, found, raw, listed, source, starts, rfl, rfl, rfl⟩

instance : Decidable (WellFormed p (contentsOf files)) :=
  decidable_of_iff
    ((∀ file ∈ files.select fun _ _ => true,
        (((p.extraction file.1 file.2.content).records file.1).map SymbolRecord.id).Nodup) ∧
      (∀ r ∈ symbolsOf p files, ∀ r' ∈ symbolsOf p files, r.id = r'.id → r = r') ∧
      ∀ ref ∈ refsOf p files, ∀ d ∈ symbolsOf p files, ∀ d' ∈ symbolsOf p files,
        Contents.Means p ref.1 ref.2.1 d → Contents.Means p ref.1 ref.2.1 d' → d = d')
    (by
      constructor
      · rintro ⟨distinct, apart, onePrimary⟩
        refine ⟨fun path content holds => ?_, fun r r' symbol symbol' => ?_,
          fun path raw source d d' ref symbol symbol' => ?_⟩
        · obtain ⟨file, found, rfl⟩ := contentsOf_eq_some.mp holds
          exact distinct (path, file) ((Rows.mem_select _ _ _ _).mpr ⟨found, rfl⟩)
        · exact apart r (mem_symbolsOf.mpr symbol) r' (mem_symbolsOf.mpr symbol')
        · exact onePrimary _ (mem_refsOf.mpr ref) d (mem_symbolsOf.mpr symbol) d'
            (mem_symbolsOf.mpr symbol')
      · intro wellFormed
        refine ⟨fun file mem => ?_, fun r symbol r' symbol' => ?_,
          fun ref mem d symbol d' symbol' => ?_⟩
        · exact wellFormed.distinct file.1 file.2.content
            (contentsOf_eq_some.mpr ⟨file.2, ((Rows.mem_select _ _ _ _).mp mem).1, rfl⟩)
        · exact wellFormed.apart r r' (mem_symbolsOf.mp symbol) (mem_symbolsOf.mp symbol')
        · exact wellFormed.onePrimary _ _ _ d d' (mem_refsOf.mp mem) (mem_symbolsOf.mp symbol)
            (mem_symbolsOf.mp symbol'))

variable {was now : Rows String SourceFile}

instance : Decidable (Undisturbed p (contentsOf was) (contentsOf now)) :=
  decidable_of_iff
    (∀ ref ∈ refsOf p now, contentsOf was ref.1 = contentsOf now ref.1 → ∀ d ∈ symbolsOf p now,
      Contents.Means p ref.1 ref.2.1 d →
        contentsOf was d.filePath = contentsOf now d.filePath)
    ⟨fun check _ _ _ d ref same symbol =>
        check _ (mem_refsOf.mpr ref) same d (mem_symbolsOf.mpr symbol),
      fun undisturbed _ mem same d symbol =>
        undisturbed _ _ _ d (mem_refsOf.mp mem) same (mem_symbolsOf.mp symbol)⟩

instance (path later : String) : Decidable (Ahead p (contentsOf was) (contentsOf now) path later) :=
  decidable_of_iff
    (contentsOf was path ≠ contentsOf now path → contentsOf was later ≠ contentsOf now later →
      ∀ ref ∈ refsOf p now, ref.1 = path → ∀ d ∈ symbolsOf p was, d.filePath = later →
        Contents.Means p path ref.2.1 d → ∀ d' ∈ symbolsOf p now,
          ¬ Contents.Means p path ref.2.1 d')
    ⟨fun check _ _ d d' changed ref changed' old here means symbol =>
        check changed changed' _ (mem_refsOf.mpr ref) rfl d (mem_symbolsOf.mpr old) here means d'
          (mem_symbolsOf.mpr symbol),
      fun ahead changed changed' _ mem here d old at_later means d' symbol =>
        ahead _ _ d d' changed (here ▸ mem_refsOf.mp mem) changed' (mem_symbolsOf.mp old) at_later
          means (mem_symbolsOf.mp symbol)⟩

instance (entry : String × SourceFile) : Decidable (Seen p was entry) :=
  decidable_of_iff
    (∀ old ∈ was.lookup entry.1, old.content ≠ entry.2.content →
      (entry.2.mtimeNs = none ∨ old.mtimeNs ≠ entry.2.mtimeNs) ∧
        p.computeContentHash old.content ≠ p.computeContentHash entry.2.content)
    Iff.rfl

instance (s : IndexedCorpus α K) (run : List (String × SourceFile)) : Decidable (Admitted p s run) :=
  decidable_of_iff
    ((run.map Prod.fst).Nodup ∧ (∀ file ∈ run, p.inIgnoredDir file.1 = false) ∧
      (∀ file ∈ run, Seen p s.files file) ∧
      WellFormed p (contentsOf (s.files.upsertAll run)) ∧
      (∀ r ∈ symbolsOf p s.files, ∀ r' ∈ symbolsOf p (s.files.upsertAll run), r.id = r'.id →
        r.filePath = r'.filePath) ∧
      Undisturbed p (contentsOf s.files) (contentsOf (s.files.upsertAll run)) ∧
      (run.map Prod.fst).Pairwise
        (Ahead p (contentsOf s.files) (contentsOf (s.files.upsertAll run))))
    ⟨fun ⟨paths, watched, seen, wellFormed, apart, undisturbed, ahead⟩ =>
        { paths, watched, seen, wellFormed, undisturbed, ahead,
          apart := fun r r' old new =>
            apart r (mem_symbolsOf.mpr old) r' (mem_symbolsOf.mpr new) },
      fun admitted => ⟨admitted.paths, admitted.watched, admitted.seen, admitted.wellFormed,
        fun r old r' new => admitted.apart r r' (mem_symbolsOf.mp old) (mem_symbolsOf.mp new),
        admitted.undisturbed, admitted.ahead⟩⟩

end Check

/-! ## Every history -/

/-- **Incremental indexing builds the graph of a run from scratch.**  Start from an empty
workspace and take any sequence of runs that keeps to `Admitted`.  Then in every state
reached, the symbols and the references are those that a run over the files of that state
puts into an empty workspace. -/
theorem incremental_eq_scratch {α K : Type} {p : Pipeline α K}
    (index : Index.HnswInner String α) (hybrid : Bool)
    (runs : List (List (String × SourceFile)))
    (admitted : EachStep (IndexedCorpus.step p) (Admitted p)
      (.fresh (Workspace.new index hybrid : Workspace α K)) runs) :
    Throughout (IndexedCorpus.step p) (IndexedCorpus.MatchesScratch p)
      (.fresh (Workspace.new index hybrid)) runs := by
  have current : Throughout (IndexedCorpus.step p) (IndexedCorpus.Current p)
      (.fresh (Workspace.new index hybrid)) runs :=
    throughout_of_eachStep (fun s files t inv ok taken => inv.step ok taken)
      (IndexedCorpus.current_fresh index hybrid) admitted
  refine current.imp fun s inv index' hybrid' files work paths same done => ?_
  have scratch := inv.scratch paths same (Workspace.new index' hybrid')
  have taken : (IndexedCorpus.fresh (Workspace.new index' hybrid')).step p files =
      some { files := Rows.upsertAll ∅ files, work } := by
    simp only [IndexedCorpus.step, IndexedCorpus.fresh, done]
    rfl
  exact inv.same ((IndexedCorpus.current_fresh index' hybrid').step scratch taken) same

/-- Two versions of a file that defines `callee`, and one of a file that calls it. -/
def graphPipeline : Pipeline Int Int :=
  { plainPipeline with
    extract := fun _ content =>
      let item := fun (name : String) =>
        ({ name, kind := .function, visibility := "pub", signature := "fn " ++ name,
           docComment := none, modulePath := [], lineStart := 1, lineEnd := 1,
           cyclomaticComplexity := none, fullText := content } : CodeSymbol)
      if content = "callee, first" ∨ content = "callee, second" then .tree [item "callee"] []
      else
        .tree [item "caller"]
          [{ targetName := "callee", kind := .calls, line := 1, fromContext := some "caller",
             targetCrate := none }] }

def firstRun : List (String × SourceFile) :=
  [("b.rs", { content := "caller, first", mtimeNs := some 1 }),
    ("a.rs", { content := "callee, first", mtimeNs := some 1 })]

/-- The caller is edited; its reference finds the definition where it was. -/
def editCaller : List (String × SourceFile) :=
  [("b.rs", { content := "caller, second", mtimeNs := some 2 })]

theorem incremental_eq_scratch_editCaller :
    ((exec (IndexedCorpus.step graphPipeline) (.fresh (Workspace.new emptyIndex true))
        [firstRun, editCaller]).any fun s => s.work.store.symbolRefs.card = 1) = true ∧
      Throughout (IndexedCorpus.step graphPipeline) (IndexedCorpus.MatchesScratch graphPipeline)
        (.fresh (Workspace.new emptyIndex true)) [firstRun, editCaller] :=
  ⟨by decide +kernel, incremental_eq_scratch emptyIndex true _ (by decide +kernel)⟩

/-- The definition is edited; the file that refers to it is not parsed again. -/
def editCallee : List (String × SourceFile) :=
  [("a.rs", { content := "callee, second", mtimeNs := some 2 })]

def finalFiles : List (String × SourceFile) :=
  [("b.rs", { content := "caller, first", mtimeNs := some 1 }),
    ("a.rs", { content := "callee, second", mtimeNs := some 2 })]

/-- The edge is gone, and a run from scratch has it. -/
theorem incremental_editCallee :
    ∃ s, exec (IndexedCorpus.step graphPipeline) (.fresh (Workspace.new emptyIndex true))
        [firstRun, editCallee] = some s ∧
      WellFormed graphPipeline (contentsOf s.files) ∧ ¬ s.MatchesScratch graphPipeline := by
  have incremental : ((exec (IndexedCorpus.step graphPipeline)
      (.fresh (Workspace.new emptyIndex true)) [firstRun, editCallee]).any fun s =>
        decide (WellFormed graphPipeline (contentsOf s.files) ∧
          s.work.store.symbolRefs.card = 0)) = true := by
    decide +kernel
  have scratch : (((Workspace.new emptyIndex true).indexFiles graphPipeline
      finalFiles).toOption.any fun work => decide (work.store.symbolRefs.card = 1)) = true := by
    decide +kernel
  obtain ⟨s, ran, holds⟩ := (Option.any_eq_true _ _).mp incremental
  obtain ⟨wellFormed, none⟩ := of_decide_eq_true holds
  obtain ⟨work, done, one⟩ := (Option.any_eq_true _ _).mp scratch
  refine ⟨s, ran, wellFormed, fun matches_scratch => ?_⟩
  have same := matches_scratch emptyIndex true finalFiles work (by decide) ?_ (toOption_eq_some done)
  · rw [same.refs, of_decide_eq_true one] at none
    cases none
  · intro path
    have files : s.files = (Rows.upsertAll ∅ firstRun).upsertAll editCallee := by
      obtain ⟨m, first, rest⟩ := (exec_cons_eq_some _).mp ran
      obtain ⟨m', second, last⟩ := (exec_cons_eq_some _).mp rest
      cases last
      rw [IndexedCorpus.step_files second, IndexedCorpus.step_files first]
      rfl
    rw [files, Rows.lookup_upsertAll, Rows.lookup_upsertAll, Rows.lookup_upsertAll]
    by_cases a : "a.rs" = path <;> by_cases b : "b.rs" = path <;>
      simp [finalFiles, firstRun, editCallee, lastOf, a, b]

end Ministr.Ingestion
