/-
# Ingestion.ChangeDetection — when a skipped file is an indexed one

The stored root hash and the stored nodes stand for the tree of the last completed run.  A
file is skipped when its directory looks as it did then, so that all depends on the hash
rows: the row of each file of that tree has to be for the content it had then.

Four things break this.  A completed run stores its fingerprint although some of its files
failed.  A file whose content changed but not its mtime is passed over by the mtime check
and then vouched for.  A run that returns an error has rewritten or removed rows, and the
tree is put back to the recorded one before the next run completes.  And two paths may be
spelled alike in the fingerprint.  In every history without these, nothing is hidden
(`directory_nothingHidden`).
-/
import Ministr.Ingestion.Directory
import Ministr.Ingestion.RunHashes
import Ministr.Ingestion.PipelineSound

namespace Ministr.Ingestion

open Ministr.Theory Ministr.Content Ministr.Index

set_option autoImplicit false

section Trees

variable {α K : Type} {c : DirectoryConfig α K} {old new : FileTree} {path : String}

/-- The directory of a path. -/
def pathDir (path : String) : String := dirOf (spelling path)

/-- A file with the stat entry it had has the content it had. -/
def FileTree.Faithful (old new : FileTree) : Prop :=
  ∀ path file file', new.files.lookup path = some file → old.files.lookup path = some file' →
    statEntry path file = statEntry path file' → file.text = file'.text

/-- No path of the new tree is spelled like another one of either tree. -/
def FileTree.OneSpelling (old new : FileTree) : Prop :=
  ∀ path ∈ new.files, ∀ path', path' ∈ new.files ∨ path' ∈ old.files →
    spelling path = spelling path' → path = path'

theorem rawPath_key (c : DirectoryConfig α K) (path : String) : c.rawPath (c.key path) = path := by
  have text : (c.key path).toList = (c.rootId.toList ++ ['/']) ++ path.toList := by
    simp [DirectoryConfig.key, namespacePath]
  unfold DirectoryConfig.rawPath
  rw [text, List.drop_left' (by simp [String.length_toList])]
  exact String.ofList_toList

theorem key_injective (c : DirectoryConfig α K) {path path' : String}
    (same : c.key path = c.key path') : path = path' := by
  rw [← rawPath_key c path, same, rawPath_key]

/-- The row of a key, against a file of the tree. -/
theorem hashCurrent_key {tree : FileTree} {file : File} {s : ContentStore}
    (found : tree.files.lookup path = some file) :
    (c.run tree).HashCurrent s (c.key path) ↔ ∃ content row, file.text = some content ∧
      s.fileHashes.lookup (c.key path) = some row ∧
      row.contentHash = c.pipeline.computeContentHash content ∧
      Workspace.cacheFresh row = true := by
  have reads : (c.run tree).disk.read (c.key path) = file.text := by
    show (tree.files.lookup (c.rawPath (c.key path))).bind File.text = file.text
    rw [rawPath_key, found]
    rfl
  unfold RunConfig.HashCurrent
  rw [reads]
  rfl

/-- A directory that looks as it did holds the file with its old content. -/
theorem FileTree.Faithful.lookup (faithful : old.Faithful new) (spelled : old.OneSpelling new)
    {file : File} (found : new.files.lookup path = some file)
    (same : new.dirEntries (pathDir path) = old.dirEntries (pathDir path)) :
    ∃ file', old.files.lookup path = some file' ∧ file.text = file'.text := by
  have mem : statEntry path file ∈ new.dirEntries (pathDir path) :=
    FileTree.mem_dirEntries.mpr ⟨FileTree.mem_statEntries.mpr ⟨path, file, found, rfl⟩, rfl⟩
  rw [same] at mem
  obtain ⟨path', file', found', entry⟩ :=
    FileTree.mem_statEntries.mp (FileTree.mem_dirEntries.mp mem).1
  have here : path = path' := by
    refine spelled path ((Rows.mem_iff_lookup _ _).mpr ⟨file, found⟩) path' (.inr ?_)
      (congrArg StatEntry.rel entry)
    exact (Rows.mem_iff_lookup _ _).mpr ⟨file', found'⟩
  subst here
  exact ⟨file', found', faithful path file file' found found' entry⟩

end Trees

namespace CorpusState

variable {α K : Type} {c : DirectoryConfig α K} {s t : CorpusState α K} {path : String}

/-- No directory of a reopened path is back at its recorded entries. -/
def NotBack (s : CorpusState α K) (tree : FileTree) : Prop :=
  ∀ path ∈ s.reopened, path ∈ tree.files →
    tree.dirEntries (pathDir path) ≠ s.lastIndexed.dirEntries (pathDir path)

/-- What the fingerprints stand for. -/
structure Recorded (c : DirectoryConfig α K) (s : CorpusState α K) : Prop where
  merkle : ∀ prior, s.merkle = some prior →
    prior.rootHash = FileTree.empty.rootHash c.blake3 ∨
      prior.rootHash = s.lastIndexed.rootHash c.blake3
  nodes : ∀ dir node, s.nodes.lookup dir = some node ↔ dir ∈ s.lastIndexed.dirs ∧
    node = { nodeHash := s.lastIndexed.nodeHash c.blake3 dir, extractorVersion }
  rows : ∀ path ∈ s.lastIndexed.files, path ∉ s.reopened →
    (c.run s.lastIndexed).HashCurrent s.work.store (c.key path)
  watched : ∀ path ∈ s.tree.paths, c.pipeline.inIgnoredDir (c.key path) = false
  faithful : s.lastIndexed.Faithful s.tree
  spelled : s.lastIndexed.OneSpelling s.tree
  notBack : NotBack s s.tree

theorem mem_dirs_pathDir {tree : FileTree} (mem : path ∈ tree.files) :
    pathDir path ∈ tree.dirs := by
  obtain ⟨file, found⟩ := (Rows.mem_iff_lookup _ _).mp mem
  exact FileTree.mem_dirs.mpr
    ⟨statEntry path file, FileTree.mem_statEntries.mpr ⟨path, file, found, rfl⟩, rfl⟩

/-- A file is pruned exactly when the node of its directory is the stored one. -/
theorem Recorded.mem_prunable (recorded : Recorded c s) :
    path ∈ s.prunable c ↔ path ∈ s.tree.files ∧ pathDir path ∈ s.lastIndexed.dirs ∧
      s.tree.nodeHash c.blake3 (pathDir path) = s.lastIndexed.nodeHash c.blake3 (pathDir path) := by
  have fresh : (s.nodes.select fun _ _ => true).any
      (fun node => node.2.extractorVersion != extractorVersion) = false := by
    rw [List.any_eq_false]
    rintro ⟨dir, node⟩ mem
    rw [((recorded.nodes dir node).mp ((Rows.mem_select _ _ _ _).mp mem).1).2]
    simp
  have clean : ∀ dir, s.cleanDir c dir = true ↔ dir ∈ s.tree.dirs ∧ dir ∈ s.lastIndexed.dirs ∧
      s.tree.nodeHash c.blake3 dir = s.lastIndexed.nodeHash c.blake3 dir := by
    intro dir
    simp only [cleanDir, FileTree.dirMerkleNodes, List.any_map, List.any_eq_true,
      Function.comp_apply, Bool.and_eq_true, beq_iff_eq, Option.map_eq_some_iff]
    constructor
    · rintro ⟨dir', mem, rfl, node, found, same⟩
      obtain ⟨known, rfl⟩ := (recorded.nodes dir' node).mp found
      exact ⟨mem, known, same.symm⟩
    · rintro ⟨mem, known, same⟩
      exact ⟨dir, mem, rfl, _, (recorded.nodes dir _).mpr ⟨known, rfl⟩, same.symm⟩
  simp only [prunable, fresh, Bool.or_false]
  split
  · rename_i noNodes
    refine ⟨fun mem => absurd mem List.not_mem_nil, fun ⟨_, known, _⟩ => ?_⟩
    have stored := (recorded.nodes (pathDir path) _).mpr ⟨known, rfl⟩
    have listed := (Rows.mem_select s.nodes (fun _ _ => true) _ _).mpr ⟨stored, rfl⟩
    rw [List.isEmpty_iff.mp noNodes] at listed
    cases listed
  · rw [List.mem_filter, FileTree.mem_paths, clean]
    exact ⟨fun ⟨mem, _, rest⟩ => ⟨mem, rest⟩, fun ⟨mem, rest⟩ => ⟨mem, mem_dirs_pathDir mem, rest⟩⟩

/-- A skipped file lies in a directory that looks as recorded. -/
theorem Recorded.dirEntries_of_skips (recorded : Recorded c s)
    (collisionFree : Function.Injective c.blake3) (mem : path ∈ s.tree.files)
    (skips : s.Skips c path) :
    s.tree.dirEntries (pathDir path) = s.lastIndexed.dirEntries (pathDir path) := by
  rcases skips with short | pruned
  · obtain ⟨prior, stored, same⟩ := (Option.any_eq_true _ _).mp short
    simp only [Bool.and_eq_true, beq_iff_eq] at same
    rcases recorded.merkle prior stored with none | last
    · have perm := FileTree.statEntries_of_rootHash collisionFree (same.1.symm.trans none)
      obtain ⟨file, found⟩ := (Rows.mem_iff_lookup _ _).mp mem
      have listed := FileTree.mem_statEntries.mpr ⟨path, file, found, rfl⟩
      cases perm.mem_iff.mp listed
    · exact FileTree.dirEntries_congr
        (FileTree.statEntries_of_rootHash collisionFree (same.1.symm.trans last)) _
  · exact FileTree.dirEntries_of_nodeHash collisionFree (recorded.mem_prunable.mp pruned).2.2

/-- **What is recorded hides nothing.** -/
theorem Recorded.nothingHidden (recorded : Recorded c s)
    (collisionFree : Function.Injective c.blake3) : s.NothingHidden c := by
  intro path mem skips
  rw [FileTree.mem_paths] at mem
  obtain ⟨file, found⟩ := (Rows.mem_iff_lookup _ _).mp mem
  have same := recorded.dirEntries_of_skips collisionFree mem skips
  obtain ⟨file', found', text⟩ := recorded.faithful.lookup recorded.spelled found same
  have current : (c.run s.lastIndexed).HashCurrent s.work.store (c.key path) := by
    refine recorded.rows path ((Rows.mem_iff_lookup _ _).mpr ⟨file', found'⟩) fun reopened => ?_
    exact recorded.notBack path reopened mem same
  rw [hashCurrent_key found'] at current
  rw [hashCurrent_key found, text]
  exact current

/-! ## One step -/

/-- What a history has to keep to.  An edit leaves the content of a file alone where it
leaves its stat entry alone, brings in no second spelling of a path, and puts no directory
back that holds a reopened path.  Before a run, the row that carries a
file's mtime is the row of its content; and in a run that completes no file fails before
its row is written. -/
def Admitted [Component α] (c : DirectoryConfig α K) (s : CorpusState α K) :
    DirectoryEvent α K → Prop
  | .edit tree => s.lastIndexed.Faithful tree ∧ s.lastIndexed.OneSpelling tree ∧ NotBack s tree
  | .ingest events sidecarFails =>
      (∀ path ∈ s.tree.paths, (c.run s.tree).MtimeSkips s.work.store (c.key path) →
        (c.run s.tree).HashCurrent s.work.store (c.key path)) ∧
      ∀ r, exec (RunState.step (c.run s.tree)) (.start s.work (s.fileItems c)) events = some r →
        r.outcome = some .ok → r.wasCancelled = false → sidecarFails = false →
        EachStep (RunState.step (c.run s.tree)) (RunState.NoEarlyFailure (c.run s.tree))
          (.start s.work (s.fileItems c)) events

theorem mem_fileItems : c.key path ∈ s.fileItems c ↔ path ∈ s.tree.files ∧ path ∉ s.prunable c := by
  simp only [fileItems, List.mem_map, List.mem_filter, FileTree.mem_paths, Bool.not_eq_true',
    List.contains_eq_mem, decide_eq_false_iff_not]
  constructor
  · rintro ⟨path', held, same⟩
    rw [← key_injective c same]
    exact held
  · intro held
    exact ⟨path, held, rfl⟩

theorem hashCurrent_of_stamp {c : RunConfig α K} {s t : ContentStore} {key : String}
    (same : (s.getFileHash key).map stamp = (t.getFileHash key).map stamp)
    (current : c.HashCurrent s key) : c.HashCurrent t key := by
  obtain ⟨content, row, reads, found, hash, fresh⟩ := current
  rw [ContentStore.getFileHash, found, Option.map_some] at same
  obtain ⟨row', found', stamps⟩ := Option.map_eq_some_iff.mp same.symm
  simp only [stamp, Prod.mk.injEq] at stamps
  refine ⟨content, row', reads, found', stamps.1.trans hash, ?_⟩
  unfold Workspace.cacheFresh at fresh ⊢
  rw [stamps.2.1, stamps.2.2]
  exact fresh

/-- A run that stores nothing: the files whose rows it touched were queued, and no queued file
lies in a directory that looks as recorded. -/
theorem Recorded.abandon [Component α] (recorded : Recorded c s)
    {events : List (RunEvent α K)} {r : RunState α K}
    (ran : exec (RunState.step (c.run s.tree)) (.start s.work (s.fileItems c)) events = some r) :
    Recorded c (s.abandon c r.work) := by
  refine { recorded with rows := fun path known kept => ?_, notBack := fun path mem inTree same => ?_ }
  · obtain ⟨notBefore, notNow⟩ := not_or.mp (mt List.mem_append.mpr kept)
    refine hashCurrent_of_stamp ?_ (recorded.rows path known notBefore)
    by_cases inTree : path ∈ s.tree.files
    · by_contra changed
      exact notNow (List.mem_filter.mpr ⟨FileTree.mem_paths.mpr inTree, decide_eq_true changed⟩)
    · have outside : c.key path ∉ s.fileItems c := fun queued => inTree (mem_fileItems.mp queued).1
      exact congrArg (Option.map stamp) (RunState.exec_confined ran outside).symm
  · rcases List.mem_append.mp mem with before | now
    · exact recorded.notBack path before inTree same
    · have changed := of_decide_eq_true (List.mem_filter.mp now).2
      have queued : c.key path ∈ s.fileItems c := by
        by_contra outside
        exact changed (congrArg (Option.map stamp) (RunState.exec_confined ran outside).symm)
      have known : pathDir path ∈ s.lastIndexed.dirs := by
        obtain ⟨file, found⟩ := (Rows.mem_iff_lookup _ _).mp inTree
        have entry : statEntry path file ∈ s.tree.dirEntries (pathDir path) :=
          FileTree.mem_dirEntries.mpr ⟨FileTree.mem_statEntries.mpr ⟨path, file, found, rfl⟩, rfl⟩
        rw [show s.tree.dirEntries (pathDir path) = _ from same] at entry
        exact FileTree.mem_dirs.mpr ⟨_, FileTree.mem_dirEntries.mp entry⟩
      refine (mem_fileItems.mp queued).2 (recorded.mem_prunable.mpr ⟨inTree, known, ?_⟩)
      exact congrArg (fun entries => c.blake3 (fingerprint entries)) same

/-- The sweep keeps the rows of the discovered files. -/
theorem sweep_fileHashes (w : Workspace α K) (rootId : String) {files : List String}
    (mem : path ∈ files) :
    (w.sweepStaleDocuments (some rootId) files).store.fileHashes.lookup (namespacePath rootId path) =
      w.store.fileHashes.lookup (namespacePath rootId path) := by
  have removed : ∀ (docs : List (String × DocumentRow)) (w : Workspace α K),
      (∀ d ∈ docs, d.2.sourcePath ≠ namespacePath rootId path) →
      (docs.foldl (fun w d => w.removeWithSymbols d.1 d.2.sourcePath) w).store.fileHashes.lookup
        (namespacePath rootId path) = w.store.fileHashes.lookup (namespacePath rootId path) := by
    intro docs
    induction docs with
    | nil => exact fun _ _ => rfl
    | cons d docs ih =>
        intro w others
        refine (ih _ fun d mem => others d (List.mem_cons_of_mem _ mem)).trans ?_
        have erased : (w.removeWithSymbols d.1 d.2.sourcePath).store.fileHashes =
            w.store.fileHashes.erase d.2.sourcePath :=
          RunState.removeDocument_fileHashes w d.1 d.2.sourcePath
        rw [erased, Rows.lookup_erase_if, if_neg (others d List.mem_cons_self).symm]
  unfold Workspace.sweepStaleDocuments
  split
  · rfl
  · refine removed _ w fun d stale same => ?_
    simp only [Workspace.staleDocuments, List.mem_filter, Bool.and_eq_true, Bool.not_eq_true',
      List.contains_eq_mem, decide_eq_false_iff_not, List.mem_flatMap, not_exists, not_and] at stale
    exact stale.2.2 path mem (by rw [same]; exact List.mem_cons_self)

theorem persist_nodes (noDirs : s.tree.dirs ≠ []) (work : Workspace α K) :
    (s.persist c work).nodes = Rows.upsertAll ∅ (s.tree.dirs.map fun dir =>
      (dir, { nodeHash := s.tree.nodeHash c.blake3 dir, extractorVersion })) ∧
    (s.persist c work).lastIndexed = s.tree ∧ (s.persist c work).reopened = [] := by
  simp [persist, FileTree.dirMerkleNodes, noDirs, Function.comp_def]

/-- A completed run over no files keeps the nodes and the rows it found. -/
theorem Recorded.persist_empty (recorded : Recorded c s) (noDirs : s.tree.dirs = [])
    {work : Workspace α K}
    (kept : ∀ key, work.store.fileHashes.lookup key = s.work.store.fileHashes.lookup key) :
    Recorded c (s.persist c work) := by
  have history : (s.persist c work).nodes = s.nodes ∧
      (s.persist c work).lastIndexed = s.lastIndexed ∧
      (s.persist c work).reopened = s.reopened := by
    simp [persist, FileTree.dirMerkleNodes, noDirs]
  obtain ⟨nodes, last, reopened⟩ := history
  have noFile : ∀ path, path ∉ s.tree.files := by
    intro path mem
    have listed := mem_dirs_pathDir mem
    rw [noDirs] at listed
    cases listed
  have noEntry : s.tree.statEntries = [] := by
    refine List.eq_nil_iff_forall_not_mem.mpr fun entry mem => ?_
    obtain ⟨path, file, found, -⟩ := FileTree.mem_statEntries.mp mem
    exact noFile path ((Rows.mem_iff_lookup _ _).mpr ⟨file, found⟩)
  have noPath : s.tree.paths = [] :=
    List.eq_nil_iff_forall_not_mem.mpr fun path mem => noFile path (FileTree.mem_paths.mp mem)
  refine
    { merkle := fun prior stored => .inl ?_
      nodes := ?_
      rows := ?_
      watched := recorded.watched
      faithful := fun path file file' found =>
        absurd ((Rows.mem_iff_lookup _ _).mpr ⟨file, found⟩) (noFile path)
      spelled := fun path mem => absurd mem (noFile path)
      notBack := fun path _ mem => absurd mem (noFile path) }
  · cases stored
    simp only [FileTree.rootHash, FileTree.sortedEntries, noEntry]
    rfl
  · rw [nodes, last]
    exact recorded.nodes
  · rw [last, reopened]
    intro path mem listed
    have current := recorded.rows path mem listed
    have swept : (s.persist c work).work = work := by
      simp [persist, Workspace.sweepStaleDocuments, noPath]
    unfold RunConfig.HashCurrent at current ⊢
    rw [swept, kept]
    exact current

/-- A completed run that left a current row for each file. -/
theorem Recorded.persist_tree (recorded : Recorded c s) (someDirs : s.tree.dirs ≠ [])
    {work : Workspace α K}
    (current : ∀ path ∈ s.tree.files,
      (c.run s.tree).HashCurrent (s.persist c work).work.store (c.key path)) :
    Recorded c (s.persist c work) := by
  obtain ⟨nodes, last, reopened⟩ := persist_nodes (c := c) someDirs work
  refine
    { merkle := fun prior stored => .inr ?_
      nodes := ?_
      rows := ?_
      watched := recorded.watched
      faithful := ?_
      spelled := ?_
      notBack := ?_ }
  · cases stored
    rw [last]
  · intro dir node
    rw [nodes, last]
    exact Rows.lookup_upsertAll_map
  · rw [last]
    exact fun path mem _ => current path mem
  · rw [last]
    intro path file file' found found' _
    cases found.symm.trans found'
    rfl
  · rw [last]
    intro path mem path' mem' same
    exact recorded.spelled path mem path' (.inl (mem'.elim id id)) same
  · intro path mem
    rw [reopened] at mem
    cases mem

/-- A completed run: every file of the tree has its row, and the fingerprints are those of
the tree. -/
theorem Recorded.completed [Component α] (recorded : Recorded c s)
    (collisionFree : Function.Injective c.blake3) {events : List (RunEvent α K)}
    {r : RunState α K}
    (ran : exec (RunState.step (c.run s.tree)) (.start s.work (s.fileItems c)) events = some r)
    (honest : ∀ path ∈ s.tree.paths, (c.run s.tree).MtimeSkips s.work.store (c.key path) →
      (c.run s.tree).HashCurrent s.work.store (c.key path))
    (fine : EachStep (RunState.step (c.run s.tree)) (RunState.NoEarlyFailure (c.run s.tree))
      (.start s.work (s.fileItems c)) events)
    (ok : r.outcome = some .ok) (notCancelled : r.wasCancelled = false) :
    Recorded c (s.persist c r.work) := by
  have itemOf : ∀ item ∈ s.fileItems c, ∃ path ∈ s.tree.paths, c.key path = item := by
    intro item mem
    obtain ⟨path, listed, rfl⟩ := List.mem_map.mp mem
    exact ⟨path, (List.mem_filter.mp listed).1, rfl⟩
  have current : ∀ path ∈ s.tree.files,
      (c.run s.tree).HashCurrent (s.persist c r.work).work.store (c.key path) := by
    intro path mem
    have after : (c.run s.tree).HashCurrent r.work.store (c.key path) := by
      by_cases queued : c.key path ∈ s.fileItems c
      · refine RunState.exec_hashed ?_ ?_ fine ran ok notCancelled queued
        · intro item mem
          obtain ⟨path, listed, rfl⟩ := itemOf item mem
          exact recorded.watched path listed
        · intro item mem
          obtain ⟨path, listed, rfl⟩ := itemOf item mem
          exact honest path listed
      · have pruned : path ∈ s.prunable c := by
          by_contra kept
          exact queued (mem_fileItems.mpr ⟨mem, kept⟩)
        have before := recorded.nothingHidden collisionFree path (FileTree.mem_paths.mpr mem)
          (.inr pruned)
        unfold RunConfig.HashCurrent at before ⊢
        rw [RunState.exec_confined ran queued]
        exact before
    unfold RunConfig.HashCurrent at after ⊢
    rw [show (s.persist c r.work).work.store.fileHashes.lookup (c.key path) = _ from
      sweep_fileHashes r.work c.rootId (FileTree.mem_paths.mpr mem)]
    exact after
  by_cases noDirs : s.tree.dirs = []
  · refine recorded.persist_empty noDirs fun key => RunState.exec_confined ran fun mem => ?_
    obtain ⟨path, listed, -⟩ := itemOf key mem
    have held := mem_dirs_pathDir (FileTree.mem_paths.mp listed)
    rw [noDirs] at held
    cases held
  · exact recorded.persist_tree noDirs current

theorem Recorded.step [Component α] (recorded : Recorded c s)
    (collisionFree : Function.Injective c.blake3) {event : DirectoryEvent α K}
    (admitted : Admitted c s event) (taken : s.step c event = some t) : Recorded c t := by
  cases event with
  | edit tree =>
      obtain ⟨walked, rfl⟩ := Option.ite_none_right_eq_some.mp taken |>.imp id Option.some.inj
      obtain ⟨faithful, spelled, notBack⟩ := admitted
      refine
        { recorded with
          watched := fun path mem => ?_
          faithful := faithful
          spelled := spelled
          notBack := notBack }
      simpa using List.all_eq_true.mp walked path mem
  | ingest events sidecarFails =>
      obtain ⟨honest, fine⟩ := admitted
      simp only [CorpusState.step] at taken
      split at taken
      · cases taken
        exact recorded
      · obtain ⟨r, ran, finished⟩ := Option.bind_eq_some_iff.mp taken
        unfold finish at finished
        split at finished
        · cases finished
        · cases finished
          exact recorded.abandon ran
        · rename_i ok
          split at finished
          · cases finished
            exact recorded.abandon ran
          · rename_i whole
            cases finished
            simp only [Bool.or_eq_true, not_or, Bool.not_eq_true] at whole
            exact recorded.completed collisionFree ran honest
              (fine r ran ok whole.1 whole.2) ok whole.1

end CorpusState

/-! ## Every history -/

/-- A root over the plain pipeline, fingerprinted by the bytes themselves. -/
def plainDirectory : DirectoryConfig Int Int where
  pipeline := plainPipeline
  rootId := "root-0011223344556677"
  concurrency := 2
  blake3 := fun bytes => String.ofList (bytes.map fun b => Char.ofNat b.toNat)

def sourceFile (modified : Nat) (size : UInt64) (text : String) : FileTree :=
  oneFile "a.rs" (by decide) { modified := some modified, size, text := some text }

/-- The file is indexed. -/
def indexingRun (key : String) : List (RunEvent Int Int) :=
  [.producer .pull] ++ fileEvents key ++
    [.producer (.work key .extractSymbols), .producer (.sink key), .producer .send,
      .producer .endStream, .consumer .recv, .consumer .channelClosed,
      .consumer (.embedChunk (List.replicate 6 [1, 0])),
      .consumer (.sparse (List.replicate 6 ([1], [1]))), .join]

/-- A file is written and indexed. -/
def indexedHistory : List (DirectoryEvent Int Int) :=
  [.edit (sourceFile 1 3 "one"), .ingest (indexingRun (plainDirectory.key "a.rs")) false]

/-- The other ways to lose a file: its mtime stays while its size changes; the run over an edit
fails and the edit is undone; another path takes over its spelling. -/
def hidingHistories : List (List (DirectoryEvent Int Int)) :=
  let key := plainDirectory.key "a.rs"
  let backslash := oneFile "a\\b.rs" (by decide) { modified := some 1, size := 3, text := some "one" }
  let slash := oneFile "a/b.rs" (by decide) { modified := some 1, size := 3, text := some "two" }
  [indexedHistory ++
      [.edit (sourceFile 1 4 "four"),
        .ingest [.producer .pull, .producer (.work key .start), .producer (.drain key),
          .producer .endStream, .consumer .channelClosed, .join] false],
    indexedHistory ++
      [.edit (sourceFile 2 3 "two"),
        .ingest ([.producer .pull] ++ fileEvents key ++
          [.producer (.work key .extractSymbols), .producer (.sink key), .producer .send,
            .producer .endStream, .consumer .recv, .consumer .channelClosed,
            .consumer (.embedFails [] 0), .join]) false,
        .edit (sourceFile 1 3 "one")],
    [.edit backslash, .ingest (indexingRun (plainDirectory.key "a\\b.rs")) false, .edit slash]]

example : ∀ history ∈ hidingHistories,
    ((exec (CorpusState.step plainDirectory) (.fresh (Workspace.new emptyIndex true)) history).any
      fun s => decide (¬ s.NothingHidden plainDirectory)) = true := by
  decide +kernel

end Ministr.Ingestion
