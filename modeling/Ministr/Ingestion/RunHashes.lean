/-
# Ingestion.RunHashes — what a run does to the hash rows

A run writes and removes the hash rows of the files it was given and no others
(`exec_confined`).  When it completes without being cancelled, and no file failed before
its row was written, every one of those files ends with a row for its current content
(`exec_hashed`).  A file that is skipped because the stored mtime is its own is the one
case in which the row is not looked at: there the row has to be right to begin with.
-/
import Ministr.Ingestion.WorkerFrame

namespace Ministr.Ingestion

open Ministr.Theory Ministr.Content Ministr.Index

set_option autoImplicit false

/-- The work on the file is not over, and its row is still to be written. -/
def Phase.waiting : Phase → Bool
  | .pulled => true
  | .cleared _ _ => true
  | .inserted _ _ => true
  | _ => false

section Worker

variable {α K : Type} {c : RunConfig α K} {w w' : Workspace α K} {path d : String}
  {phase phase' : Phase}

/-- The hash a worker carries, or the row it wrote, is that of the current content. -/
def HashOk (c : RunConfig α K) (s : ContentStore) (path : String) : Phase → Prop
  | .cleared _ hash => c.HashOf path hash
  | .inserted _ hash => c.HashOf path hash
  | .hashed _ => c.HashCurrent s path
  | .extracted _ => c.HashCurrent s path
  | _ => True

/-- The stored mtime is that of the file. -/
def RunConfig.MtimeSkips (c : RunConfig α K) (s : ContentStore) (path : String) : Prop :=
  Workspace.unchangedByMtime (s.getFileHash path) (c.disk.mtimeNs path) = true

instance (c : RunConfig α K) (s : ContentStore) (path : String) : Decidable (c.MtimeSkips s path) :=
  inferInstanceAs (Decidable (_ = true))

/-- What a worker step does to the hash rows. -/
structure HashMoves (c : RunConfig α K) (cancelled : Bool) (path : String)
    (w w' : Workspace α K) (phase phase' : Phase) : Prop where
  others : ∀ d, d ≠ path → w'.store.fileHashes.lookup d = w.store.fileHashes.lookup d
  own : w'.store.fileHashes.lookup path = w.store.fileHashes.lookup path ∨
    c.HashCurrent w'.store path
  ok : HashOk c w'.store path phase'
  ended : phase'.waiting = false → cancelled = true ∨ c.pipeline.inIgnoredDir path = true ∨
    c.MtimeSkips w.store path ∨ c.HashCurrent w'.store path ∨
    phase' = .failed ∧ phase.hashWritten = false

/-- A step that leaves the rows alone and the row still to be written. -/
theorem HashMoves.wait {cancelled : Bool} (hashes : w'.store.fileHashes = w.store.fileHashes)
    (ok : HashOk c w'.store path phase') (waits : phase'.waiting = true) :
    HashMoves c cancelled path w w' phase phase' where
  others := fun d _ => by rw [hashes]
  own := .inl (by rw [hashes])
  ok := ok
  ended := fun ended => by rw [waits] at ended; cases ended

/-- A step that leaves the rows alone and ends the work. -/
theorem HashMoves.stop {cancelled : Bool} (hashes : w'.store.fileHashes = w.store.fileHashes)
    (ok : HashOk c w'.store path phase')
    (ended : cancelled = true ∨ c.pipeline.inIgnoredDir path = true ∨
      c.MtimeSkips w.store path ∨ c.HashCurrent w'.store path ∨
      phase' = .failed ∧ phase.hashWritten = false) :
    HashMoves c cancelled path w w' phase phase' where
  others := fun d _ => by rw [hashes]
  own := .inl (by rw [hashes])
  ok := ok
  ended := fun _ => ended

/-- A step that writes the row of the current content. -/
theorem HashMoves.write {cancelled : Bool} {content : String}
    (reads : c.disk.read path = some content)
    (ok : ∀ s, c.HashCurrent s path → HashOk c s path phase') :
    HashMoves c cancelled path w
      { w with
        store := w.store.upsertFileHash path
          (Workspace.freshHash (c.pipeline.computeContentHash content) (c.disk.mtimeNs path)) }
      phase phase' := by
  have current := hashCurrent_upsert (s := w.store) reads (c.disk.mtimeNs path)
  refine ⟨fun d other => ?_, .inr current, ok _ current, fun _ => .inr (.inr (.inr (.inl current)))⟩
  show (w.store.fileHashes.insert path _).lookup d = _
  rw [Rows.lookup_insert_if, if_neg other]

theorem startFile_hashMoves (c : RunConfig α K) (w : Workspace α K) (path : String)
    (cancelled : Bool) :
    HashMoves c cancelled path w (startFile c cancelled w path).1 .pulled
      (startFile c cancelled w path).2 := by
  unfold startFile
  split
  · rename_i skip
    rcases Bool.or_eq_true_iff.mp skip with cancel | ignored
    · exact HashMoves.stop rfl trivial (.inl cancel)
    · exact HashMoves.stop rfl trivial (.inr (.inl ignored))
  dsimp only
  split
  · rename_i unchanged
    exact HashMoves.stop rfl trivial (.inr (.inr (.inl unchanged)))
  have fails : HashMoves c cancelled path w w .pulled .failed :=
    HashMoves.stop rfl trivial (.inr (.inr (.inr (.inr ⟨rfl, rfl⟩))))
  cases reads : c.disk.read path with
  | none => exact fails
  | some content =>
      dsimp only
      split
      · exact HashMoves.write reads fun _ _ => trivial
      · cases tree : c.treeOf path with
        | none => exact fails
        | some doc =>
            have hashOf : c.HashOf path (c.pipeline.computeContentHash content) :=
              ⟨content, reads, rfl⟩
            dsimp only
            split
            · exact HashMoves.wait teardown_fileHashes hashOf rfl
            · exact HashMoves.wait rfl hashOf rfl

theorem workerStep_hashMoves (ok : HashOk c w.store path phase) {cancelled : Bool}
    {action : WorkerAction}
    (taken : workerStep c cancelled path w action phase = some (w', phase')) :
    HashMoves c cancelled path w w' phase phase' := by
  unfold workerStep at taken
  split at taken
  · have moved := startFile_hashMoves c w path cancelled
    rw [Option.some.inj taken] at moved
    exact moved
  · split at taken
    · cases taken
      exact HashMoves.stop rfl trivial (.inr (.inr (.inr (.inr ⟨rfl, rfl⟩))))
    · rename_i store inserted
      cases taken
      exact HashMoves.wait (ContentStore.insertDocument_frame inserted).2.2 ok rfl
  · cases taken
    exact HashMoves.stop rfl trivial (.inr (.inr (.inr (.inr ⟨rfl, rfl⟩))))
  · cases taken
    obtain ⟨content, reads, rfl⟩ := ok
    exact HashMoves.write reads fun _ current => current
  · cases taken
    exact HashMoves.stop rfl trivial (.inr (.inr (.inr (.inr ⟨rfl, rfl⟩))))
  · simp only [Option.some.injEq, Prod.mk.injEq] at taken
    obtain ⟨rfl, rfl⟩ := taken
    obtain ⟨symbols, edges, same⟩ := extractCodeSymbols_tables c.pipeline.languageOf
      c.pipeline.packageGraph (s := w.store) path (c.extractionOf path)
    have current : c.HashCurrent (extractCodeSymbols c.pipeline.languageOf
        c.pipeline.packageGraph w.store path (c.extractionOf path)).1 path := by
      rw [same]
      exact ok
    refine HashMoves.stop ?_ current (.inr (.inr (.inr (.inl current))))
    rw [same]
  · rename_i written doc
    cases taken
    obtain ⟨refs, same⟩ := ContentStore.insertSymbols_frame (s := w.store.deleteSymbolsForFile path)
      (((c.extractionOf path).records path).take written)
    have current : c.HashCurrent ((w.store.deleteSymbolsForFile path).insertSymbols
        (((c.extractionOf path).records path).take written)) path := by
      rw [same]
      exact ok
    refine HashMoves.stop ?_ trivial (.inr (.inr (.inr (.inl current))))
    rw [same]
    rfl
  · cases taken

end Worker

/-! ## The run -/

namespace RunState

variable {α K : Type} {c : RunConfig α K} {files : List String} {w₀ : Workspace α K}
  {s t : RunState α K}

/-- The run works on `files` and has left every other hash row alone. -/
structure Confined (c : RunConfig α K) (files : List String) (w₀ : Workspace α K)
    (s : RunState α K) : Prop where
  queue : ∀ path ∈ s.queue, path ∈ files
  workers : ∀ path phase, s.workers.lookup path = some phase →
    path ∈ files ∧ HashOk c s.work.store path phase
  recorded : ∀ path ∈ s.indexedDocIds, path ∈ files
  rows : ∀ path, path ∉ files →
    s.work.store.fileHashes.lookup path = w₀.store.fileHashes.lookup path

theorem confined_start (c : RunConfig α K) (w₀ : Workspace α K) (files : List String) :
    Confined c files w₀ (start w₀ files) where
  queue := fun _ mem => mem
  workers := fun path phase found => by cases found
  recorded := fun path mem => absurd mem List.not_mem_nil
  rows := fun _ _ => rfl

theorem HashMoves.hashOk {path d : String} {w w' : Workspace α K} {cancelled : Bool}
    {phase phase' phase₀ : Phase} (moves : HashMoves c cancelled path w w' phase phase')
    (other : d ≠ path) (ok : HashOk c w.store d phase₀) : HashOk c w'.store d phase₀ := by
  have same : c.HashCurrent w'.store d ↔ c.HashCurrent w.store d := by
    unfold RunConfig.HashCurrent
    rw [moves.others d other]
  cases phase₀ with
  | hashed doc => exact same.mpr ok
  | extracted pairs => exact same.mpr ok
  | pulled | cleared doc hash | inserted doc hash | skipped | failed => exact ok

theorem Confined.work (confined : Confined c files w₀ s) {path : String} {phase phase' : Phase}
    {w' : Workspace α K} {cancelled : Bool} (found : s.workers.lookup path = some phase)
    (moves : HashMoves c cancelled path s.work w' phase phase') :
    Confined c files w₀ { s with work := w', workers := s.workers.insert path phase' } := by
  have mine := (confined.workers path phase found).1
  refine { confined with workers := fun d phase₀ held => ?_, rows := fun d outside => ?_ }
  · rw [Rows.lookup_insert_if] at held
    split at held
    · rename_i here
      cases held
      exact ⟨here ▸ mine, here ▸ moves.ok⟩
    · rename_i other
      obtain ⟨mem, ok⟩ := confined.workers d phase₀ held
      exact ⟨mem, HashMoves.hashOk moves other ok⟩
  · have other : d ≠ path := fun same => outside (same ▸ mine)
    exact (moves.others d other).trans (confined.rows d outside)

/-- Fewer workers. -/
theorem Confined.fewer (confined : Confined c files w₀ s) {path : String} :
    ∀ d phase, (s.workers.erase path).lookup d = some phase →
      d ∈ files ∧ HashOk c s.work.store d phase := by
  intro d phase held
  rw [Rows.lookup_erase_if] at held
  split at held
  · cases held
  · exact confined.workers d phase held

theorem Confined.producerStep (confined : Confined c files w₀ s) {event : ProducerEvent}
    (taken : s.producerStep c event = some t) : Confined c files w₀ t := by
  cases event with
  | cancel =>
      cases taken
      exact { confined with }
  | haltQueue =>
      obtain ⟨-, rfl⟩ := Option.ite_none_right_eq_some.mp taken |>.imp id Option.some.inj
      exact { confined with queue := fun path mem => absurd mem List.not_mem_nil }
  | pull =>
      simp only [RunState.producerStep] at taken
      split at taken
      · cases taken
      · rename_i path rest waiting
        obtain ⟨-, rfl⟩ := Option.ite_none_right_eq_some.mp taken |>.imp id Option.some.inj
        have mine := confined.queue path (by rw [waiting]; exact List.mem_cons_self)
        refine
          { confined with
            queue := fun d mem => confined.queue d (by rw [waiting]; exact List.mem_cons_of_mem _ mem)
            workers := fun d phase held => ?_ }
        rw [Rows.lookup_insert_if] at held
        split at held
        · rename_i here
          cases held
          exact ⟨here ▸ mine, trivial⟩
        · exact confined.workers d phase held
  | work path action =>
      obtain ⟨phase, found, rest⟩ := Option.bind_eq_some_iff.mp taken
      obtain ⟨⟨w', phase'⟩, stepped, rfl⟩ := Option.map_eq_some_iff.mp rest
      exact confined.work found (workerStep_hashMoves (confined.workers path phase found).2 stepped)
  | drain path =>
      obtain ⟨-, rfl⟩ := Option.ite_none_right_eq_some.mp taken |>.imp id Option.some.inj
      exact { confined with workers := confined.fewer }
  | sink path =>
      simp only [RunState.producerStep] at taken
      split at taken
      · rename_i found
        cases taken
        refine { confined with workers := confined.fewer, recorded := fun d mem => ?_ }
        rcases List.mem_append.mp mem with mem | mem
        · exact confined.recorded d mem
        · rw [List.mem_singleton.mp mem]
          exact (confined.workers path _ found).1
      · cases taken
  | send =>
      simp only [RunState.producerStep] at taken
      split at taken
      · obtain ⟨-, rfl⟩ := Option.ite_none_right_eq_some.mp taken |>.imp id Option.some.inj
        exact { confined with }
      · cases taken
  | sendFails =>
      obtain ⟨-, rfl⟩ := Option.ite_none_right_eq_some.mp taken |>.imp id Option.some.inj
      exact
        { confined with
          queue := fun path mem => absurd mem List.not_mem_nil
          workers := fun path phase found => by cases found }
  | endStream =>
      obtain ⟨-, rfl⟩ := Option.ite_none_right_eq_some.mp taken |>.imp id Option.some.inj
      exact { confined with }

theorem removeDocument_fileHashes (w : Workspace α K) (docId path : String) :
    (w.removeDocument docId path).store.fileHashes = w.store.fileHashes.erase path :=
  congrArg (·.erase path) (teardown_fileHashes (s := w.store))

/-- The rollback removes the rows of its documents only. -/
theorem rollback_fileHashes {docs : List String} {path : String} (other : path ∉ docs)
    (w : Workspace α K) :
    (rollbackPartialDocuments w docs).store.fileHashes.lookup path =
      w.store.fileHashes.lookup path := by
  induction docs generalizing w with
  | nil => rfl
  | cons docId docs ih =>
      rw [List.mem_cons, not_or] at other
      refine (ih other.2 (w.removeDocument docId docId)).trans ?_
      rw [removeDocument_fileHashes, Rows.lookup_erase_if, if_neg other.1]

theorem joinStep_outcome (taken : s.joinStep = some t) : t.outcome.isSome = true := by
  unfold RunState.joinStep at taken
  split at taken
  · split at taken
    · cases taken
      rfl
    · cases taken
      rfl
    · cases taken
  · cases taken

theorem Confined.joinStep (confined : Confined c files w₀ s) (taken : s.joinStep = some t) :
    ∀ path, path ∉ files →
      t.work.store.fileHashes.lookup path = w₀.store.fileHashes.lookup path := by
  intro path outside
  unfold RunState.joinStep at taken
  split at taken
  · split at taken
    · cases taken
      exact confined.rows path outside
    · cases taken
      have other : path ∉ s.indexedDocIds := fun mem => outside (confined.recorded path mem)
      exact (rollback_fileHashes other s.work).trans (confined.rows path outside)
    · cases taken
  · cases taken

variable [Component α]

/-- The consumer writes vectors, never tables; when it fails, the token is tripped. -/
theorem consumerStep_frame {event : ConsumerEvent α K} (taken : s.consumerStep event = some t) :
    ∃ work channel consumer cancelled, t = { s with work, channel, consumer, cancelled } ∧
      work.store = s.work.store ∧ (s.cancelled = true → cancelled = true) ∧
      (consumer = .failed → cancelled = true) := by
  cases event with
  | recv =>
      simp only [RunState.consumerStep] at taken
      split at taken
      · cases taken
        refine ⟨_, _, _, _, rfl, rfl, id, fun failed => ?_⟩
        split at failed <;> cases failed
      · cases taken
  | embedChunk vectors =>
      simp only [RunState.consumerStep] at taken
      split at taken
      · obtain ⟨work, stored, rfl⟩ := Option.map_eq_some_iff.mp taken
        exact ⟨_, _, _, _, rfl, (storeChunk_spec stored).1, id, nofun⟩
      · cases taken
  | embedFails vectors inserted =>
      simp only [RunState.consumerStep] at taken
      split at taken
      · cases taken
        exact ⟨_, _, _, _, rfl, (spoilChunk_spec _ _ _ _).1, fun _ => rfl, fun _ => rfl⟩
      · cases taken
  | sparse vectors =>
      simp only [RunState.consumerStep] at taken
      split at taken
      · rename_i last _
        cases taken
        refine ⟨_, _, _, _, rfl, rfl, id, fun failed => ?_⟩
        cases last <;> cases failed
      · cases taken
  | sparseFails =>
      simp only [RunState.consumerStep] at taken
      split at taken
      · cases taken
        exact ⟨_, _, _, _, rfl, rfl, fun _ => rfl, fun _ => rfl⟩
      · cases taken
  | channelClosed =>
      simp only [RunState.consumerStep] at taken
      split at taken
      · obtain ⟨-, rfl⟩ := Option.ite_none_right_eq_some.mp taken |>.imp id Option.some.inj
        refine ⟨_, _, _, _, rfl, rfl, id, fun failed => ?_⟩
        split at failed <;> cases failed
      · cases taken

theorem Confined.consumerStep (confined : Confined c files w₀ s) {event : ConsumerEvent α K}
    (taken : s.consumerStep event = some t) : Confined c files w₀ t := by
  obtain ⟨work, channel, consumer, cancelled, rfl, store, -, -⟩ := consumerStep_frame taken
  refine { confined with workers := ?_, rows := ?_ }
  · show ∀ path phase, s.workers.lookup path = some phase →
      path ∈ files ∧ HashOk c work.store path phase
    rw [store]
    exact confined.workers
  · show ∀ path, path ∉ files →
      work.store.fileHashes.lookup path = w₀.store.fileHashes.lookup path
    rw [store]
    exact confined.rows

/-- **A run keeps to its files.** -/
theorem exec_confined {events : List (RunEvent α K)}
    (ran : exec (RunState.step c) (start w₀ files) events = some t) {path : String}
    (outside : path ∉ files) :
    t.work.store.fileHashes.lookup path = w₀.store.fileHashes.lookup path := by
  have inv : Throughout (RunState.step c) (fun s => (s.outcome = none → Confined c files w₀ s) ∧
      ∀ path, path ∉ files →
        s.work.store.fileHashes.lookup path = w₀.store.fileHashes.lookup path)
      (start w₀ files) events := by
    refine throughout_of_keeps ?_ events ⟨fun _ => confined_start c w₀ files, fun _ _ => rfl⟩
    rintro s event t ⟨inv, -⟩ taken
    unfold RunState.step at taken
    split at taken
    · cases taken
    · rename_i running
      have confined := inv (Option.not_isSome_iff_eq_none.mp running)
      cases event with
      | producer event =>
          have after := confined.producerStep taken
          exact ⟨fun _ => after, after.rows⟩
      | consumer event =>
          have after := confined.consumerStep taken
          exact ⟨fun _ => after, after.rows⟩
      | join =>
          refine ⟨fun running => ?_, confined.joinStep taken⟩
          have returned := joinStep_outcome taken
          rw [running] at returned
          cases returned
  exact (inv.last ran).2 path outside

/-! ## A run that completes -/

/-- No file fails before its hash row is written. -/
def NoEarlyFailure (c : RunConfig α K) (s : RunState α K) : RunEvent α K → Prop
  | .producer (.work path action) => ∀ phase w', s.workers.lookup path = some phase →
      workerStep c s.cancelled path s.work action phase = some (w', .failed) →
      phase.hashWritten = true
  | _ => True

instance (c : RunConfig α K) (s : RunState α K) (event : RunEvent α K) :
    Decidable (NoEarlyFailure c s event) :=
  match event with
  | .producer (.work path action) =>
      decidable_of_iff
        (∀ phase ∈ s.workers.lookup path, ∀ r ∈ workerStep c s.cancelled path s.work action phase,
          r.2 = .failed → phase.hashWritten = true)
        ⟨fun fine phase w' found taken => fine phase found (w', .failed) taken rfl,
          fun fine phase found r taken failed => fine phase r.1 found (failed ▸ taken)⟩
  | .producer .cancel => isTrue trivial
  | .producer .haltQueue => isTrue trivial
  | .producer .pull => isTrue trivial
  | .producer (.drain _) => isTrue trivial
  | .producer (.sink _) => isTrue trivial
  | .producer .send => isTrue trivial
  | .producer .sendFails => isTrue trivial
  | .producer .endStream => isTrue trivial
  | .consumer _ => isTrue trivial
  | .join => isTrue trivial

/-- Where the files of a run are: still to do, or with a row for their current content. -/
structure Progress (c : RunConfig α K) (files : List String) (w₀ : Workspace α K)
    (s : RunState α K) : Prop where
  running : s.outcome = none
  confined : Confined c files w₀ s
  honest : ∀ path ∈ files, c.MtimeSkips s.work.store path → c.HashCurrent s.work.store path
  busy : s.producerEnded = false → s.cancelled = false → ∀ path ∈ files,
    path ∈ s.queue ∨ (∃ phase, s.workers.lookup path = some phase ∧ phase.waiting = true) ∨
      c.HashCurrent s.work.store path
  done : s.producerEnded = true → s.wasCancelled = false → ∀ path ∈ files,
    c.HashCurrent s.work.store path
  tripped : s.consumer = .failed → s.cancelled = true

omit [Component α] in
theorem HashMoves.current {path d : String} {w w' : Workspace α K} {cancelled : Bool}
    {phase phase' : Phase} (moves : HashMoves c cancelled path w w' phase phase')
    (current : c.HashCurrent w.store d) : c.HashCurrent w'.store d := by
  have kept : w'.store.fileHashes.lookup d = w.store.fileHashes.lookup d →
      c.HashCurrent w'.store d := by
    intro same
    unfold RunConfig.HashCurrent
    rw [same]
    exact current
  by_cases here : d = path
  · subst here
    exact moves.own.elim kept id
  · exact kept (moves.others d here)

omit [Component α] in
theorem Progress.work (progress : Progress c files w₀ s)
    (watched : ∀ path ∈ files, c.pipeline.inIgnoredDir path = false) {path : String}
    {phase phase' : Phase} {w' : Workspace α K} (found : s.workers.lookup path = some phase)
    (moves : HashMoves c s.cancelled path s.work w' phase phase')
    (fine : phase' = .failed → phase.hashWritten = true) :
    Progress c files w₀ { s with work := w', workers := s.workers.insert path phase' } := by
  have mine := (progress.confined.workers path phase found).1
  refine
    { progress with
      confined := progress.confined.work found moves
      honest := fun d listed skips => ?_
      busy := fun running notCancelled d listed => ?_
      done := fun ended notCancelled d listed =>
        HashMoves.current moves (progress.done ended notCancelled d listed) }
  · have kept : w'.store.fileHashes.lookup d = s.work.store.fileHashes.lookup d →
        c.HashCurrent w'.store d := by
      intro same
      have skipped : c.MtimeSkips s.work.store d := by
        unfold RunConfig.MtimeSkips ContentStore.getFileHash at skips ⊢
        rw [← same]
        exact skips
      exact HashMoves.current moves (progress.honest d listed skipped)
    by_cases here : d = path
    · subst here
      exact moves.own.elim kept id
    · exact kept (moves.others d here)
  · by_cases here : d = path
    · subst here
      by_cases waits : phase'.waiting = true
      · refine .inr (.inl ⟨phase', ?_, waits⟩)
        rw [Rows.lookup_insert_if, if_pos rfl]
      · refine .inr (.inr ?_)
        rcases moves.ended (Bool.eq_false_iff.mpr waits) with cancel | ignored | skips | current |
          ⟨failed, early⟩
        · rw [notCancelled] at cancel
          cases cancel
        · rw [watched d listed] at ignored
          cases ignored
        · exact HashMoves.current moves (progress.honest d listed skips)
        · exact current
        · rw [fine failed] at early
          cases early
    · rcases progress.busy running notCancelled d listed with queued | ⟨phase₀, held, waits⟩ | current
      · exact .inl queued
      · refine .inr (.inl ⟨phase₀, ?_, waits⟩)
        rw [Rows.lookup_insert_if, if_neg here]
        exact held
      · exact .inr (.inr (HashMoves.current moves current))

omit [Component α] in
/-- A worker that does not wait is not missed. -/
theorem Progress.busy_erase (progress : Progress c files w₀ s) {path : String} {phase : Phase}
    (found : s.workers.lookup path = some phase) (ended : phase.waiting = false)
    (running : s.producerEnded = false) (notCancelled : s.cancelled = false) :
    ∀ d ∈ files, d ∈ s.queue ∨
      (∃ phase, (s.workers.erase path).lookup d = some phase ∧ phase.waiting = true) ∨
      c.HashCurrent s.work.store d := by
  intro d listed
  rcases progress.busy running notCancelled d listed with queued | ⟨phase₀, held, waits⟩ | current
  · exact .inl queued
  · refine .inr (.inl ⟨phase₀, ?_, waits⟩)
    rw [Rows.lookup_erase_if, if_neg]
    · exact held
    rintro rfl
    rw [found, Option.some.injEq] at held
    rw [← held, ended] at waits
    cases waits
  · exact .inr (.inr current)

omit [Component α] in
theorem Progress.producerStep (progress : Progress c files w₀ s)
    (watched : ∀ path ∈ files, c.pipeline.inIgnoredDir path = false) {event : ProducerEvent}
    (fine : NoEarlyFailure c s (.producer event)) (taken : s.producerStep c event = some t) :
    Progress c files w₀ t := by
  have confined := progress.confined.producerStep taken
  cases event with
  | cancel =>
      cases taken
      exact { progress with confined, busy := nofun, tripped := fun _ => rfl }
  | haltQueue =>
      obtain ⟨cancelled, rfl⟩ := Option.ite_none_right_eq_some.mp taken |>.imp id Option.some.inj
      refine { progress with confined, busy := fun _ notCancelled => ?_ }
      rw [show s.cancelled = true from cancelled] at notCancelled
      cases notCancelled
  | pull =>
      simp only [RunState.producerStep] at taken
      split at taken
      · cases taken
      · rename_i path rest waiting
        obtain ⟨⟨-, -, free, -⟩, rfl⟩ :=
          Option.ite_none_right_eq_some.mp taken |>.imp id Option.some.inj
        refine { progress with confined, busy := fun running notCancelled d listed => ?_ }
        show d ∈ rest ∨ (∃ phase, (s.workers.insert path .pulled).lookup d = some phase ∧
          phase.waiting = true) ∨ c.HashCurrent s.work.store d
        by_cases here : d = path
        · refine .inr (.inl ⟨.pulled, ?_, rfl⟩)
          rw [Rows.lookup_insert_if, if_pos here]
        rw [Rows.lookup_insert_if, if_neg here]
        refine (progress.busy running notCancelled d listed).imp_left fun queued => ?_
        rw [waiting] at queued
        exact (List.mem_cons.mp queued).resolve_left here
  | work path action =>
      obtain ⟨phase, found, rest⟩ := Option.bind_eq_some_iff.mp taken
      obtain ⟨⟨w', phase'⟩, stepped, rfl⟩ := Option.map_eq_some_iff.mp rest
      refine progress.work watched found
        (workerStep_hashMoves (progress.confined.workers path phase found).2 stepped) ?_
      rintro rfl
      exact fine phase w' found stepped
  | drain path =>
      obtain ⟨⟨-, idle⟩, rfl⟩ :=
        Option.ite_none_right_eq_some.mp taken |>.imp id Option.some.inj
      refine { progress with confined, busy := fun running notCancelled => ?_ }
      rcases idle with found | found
      · exact progress.busy_erase found rfl running notCancelled
      · exact progress.busy_erase found rfl running notCancelled
  | sink path =>
      simp only [RunState.producerStep] at taken
      split at taken
      · rename_i found
        cases taken
        exact
          { progress with
            confined
            busy := fun running notCancelled =>
              progress.busy_erase found rfl running notCancelled }
      · cases taken
  | send =>
      simp only [RunState.producerStep] at taken
      split at taken
      · obtain ⟨-, rfl⟩ := Option.ite_none_right_eq_some.mp taken |>.imp id Option.some.inj
        exact { progress with confined }
      · cases taken
  | sendFails =>
      obtain ⟨⟨-, failed⟩, rfl⟩ :=
        Option.ite_none_right_eq_some.mp taken |>.imp id Option.some.inj
      refine { progress with confined, busy := nofun, done := fun _ notCancelled => ?_ }
      rw [show s.cancelled = true from progress.tripped failed] at notCancelled
      cases notCancelled
  | endStream =>
      obtain ⟨⟨running, empty, idle, -⟩, rfl⟩ :=
        Option.ite_none_right_eq_some.mp taken |>.imp id Option.some.inj
      refine { progress with confined, busy := nofun, done := fun _ notCancelled path listed => ?_ }
      rcases progress.busy running notCancelled path listed with queued | ⟨phase, held, -⟩ | current
      · rw [empty] at queued
        cases queued
      · rw [Rows.eq_empty_of_keys idle] at held
        cases held
      · exact current

theorem Progress.consumerStep (progress : Progress c files w₀ s) {event : ConsumerEvent α K}
    (taken : s.consumerStep event = some t) : Progress c files w₀ t := by
  have confined := progress.confined.consumerStep taken
  obtain ⟨work, channel, consumer, cancelled, rfl, store, stays, tripped⟩ :=
    consumerStep_frame taken
  refine
    { running := progress.running
      confined
      honest := ?_
      busy := ?_
      done := ?_
      tripped }
  · show ∀ path ∈ files, c.MtimeSkips work.store path → c.HashCurrent work.store path
    rw [store]
    exact progress.honest
  · intro running notCancelled
    show ∀ path ∈ files, path ∈ s.queue ∨
      (∃ phase, s.workers.lookup path = some phase ∧ phase.waiting = true) ∨
      c.HashCurrent work.store path
    rw [store]
    refine progress.busy running (Bool.eq_false_iff.mpr fun before => ?_)
    rw [show cancelled = false from notCancelled] at stays
    cases stays before
  · show s.producerEnded = true → s.wasCancelled = false → ∀ path ∈ files,
      c.HashCurrent work.store path
    rw [store]
    exact progress.done

omit [Component α] in
theorem Progress.joinStep (progress : Progress c files w₀ s) (taken : s.joinStep = some t) :
    t.outcome = some .ok → t.wasCancelled = false → ∀ path ∈ files,
      c.HashCurrent t.work.store path := by
  unfold RunState.joinStep at taken
  split at taken
  · rename_i ended
    split at taken
    · cases taken
      exact fun _ => progress.done ended
    · cases taken
      exact nofun
    · cases taken
  · cases taken

/-- Under way, or over with a current row for each file unless it was cut short. -/
def Hashed (c : RunConfig α K) (files : List String) (w₀ : Workspace α K) (s : RunState α K) :
    Prop :=
  Progress c files w₀ s ∨ s.outcome.isSome = true ∧
    (s.outcome = some .ok → s.wasCancelled = false → ∀ path ∈ files,
      c.HashCurrent s.work.store path)

theorem Hashed.step (watched : ∀ path ∈ files, c.pipeline.inIgnoredDir path = false)
    (hashed : Hashed c files w₀ s) {event : RunEvent α K} (fine : NoEarlyFailure c s event)
    (taken : s.step c event = some t) : Hashed c files w₀ t := by
  unfold RunState.step at taken
  split at taken
  · cases taken
  · rename_i running
    rcases hashed with progress | ⟨ended, -⟩
    · cases event with
      | producer event => exact .inl (progress.producerStep watched fine taken)
      | consumer event => exact .inl (progress.consumerStep taken)
      | join => exact .inr ⟨joinStep_outcome taken, progress.joinStep taken⟩
    · exact absurd ended running

/-- **A completed run leaves a current row for each of its files.** -/
theorem exec_hashed {events : List (RunEvent α K)}
    (watched : ∀ path ∈ files, c.pipeline.inIgnoredDir path = false)
    (honest : ∀ path ∈ files, c.MtimeSkips w₀.store path → c.HashCurrent w₀.store path)
    (fine : EachStep (RunState.step c) (NoEarlyFailure c) (start w₀ files) events)
    (ran : exec (RunState.step c) (start w₀ files) events = some t) (ok : t.outcome = some .ok)
    (notCancelled : t.wasCancelled = false) {path : String} (listed : path ∈ files) :
    c.HashCurrent t.work.store path := by
  have begun : Progress c files w₀ (start w₀ files) :=
    { running := rfl
      confined := confined_start c w₀ files
      honest
      busy := fun _ _ path listed => .inl listed
      done := fun ended => by cases ended
      tripped := fun failed => by cases failed }
  have ended : Hashed c files w₀ t :=
    exec_invariant (fun s event t inv here taken => Hashed.step watched inv here taken)
      (.inl begun) fine ran
  rcases ended with progress | ⟨-, hashed⟩
  · rw [progress.running] at ok
    cases ok
  · exact hashed ok notCancelled path listed

end RunState

end Ministr.Ingestion
