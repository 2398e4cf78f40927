/-
# Index.PersistSwap — the rename dance of `persist`, and crashes

`HnswIndex::persist` stages the whole index in a temporary sibling and swaps it in:
remove `dir.bak`, rename `dir` to `dir.bak`, rename the temporary directory to `dir`,
remove `dir.bak`.  `load` reads `dir` if it has an id map and `dir.bak` otherwise.
Each rename and each recursive delete is one step; a rename may fail, and the process
may crash before any step.

The dance is safe from a state in which `dir` is there: until the new index stands in
`dir`, the old one is in `dir` or in `dir.bak`.  A crash between the two renames, or a
rollback rename that fails, leaves the index in `dir.bak` alone.  The next persist then
clears the backup before anything is in `dir`, and from there to its second rename
nothing complete is on disk.  `persist_loadable_iff` says that this is the only way to
lose the index.
-/
import Ministr.Theory.Run

namespace Ministr.Index

open Ministr.Theory

set_option autoImplicit false

section Swap

variable {C : Type}

/-! ## The file system -/

/-- What stands under one of the three names. -/
inductive IndexDir (C : Type) where
  | absent
  /-- A directory that is not a complete index; it may have an id map. -/
  | broken (idMap : Bool)
  | complete (content : C)
  deriving DecidableEq

/-- `Path::exists`. -/
def IndexDir.exists : IndexDir C → Bool
  | .absent => false
  | _ => true

/-- `has_id_map`. -/
def IndexDir.hasIdMap : IndexDir C → Bool
  | .absent => false
  | .broken idMap => idMap
  | .complete _ => true

/-- What reading the directory gives. -/
def IndexDir.content : IndexDir C → Option C
  | .complete content => some content
  | _ => none

/-- How far a `persist` has come. -/
inductive PersistPhase (C : Type) where
  | staging (content : C)
  | staged (content : C)
  | backupCleared (content : C)
  | movedAside (content : C) (dirExisted : Bool)
  | rollingBack (content : C)
  | swappedIn (content : C)
  | backupDropped (content : C)
  deriving DecidableEq

/-- What the running `persist` is writing. -/
def PersistPhase.content : PersistPhase C → C
  | .staging c | .staged c | .backupCleared c | .movedAside c _ | .rollingBack c | .swappedIn c
  | .backupDropped c => c

/-- The three names, the `persist` that is running, and two records that no code reads:
the content of the last `persist` that returned `Ok`, and the contents of those that
crashed since. -/
structure PersistState (C : Type) where
  dir : IndexDir C
  bak : IndexDir C
  tmp : IndexDir C := .absent
  phase : Option (PersistPhase C) := none
  lastOk : Option C := none
  crashed : List C := []

/-- `HnswIndex::load`. -/
def PersistState.load (s : PersistState C) : Option C :=
  if s.dir.hasIdMap then s.dir.content
  else if s.bak.hasIdMap then s.bak.content
  else none

/-! ## The steps -/

inductive PersistEvent (C : Type) where
  /-- `persist` is called: the temporary directory is created anew. -/
  | call (content : C)
  | stage
  | stageFails
  | clearBackup
  | moveAside
  | moveAsideFails
  | swapIn
  | swapInFails
  | rollBack
  | rollBackFails
  | dropBackup
  | succeed
  | crash
  deriving DecidableEq

/-- One step; `none` when it is not the next one.  A step that ends in `Err` also
removes the temporary directory, as the code does before it returns. -/
def PersistState.step (s : PersistState C) : PersistEvent C → Option (PersistState C)
  | .call c =>
      match s.phase with
      | none => some { s with phase := some (.staging c), tmp := .broken false }
      | some _ => none
  | .stage =>
      match s.phase with
      | some (.staging c) => some { s with phase := some (.staged c), tmp := .complete c }
      | _ => none
  | .stageFails =>
      match s.phase with
      | some (.staging _) => some { s with phase := none, tmp := .absent }
      | _ => none
  | .clearBackup =>
      match s.phase with
      | some (.staged c) => some { s with phase := some (.backupCleared c), bak := .absent }
      | _ => none
  | .moveAside =>
      match s.phase with
      | some (.backupCleared c) =>
          if s.dir.exists then
            some { s with phase := some (.movedAside c true), bak := s.dir, dir := .absent }
          else some { s with phase := some (.movedAside c false) }
      | _ => none
  | .moveAsideFails =>
      match s.phase with
      | some (.backupCleared _) =>
          if s.dir.exists then some { s with phase := none, tmp := .absent } else none
      | _ => none
  | .swapIn =>
      match s.phase with
      | some (.movedAside c _) =>
          some { s with phase := some (.swappedIn c), dir := s.tmp, tmp := .absent }
      | _ => none
  | .swapInFails =>
      match s.phase with
      | some (.movedAside c true) => some { s with phase := some (.rollingBack c) }
      | some (.movedAside _ false) => some { s with phase := none, tmp := .absent }
      | _ => none
  | .rollBack =>
      match s.phase with
      | some (.rollingBack _) =>
          some { s with phase := none, dir := s.bak, bak := .absent, tmp := .absent }
      | _ => none
  | .rollBackFails =>
      match s.phase with
      | some (.rollingBack _) => some { s with phase := none, tmp := .absent }
      | _ => none
  | .dropBackup =>
      match s.phase with
      | some (.swappedIn c) => some { s with phase := some (.backupDropped c), bak := .absent }
      | _ => none
  | .succeed =>
      match s.phase with
      | some (.backupDropped c) => some { s with phase := none, lastOk := some c, crashed := [] }
      | _ => none
  | .crash =>
      match s.phase with
      | some phase => some { s with phase := none, crashed := phase.content :: s.crashed }
      | none => none

/-- What a step does, by the phase it is taken in. -/
inductive PersistState.Moves (s : PersistState C) : PersistEvent C → PersistState C → Prop
  | call {c : C} (idle : s.phase = none) :
      Moves s (.call c) { s with phase := some (.staging c), tmp := .broken false }
  | stage {c : C} (at_phase : s.phase = some (.staging c)) :
      Moves s .stage { s with phase := some (.staged c), tmp := .complete c }
  | stageFails {c : C} (at_phase : s.phase = some (.staging c)) :
      Moves s .stageFails { s with phase := none, tmp := .absent }
  | clearBackup {c : C} (at_phase : s.phase = some (.staged c)) :
      Moves s .clearBackup { s with phase := some (.backupCleared c), bak := .absent }
  | moveAside {c : C} (at_phase : s.phase = some (.backupCleared c))
      (there : s.dir.exists = true) :
      Moves s .moveAside { s with phase := some (.movedAside c true), bak := s.dir, dir := .absent }
  | nothingToMove {c : C} (at_phase : s.phase = some (.backupCleared c))
      (absent : ¬s.dir.exists = true) :
      Moves s .moveAside { s with phase := some (.movedAside c false) }
  | moveAsideFails {c : C} (at_phase : s.phase = some (.backupCleared c)) :
      Moves s .moveAsideFails { s with phase := none, tmp := .absent }
  | swapIn {c : C} {existed : Bool} (at_phase : s.phase = some (.movedAside c existed)) :
      Moves s .swapIn { s with phase := some (.swappedIn c), dir := s.tmp, tmp := .absent }
  | swapInFails {c : C} (at_phase : s.phase = some (.movedAside c true)) :
      Moves s .swapInFails { s with phase := some (.rollingBack c) }
  | firstSwapInFails {c : C} (at_phase : s.phase = some (.movedAside c false)) :
      Moves s .swapInFails { s with phase := none, tmp := .absent }
  | rollBack {c : C} (at_phase : s.phase = some (.rollingBack c)) :
      Moves s .rollBack { s with phase := none, dir := s.bak, bak := .absent, tmp := .absent }
  | rollBackFails {c : C} (at_phase : s.phase = some (.rollingBack c)) :
      Moves s .rollBackFails { s with phase := none, tmp := .absent }
  | dropBackup {c : C} (at_phase : s.phase = some (.swappedIn c)) :
      Moves s .dropBackup { s with phase := some (.backupDropped c), bak := .absent }
  | succeed {c : C} (at_phase : s.phase = some (.backupDropped c)) :
      Moves s .succeed { s with phase := none, lastOk := some c, crashed := [] }
  | crash {phase : PersistPhase C} (at_phase : s.phase = some phase) :
      Moves s .crash { s with phase := none, crashed := phase.content :: s.crashed }

theorem PersistState.step_moves {s t : PersistState C} {e : PersistEvent C}
    (taken : s.step e = some t) : s.Moves e t := by
  cases e with
  | moveAside =>
      simp only [PersistState.step] at taken
      split at taken
      · split at taken
        · cases taken
          exact .moveAside ‹_› ‹_›
        · cases taken
          exact .nothingToMove ‹_› ‹_›
      · cases taken
  | moveAsideFails =>
      simp only [PersistState.step] at taken
      split at taken
      · split at taken
        · cases taken
          exact .moveAsideFails ‹_›
        · cases taken
      · cases taken
  | swapInFails =>
      simp only [PersistState.step] at taken
      split at taken
      · cases taken
        exact .swapInFails ‹_›
      · cases taken
        exact .firstSwapInFails ‹_›
      · cases taken
  | _ =>
      simp only [PersistState.step] at taken
      split at taken
      · cases taken
        constructor
        assumption
      · cases taken

/-! ## What stands where -/

/-- The content of the last `persist` that returned, or of one that crashed since. -/
def PersistState.Current (s : PersistState C) (c : C) : Prop :=
  s.lastOk = some c ∨ c ∈ s.crashed

/-- There is nothing here, or a complete index that is current. -/
def PersistState.Clean (s : PersistState C) (d : IndexDir C) : Prop :=
  d = .absent ∨ ∃ c, d = .complete c ∧ s.Current c

/-- The new index is in `dir`. -/
def PersistPhase.swapped : PersistPhase C → Bool
  | .swappedIn _ | .backupDropped _ => true
  | _ => false

/-- What the phase of the running `persist` says about the three names. -/
def PersistState.Underway (s : PersistState C) : PersistPhase C → Prop
  | .staging _ => True
  | .staged c => s.tmp = .complete c
  | .backupCleared c => s.tmp = .complete c ∧ s.bak = .absent
  | .movedAside c dirExisted =>
      s.tmp = .complete c ∧ s.dir = .absent ∧ s.bak.exists = dirExisted
  | .rollingBack c => s.tmp = .complete c ∧ s.dir = .absent ∧ s.bak.exists = true
  | .swappedIn c => s.dir = .complete c
  | .backupDropped c => s.dir = .complete c ∧ s.bak = .absent

/-- Every step keeps this: what the phase says holds, and once a `persist` has
returned `Ok` no name holds anything but current indexes, the one being swapped in
apart. -/
structure PersistState.Ordered (s : PersistState C) : Prop where
  underway : ∀ phase, s.phase = some phase → s.Underway phase
  bak : s.lastOk ≠ none → s.Clean s.bak
  dir : s.lastOk ≠ none → (∀ phase, s.phase = some phase → phase.swapped = false) → s.Clean s.dir

/-- What a reader of the index finds: once a `persist` has returned `Ok`, `load`
succeeds, with a current index or the one of the running `persist`. -/
def PersistState.Loadable (s : PersistState C) : Prop :=
  s.lastOk ≠ none →
    ∃ c, s.load = some c ∧ (s.Current c ∨ ∃ phase, s.phase = some phase ∧ phase.content = c)

/-- The backup is cleared only while the index itself is there. -/
def BackupSpare (s : PersistState C) (e : PersistEvent C) : Prop :=
  e = .clearBackup → s.lastOk ≠ none → s.dir.exists = true

/-! ## Every step keeps the order -/

theorem PersistState.Ordered.dir_clean {s : PersistState C} (ordered : s.Ordered)
    {phase : PersistPhase C} (at_phase : s.phase = some phase) (before : phase.swapped = false) :
    s.lastOk ≠ none → s.Clean s.dir := by
  refine fun ok => ordered.dir ok fun phase' at_phase' => ?_
  rw [at_phase] at at_phase'
  cases at_phase'
  exact before

theorem PersistState.Ordered.dir_clean_idle {s : PersistState C} (ordered : s.Ordered)
    (idle : s.phase = none) : s.lastOk ≠ none → s.Clean s.dir := by
  refine fun ok => ordered.dir ok fun phase at_phase => ?_
  rw [idle] at at_phase
  cases at_phase

/-- A state whose names hold what they held, in a phase before the swap. -/
theorem PersistState.Ordered.advance {s : PersistState C} (ordered : s.Ordered)
    {tmp : IndexDir C} {phase : Option (PersistPhase C)}
    (clean : s.lastOk ≠ none → s.Clean s.dir)
    (underway : ∀ p, phase = some p → ({ s with tmp, phase } : PersistState C).Underway p) :
    ({ s with tmp, phase } : PersistState C).Ordered where
  underway := underway
  bak := ordered.bak
  dir := fun ok _ => clean ok

/-- A crash only adds to what is current. -/
theorem PersistState.Clean.crash {s : PersistState C} {d : IndexDir C} (clean : s.Clean d)
    (content : C) :
    ({ s with phase := none, crashed := content :: s.crashed } : PersistState C).Clean d := by
  rcases clean with gone | ⟨c, here, ok | since⟩
  · exact Or.inl gone
  · exact Or.inr ⟨c, here, Or.inl ok⟩
  · exact Or.inr ⟨c, here, Or.inr (List.mem_cons_of_mem _ since)⟩

/-- Once it is swapped in, the new index is in place. -/
theorem PersistState.Ordered.in_place {s : PersistState C} (ordered : s.Ordered)
    {phase : PersistPhase C} (at_phase : s.phase = some phase) (after : phase.swapped = true) :
    s.dir = .complete phase.content := by
  have here := ordered.underway _ at_phase
  cases phase with
  | swappedIn c => exact here
  | backupDropped c => exact here.1
  | _ => cases after

theorem PersistState.Ordered.step {s t : PersistState C} {e : PersistEvent C}
    (ordered : s.Ordered) (taken : s.step e = some t) : t.Ordered := by
  cases PersistState.step_moves taken with
  | call idle =>
      refine ordered.advance (ordered.dir_clean_idle idle) ?_
      rintro p ⟨⟩
      trivial
  | stage at_phase =>
      refine ordered.advance (ordered.dir_clean at_phase rfl) ?_
      rintro p ⟨⟩
      rfl
  | stageFails at_phase => exact ordered.advance (ordered.dir_clean at_phase rfl) nofun
  | clearBackup at_phase =>
      refine ⟨?_, fun _ => Or.inl rfl, fun ok _ => ordered.dir_clean at_phase rfl ok⟩
      rintro p ⟨⟩
      exact ⟨ordered.underway _ at_phase, rfl⟩
  | moveAside at_phase there =>
      obtain ⟨staged, -⟩ := ordered.underway _ at_phase
      refine ⟨?_, ordered.dir_clean at_phase rfl, fun _ _ => Or.inl rfl⟩
      rintro p ⟨⟩
      exact ⟨staged, rfl, there⟩
  | @nothingToMove c at_phase absent =>
      obtain ⟨staged, noBackup⟩ : s.tmp = .complete c ∧ s.bak = .absent :=
        ordered.underway _ at_phase
      have gone : s.dir = .absent := by
        cases dir : s.dir <;> simp_all [IndexDir.exists]
      refine ordered.advance (ordered.dir_clean at_phase rfl) ?_
      rintro p ⟨⟩
      exact ⟨staged, gone, by simp [noBackup, IndexDir.exists]⟩
  | moveAsideFails at_phase => exact ordered.advance (ordered.dir_clean at_phase rfl) nofun
  | swapIn at_phase =>
      obtain ⟨staged, -, -⟩ := ordered.underway _ at_phase
      refine ⟨?_, ordered.bak, fun _ before => ?_⟩
      · rintro p ⟨⟩
        exact staged
      · cases before _ rfl
  | swapInFails at_phase =>
      refine ordered.advance (ordered.dir_clean at_phase rfl) ?_
      rintro p ⟨⟩
      exact ordered.underway _ at_phase
  | firstSwapInFails at_phase => exact ordered.advance (ordered.dir_clean at_phase rfl) nofun
  | rollBack at_phase => exact ⟨nofun, fun _ => Or.inl rfl, fun ok _ => ordered.bak ok⟩
  | rollBackFails at_phase => exact ordered.advance (ordered.dir_clean at_phase rfl) nofun
  | dropBackup at_phase =>
      refine ⟨?_, fun _ => Or.inl rfl, fun _ before => ?_⟩
      · rintro p ⟨⟩
        exact ⟨ordered.underway _ at_phase, rfl⟩
      · cases before _ rfl
  | @succeed c at_phase =>
      obtain ⟨inPlace, noBackup⟩ : s.dir = .complete c ∧ s.bak = .absent :=
        ordered.underway _ at_phase
      exact ⟨nofun, fun _ => Or.inl noBackup, fun _ _ => Or.inr ⟨c, inPlace, Or.inl rfl⟩⟩
  | @crash phase at_phase =>
      refine ⟨nofun, fun ok => (ordered.bak ok).crash _, fun ok _ => ?_⟩
      cases before : phase.swapped with
      | false => exact (ordered.dir_clean at_phase before ok).crash _
      | true =>
          -- the new index is in place and is now that of a crashed call
          exact Or.inr ⟨_, ordered.in_place at_phase before, Or.inr List.mem_cons_self⟩

/-! ## When the index can be loaded -/

theorem IndexDir.exists_of_hasIdMap {d : IndexDir C} (map : d.hasIdMap = true) :
    d.exists = true := by
  cases d with
  | absent => cases map
  | broken _ => rfl
  | complete _ => rfl

theorem PersistState.Clean.complete {s : PersistState C} {d : IndexDir C} (clean : s.Clean d)
    (there : d.exists = true) : ∃ c, d = .complete c ∧ s.Current c := by
  rcases clean with rfl | current
  · cases there
  · exact current

/-- In an ordered state after a first `Ok`, the index can be loaded exactly when one of
the two names is there. -/
theorem PersistState.Ordered.loadable_iff {s : PersistState C} (ordered : s.Ordered) :
    s.Loadable ↔ (s.lastOk ≠ none → s.dir.exists = true ∨ s.bak.exists = true) := by
  refine forall_congr' fun ok => ⟨?_, fun there => ?_⟩
  · rintro ⟨c, loaded, -⟩
    unfold PersistState.load at loaded
    split at loaded
    · exact Or.inl (IndexDir.exists_of_hasIdMap ‹_›)
    · split at loaded
      · exact Or.inr (IndexDir.exists_of_hasIdMap ‹_›)
      · cases loaded
  · by_cases swapped : ∃ phase, s.phase = some phase ∧ phase.swapped = true
    · obtain ⟨phase, at_phase, after⟩ := swapped
      have inPlace := ordered.in_place at_phase after
      refine ⟨phase.content, ?_, Or.inr ⟨phase, at_phase, rfl⟩⟩
      simp [PersistState.load, inPlace, IndexDir.hasIdMap, IndexDir.content]
    · have clean := ordered.dir ok fun phase at_phase =>
        Bool.eq_false_iff.mpr fun after => swapped ⟨phase, at_phase, after⟩
      cases dirThere : s.dir.exists with
      | true =>
          obtain ⟨c, here, current⟩ := clean.complete dirThere
          refine ⟨c, ?_, Or.inl current⟩
          simp [PersistState.load, here, IndexDir.hasIdMap, IndexDir.content]
      | false =>
          have gone : s.dir = .absent := by
            rcases clean with gone | ⟨c, here, -⟩
            · exact gone
            · rw [here] at dirThere
              cases dirThere
          obtain ⟨c, here, current⟩ :=
            (ordered.bak ok).complete (there.resolve_left (by simp [dirThere]))
          refine ⟨c, ?_, Or.inl current⟩
          simp [PersistState.load, gone, here, IndexDir.hasIdMap, IndexDir.content]

/-- One of the two names is there. -/
def PersistState.Kept (s : PersistState C) : Prop :=
  s.lastOk ≠ none → s.dir.exists = true ∨ s.bak.exists = true

/-- A step keeps one of the names there exactly when it does not clear the backup of an
absent index. -/
theorem PersistState.Ordered.kept_iff {s t : PersistState C} {e : PersistEvent C}
    (ordered : s.Ordered) (kept : s.Kept) (taken : s.step e = some t) :
    t.Kept ↔ BackupSpare s e := by
  cases PersistState.step_moves taken with
  | clearBackup at_phase => simp [PersistState.Kept, BackupSpare, IndexDir.exists]
  | moveAside at_phase there => exact iff_of_true (fun _ => Or.inr there) nofun
  | swapIn at_phase =>
      obtain ⟨staged, -, -⟩ := ordered.underway _ at_phase
      exact iff_of_true (fun _ => Or.inl (by simp [staged, IndexDir.exists])) nofun
  | rollBack at_phase =>
      obtain ⟨-, -, backed⟩ := ordered.underway _ at_phase
      exact iff_of_true (fun _ => Or.inl backed) nofun
  | dropBackup at_phase | succeed at_phase =>
      have inPlace := ordered.in_place at_phase rfl
      exact iff_of_true (fun _ => Or.inl (by simp [inPlace, IndexDir.exists])) nofun
  | _ => exact iff_of_true kept nofun

/-! ## Every run -/

/-- **Crash safety.**  Along every run of calls, failures and crashes, from any state of
the directories, the index can be loaded in every state after the first `Ok` exactly
when no step clears the backup while the index itself is absent. -/
theorem persist_loadable_iff (dir bak : IndexDir C) (events : List (PersistEvent C))
    (t : PersistState C) (ran : exec PersistState.step { dir, bak } events = some t) :
    Throughout PersistState.step PersistState.Loadable { dir, bak } events ↔
      EachStep PersistState.step BackupSpare { dir, bak } events := by
  have start : ({ dir, bak } : PersistState C).Ordered :=
    ⟨nofun, fun ok => absurd rfl ok, fun ok => absurd rfl ok⟩
  refine throughout_iff_eachStep PersistState.Ordered (fun s e t => PersistState.Ordered.step) ?_
    start (fun ok => absurd rfl ok) ran
  intro s e t ordered loadable taken
  rw [(ordered.step taken).loadable_iff]
  exact ordered.kept_iff (ordered.loadable_iff.mp loadable) taken

/-- A first index, a second `persist` that crashes between its renames, and a third that
crashes after it cleared the backup: nothing can be loaded. -/
theorem persist_loses_index :
    ¬ ∀ (events : List (PersistEvent Nat)) (t : PersistState Nat),
      exec PersistState.step { dir := .absent, bak := .absent } events = some t → t.Loadable := by
  intro loadable
  obtain ⟨c, loaded, -⟩ := loadable
    [.call 1, .stage, .clearBackup, .moveAside, .swapIn, .dropBackup, .succeed,
      .call 2, .stage, .clearBackup, .moveAside, .crash,
      .call 3, .stage, .clearBackup, .crash]
    _ rfl (by decide)
  cases loaded

instance [DecidableEq C] (s : PersistState C) (e : PersistEvent C) : Decidable (BackupSpare s e) :=
  inferInstanceAs (Decidable (e = .clearBackup → s.lastOk ≠ none → s.dir.exists = true))

/-- A failed swap that is rolled back and a crash between the renames. -/
theorem persist_loadable_iff_interrupted :
    Throughout PersistState.step PersistState.Loadable
      { dir := .absent, bak := .absent }
      ([.call 1, .stage, .clearBackup, .moveAside, .swapIn, .dropBackup, .succeed,
        .call 2, .stage, .clearBackup, .moveAside, .swapInFails, .rollBack,
        .call 3, .stage, .clearBackup, .moveAside, .crash] : List (PersistEvent Nat)) :=
  (persist_loadable_iff _ _ _ _ rfl).mpr (by decide)

end Swap

end Ministr.Index
