/-
# Daemon.Restore — start-up restore of the corpora in the manifest

`restore` reads `corpora.json` and brings its corpora back.  An entry whose id is not
the canonical id of its paths has its directory renamed, and its old id is claimed, so
that a save drops the old entry.  An entry none of whose paths exists any more is dead:
its id is claimed too, and it leaves a tombstone.  The live entries are registered, at
most eight at a time; `register` computes the canonical id by itself.  At the end
`restore` saves the manifest itself when two live entries had one canonical id.  Then it
prunes: it records the tombstones, leaves the directories of the dead entries to be
removed, and saves the manifest if there were only dead ones.

The registers are the calls of `Daemon.Manifest`, and interleave freely; so do the removals
with what comes after the prune.  Which loads, renames and removals fail is an input.  This
is the self-hosted mode, and every save succeeds.
-/
import Ministr.Daemon.CorpusId
import Ministr.Daemon.Manifest

namespace Ministr.Daemon

open Ministr.Theory

set_option autoImplicit false

section Entries

variable (sha256 : List UInt8 → List UInt8) (present : String → Bool)

/-- A remote path keeps an entry alive, and so does a local one that exists. -/
def entryIsLive (paths : List String) : Bool :=
  !paths.isEmpty && paths.any fun p =>
    match classifyCorpusPath p with
    | .localPath path => present path
    | .web _ | .git _ => true

variable (entries : List ManifestEntry)

def liveEntries : List ManifestEntry := entries.filter fun e => entryIsLive present e.paths

def deadEntries : List ManifestEntry := entries.filter fun e => !entryIsLive present e.paths

/-- The old and the new id of each entry whose id is not canonical. -/
def migrationEntries : List (String × String) :=
  entries.filterMap fun e =>
    match corpusIdFromPaths sha256 e.paths with
    | .ok newId => if newId ≠ e.id then some (e.id, newId) else none
    | .error _ => none

/-- The ids that `restore` owns before any corpus is loaded. -/
def claimedIds : Finset String :=
  ((migrationEntries sha256 entries).map Prod.fst ++ ids (deadEntries present entries)).toFinset

/-- Two live entries have one canonical id. -/
def duplicateCanonical : Bool :=
  let canonicalIds := (liveEntries present entries).filterMap fun e =>
    (corpusIdFromPaths sha256 e.paths).toOption
  decide ¬canonicalIds.Nodup

/-- What `register` makes of the entries, in the order of the calls. -/
def targetsOf (es : List ManifestEntry) : List (String × List String) :=
  es.filterMap fun e => (registerTarget sha256 e.paths).toOption

end Entries

/-! ## Directories and tombstones -/

section Directories

variable {δ : Type}

/-- One rename of the migration; `renamed` says how it ends.  A directory that exists is
never renamed over. -/
def migrateDir (renamed : Bool) (dirs : Rows String δ) (oldId newId : String) : Rows String δ :=
  match dirs.lookup oldId with
  | none => dirs
  | some content =>
      if newId ∈ dirs then dirs
      else if renamed then (dirs.erase oldId).insert newId content
      else dirs

/-- The renames, one after the other; `renames n` says how the `n`-th ends. -/
def migrateDirs (renames : Nat → Bool) : Nat → List (String × String) → Rows String δ →
    Rows String δ
  | _, [], dirs => dirs
  | n, (oldId, newId) :: rest, dirs =>
      migrateDirs renames (n + 1) rest (migrateDir (renames n) dirs oldId newId)

end Directories

structure Tombstone where
  id : String
  paths : List String
  /-- Unix seconds. -/
  prunedAt : Int
  reason : String
  deriving DecidableEq, Repr

def maxTombstones : Nat := 200

/-- A tombstone for each entry, and the newest ones are kept. -/
def recordPruneTombstones (now : Int) (stones : List Tombstone) (dead : List ManifestEntry) :
    List Tombstone :=
  let stones := stones ++ dead.map fun e => ⟨e.id, e.paths, now, "source paths no longer exist"⟩
  stones.drop (stones.length - maxTombstones)

/-! ## The registers and the saves -/

structure RestoreState (δ : Type) where
  registry : RegistryState
  /-- The live entries whose register has not been spawned. -/
  toSpawn : List ManifestEntry
  /-- A save of `restore`'s own is due. -/
  toSave : Bool
  /-- The dead entries have their tombstones. -/
  pruned : Bool := false
  stones : List Tombstone
  /-- The directories below `corpora`. -/
  dirs : Rows String δ
  /-- The directories of dead entries that are still to be removed. -/
  toRemove : List String := []

inductive RestoreEvent where
  /-- The next register is spawned, when there is a permit for it. -/
  | spawn
  /-- A call takes its next step. -/
  | advance (call : Nat)
  /-- All calls are done, and `restore` saves the manifest. -/
  | save
  /-- The dead entries are pruned, at this time. -/
  | prune (now : Int)
  /-- The next directory of a dead entry is removed, if that succeeds. -/
  | remove (removed : Bool)
  deriving DecidableEq, Repr

def restoreConcurrency : Nat := 8

namespace RestoreState

variable {δ : Type} (sha256 : List UInt8 → List UInt8) (present : String → Bool)
  (entries : List ManifestEntry)

/-- The migration is done, and no register is spawned yet. -/
def start (dirs : Rows String δ) (renames : Nat → Bool) (stones : List Tombstone) :
    RestoreState δ where
  registry := { disk := entries, owned := claimedIds sha256 present entries }
  toSpawn := liveEntries present entries
  toSave := duplicateCanonical sha256 present entries
  stones := stones
  dirs := migrateDirs renames 0 (migrationEntries sha256 entries) dirs

/-- No register is left, and no save is due or in progress. -/
def Quiet (s : RestoreState δ) : Prop :=
  s.toSpawn = [] ∧ s.registry.calls = [] ∧ s.toSave = false

instance (s : RestoreState δ) : Decidable s.Quiet := inferInstanceAs (Decidable (_ ∧ _ ∧ _))

/-- `loads n` says how `create_handle` ends in the `n`-th register. -/
def step (loads : Nat → Bool) (s : RestoreState δ) : RestoreEvent → Option (RestoreState δ)
  | .spawn =>
      match s.toSpawn with
      | [] => none
      | e :: rest =>
          if s.registry.calls.length < restoreConcurrency then
            match registerTarget sha256 e.paths with
            -- `register` fails before it looks at anything.
            | .error _ => some { s with toSpawn := rest }
            | .ok (c, paths) =>
                some { s with registry := s.registry.begin (.checking c paths), toSpawn := rest }
          else none
  | .advance n =>
      (s.registry.step (.advance n (loads n))).map fun registry => { s with registry }
  | .save =>
      if s.toSave = true ∧ s.toSpawn = [] ∧ s.registry.calls = [] then
        some { s with registry := s.registry.begin (.snapshotting .restore), toSave := false }
      else none
  | .prune now =>
      let dead := deadEntries present entries
      if s.Quiet ∧ s.pruned = false ∧ dead ≠ [] then
        some { s with
          pruned := true
          stones := recordPruneTombstones now s.stones dead
          toRemove := ids dead
          toSave := decide (liveEntries present entries = []) }
      else none
  | .remove removed =>
      match s.toRemove with
      | [] => none
      | d :: rest =>
          some { s with dirs := if removed then s.dirs.erase d else s.dirs, toRemove := rest }

/-- `restore` has returned; directories may still be removed. -/
def Done (s : RestoreState δ) : Prop :=
  s.Quiet ∧ (deadEntries present entries = [] ∨ s.pruned = true)

variable {sha256 present entries}

/-- What an event does. -/
theorem step_eq_some {loads : Nat → Bool} {s t : RestoreState δ} {e : RestoreEvent}
    (taken : s.step sha256 present entries loads e = some t) :
    (∃ entry rest, e = .spawn ∧ s.toSpawn = entry :: rest ∧
        (((registerTarget sha256 entry.paths).toOption = none ∧ t = { s with toSpawn := rest }) ∨
          ∃ c paths, registerTarget sha256 entry.paths = .ok (c, paths) ∧
            t = { s with registry := s.registry.begin (.checking c paths), toSpawn := rest })) ∨
      (∃ n registry, e = .advance n ∧ s.registry.step (.advance n (loads n)) = some registry ∧
        t = { s with registry }) ∨
      (e = .save ∧ s.toSave = true ∧ s.toSpawn = [] ∧ s.registry.calls = [] ∧
        t = { s with registry := s.registry.begin (.snapshotting .restore), toSave := false }) ∨
      (∃ now, e = .prune now ∧ s.Quiet ∧ s.pruned = false ∧ deadEntries present entries ≠ [] ∧
        t = { s with
          pruned := true
          stones := recordPruneTombstones now s.stones (deadEntries present entries)
          toRemove := ids (deadEntries present entries)
          toSave := decide (liveEntries present entries = []) }) ∨
      ∃ removed d rest, e = .remove removed ∧ s.toRemove = d :: rest ∧
        t = { s with dirs := if removed then s.dirs.erase d else s.dirs, toRemove := rest } := by
  cases e with
  | spawn =>
      refine Or.inl ?_
      cases waiting : s.toSpawn with
      | nil => simp [step, waiting] at taken
      | cons entry rest =>
          simp only [step, waiting, Option.ite_none_right_eq_some] at taken
          obtain ⟨-, taken⟩ := taken
          refine ⟨entry, rest, rfl, rfl, ?_⟩
          cases target : registerTarget sha256 entry.paths with
          | error err =>
              rw [target] at taken
              exact Or.inl ⟨rfl, (Option.some.inj taken).symm⟩
          | ok registered =>
              rw [target] at taken
              exact Or.inr ⟨registered.1, registered.2, rfl, (Option.some.inj taken).symm⟩
  | advance n =>
      obtain ⟨registry, moved, is⟩ := Option.map_eq_some_iff.mp taken
      exact Or.inr (Or.inl ⟨n, registry, rfl, moved, is.symm⟩)
  | save =>
      obtain ⟨⟨due, none_left, idle⟩, taken⟩ := Option.ite_none_right_eq_some.mp taken
      exact Or.inr (Or.inr (Or.inl ⟨rfl, due, none_left, idle, (Option.some.inj taken).symm⟩))
  | prune now =>
      obtain ⟨⟨quiet, first, some_dead⟩, taken⟩ := Option.ite_none_right_eq_some.mp taken
      exact Or.inr (Or.inr (Or.inr (Or.inl
        ⟨now, rfl, quiet, first, some_dead, (Option.some.inj taken).symm⟩)))
  | remove removed =>
      refine Or.inr (Or.inr (Or.inr (Or.inr ?_)))
      cases waiting : s.toRemove with
      | nil => simp [step, waiting] at taken
      | cons d rest =>
          simp only [step, waiting, Option.some.injEq] at taken
          exact ⟨removed, d, rest, rfl, rfl, taken.symm⟩

end RestoreState

end Ministr.Daemon
