/-
# Daemon.Manifest — register, unregister and the manifest they save

`CorpusRegistry` keeps the loaded corpora in a map, those that are loading in a second
one, and both on disk in `corpora.json`.  A save takes a snapshot of the two maps, reads
which ids this instance owns, merges the entries of the file that are neither in the
snapshot nor owned, and renames the result into place.  No lock is held from the
snapshot to the rename.

A call is a sequence of steps, one for each access to something shared, and the calls in
progress are a pool whose steps interleave freely.  Loads of one corpus exclude each
other by a lock.  A clock that no code reads dates the changes of the map, the claims of
ids, and the snapshots.
-/
import Ministr.Theory.Agents
import Ministr.Theory.Rows
import Ministr.Theory.Run

namespace Ministr.Daemon

open Ministr.Theory

set_option autoImplicit false

structure ManifestEntry where
  id : String
  paths : List String
  deriving DecidableEq, Repr

/-- Whose save it is. -/
inductive Caller where
  | register (corpusId : String)
  | unregister (corpusId : String)
  | restore
  deriving DecidableEq, Repr

namespace Caller

/-- The corpus the call has put into the map or taken out of it. -/
def changed : Caller → Option String
  | .register c | .unregister c => some c
  | .restore => none

/-- The load lock that the call holds until it returns. -/
def lock : Caller → Option String
  | .register c => some c
  | .unregister _ | .restore => none

end Caller

/-- What a save saw of the two maps, and when. -/
structure Snapshot where
  loaded : List ManifestEntry
  /-- The corpora that were loading and not loaded. -/
  warming : List ManifestEntry
  takenAt : Nat
  deriving DecidableEq, Repr

def Snapshot.entries (snap : Snapshot) : List ManifestEntry := snap.loaded ++ snap.warming

def ids (entries : List ManifestEntry) : List String := entries.map ManifestEntry.id

/-- Where a call stands: the step that is next. -/
inductive CallStage where
  /-- `register` looks whether the corpus is loaded. -/
  | checking (corpusId : String) (paths : List String)
  /-- It waits for the load lock. -/
  | waiting (corpusId : String) (paths : List String)
  /-- It looks again, with the lock. -/
  | rechecking (corpusId : String) (paths : List String)
  /-- It marks the corpus as warming. -/
  | marking (corpusId : String) (paths : List String)
  /-- `create_handle`. -/
  | loading (corpusId : String) (paths : List String)
  /-- `create_handle` failed: it clears the mark. -/
  | failed (corpusId : String)
  /-- The check-and-insert under the map's write lock. -/
  | inserting (corpusId : String) (paths : List String)
  /-- It clears the mark of the loaded corpus. -/
  | clearing (corpusId : String) (inserted : Bool)
  /-- `unregister` takes the corpus out of the map. -/
  | unregistering (corpusId : String)
  /-- `own_manifest_id`. -/
  | owning (caller : Caller)
  /-- `save_manifest`: the snapshot of both maps. -/
  | snapshotting (caller : Caller)
  | readingOwned (caller : Caller) (snap : Snapshot)
  /-- The read of the file and the merge, with the owned ids. -/
  | merging (caller : Caller) (snap : Snapshot) (owned : Finset String)
  /-- The rename of the new file into place. -/
  | writing (caller : Caller) (snap : Snapshot) (entries : List ManifestEntry)
  deriving DecidableEq

structure RegistryCall where
  number : Nat
  stage : CallStage
  deriving DecidableEq

structure RegistryState where
  corpora : Rows String (List String) := ∅
  warming : Rows String (List String) := ∅
  locks : Finset String := ∅
  owned : Finset String := ∅
  disk : List ManifestEntry
  calls : List RegistryCall := []
  nextCall : Nat := 0
  clock : Nat := 0
  /-- When the corpus last entered or left the map; 0 if it never did. -/
  changedAt : String → Nat := fun _ => 0
  /-- When the id was last claimed. -/
  claimedAt : String → Nat := fun _ => 0

namespace RegistryState

variable (s : RegistryState)

def begin (stage : CallStage) : RegistryState :=
  { s with calls := ⟨s.nextCall, stage⟩ :: s.calls, nextCall := s.nextCall + 1 }

def become (a : RegistryCall) (stage : CallStage) : RegistryState :=
  { s with calls := Pool.replace s.calls a [⟨a.number, stage⟩] }

def finish (a : RegistryCall) : RegistryState := { s with calls := Pool.replace s.calls a [] }

/-- The corpus enters or leaves the map. -/
def change (corpusId : String) (corpora : Rows String (List String)) : RegistryState :=
  { s with
    corpora
    clock := s.clock + 1
    changedAt := fun c => if c = corpusId then s.clock + 1 else s.changedAt c }

/-- `own_manifest_id`. -/
def claim (corpusId : String) : RegistryState :=
  { s with
    owned := insert corpusId s.owned
    clock := s.clock + 1
    claimedAt := fun c => if c = corpusId then s.clock + 1 else s.claimedAt c }

def release (corpusId : Option String) : RegistryState :=
  { s with locks := corpusId.elim s.locks s.locks.erase }

/-- The entries of both maps; a corpus that is in both counts as loaded. -/
def snapshot : Snapshot where
  loaded := s.corpora.entries.map fun e => ⟨e.1, e.2⟩
  warming := (s.warming.select fun c _ => c ∉ s.corpora).map fun e => ⟨e.1, e.2⟩
  takenAt := s.clock

/-- The snapshot wins by id; other entries of the file survive unless they are owned. -/
def merge (snap : Snapshot) (owned : Finset String) (disk : List ManifestEntry) :
    List ManifestEntry :=
  snap.entries ++ disk.filter fun e => e.id ∉ ids snap.entries ∧ e.id ∉ owned

/-- The next step of a call.  `loads` says how `create_handle` ends. -/
def act (a : RegistryCall) (loads : Bool) : RegistryState :=
  match a.stage with
  | .checking c paths => if c ∈ s.corpora then s.finish a else s.become a (.waiting c paths)
  | .waiting c paths => { s with locks := insert c s.locks }.become a (.rechecking c paths)
  | .rechecking c paths =>
      if c ∈ s.corpora then (s.release (some c)).finish a else s.become a (.marking c paths)
  | .marking c paths => { s with warming := s.warming.insert c paths }.become a (.loading c paths)
  | .loading c paths =>
      if loads then s.become a (.inserting c paths) else s.become a (.failed c)
  | .failed c => ({ s with warming := s.warming.erase c }.release (some c)).finish a
  | .inserting c paths =>
      if c ∈ s.corpora then s.become a (.clearing c false)
      else (s.change c (s.corpora.insert c paths)).become a (.clearing c true)
  | .clearing c inserted =>
      if inserted then
        { s with warming := s.warming.erase c }.become a (.owning (.register c))
      else ({ s with warming := s.warming.erase c }.release (some c)).finish a
  | .unregistering c =>
      if c ∈ s.corpora then
        (s.change c (s.corpora.erase c)).become a (.owning (.unregister c))
      else s.finish a
  | .owning caller =>
      match caller.changed with
      | some c => (s.claim c).become a (.snapshotting caller)
      | none => s.become a (.snapshotting caller)
  | .snapshotting caller => s.become a (.readingOwned caller s.snapshot)
  | .readingOwned caller snap => s.become a (.merging caller snap s.owned)
  | .merging caller snap owned => s.become a (.writing caller snap (merge snap owned s.disk))
  | .writing caller _ entries => ({ s with disk := entries }.release caller.lock).finish a

end RegistryState

/-- A call begins, or one in progress takes its next step. -/
inductive RegistryEvent where
  | register (corpusId : String) (paths : List String)
  | unregister (corpusId : String)
  | advance (call : Nat) (loads : Bool)
  deriving DecidableEq, Repr

namespace RegistryState

/-- A call that waits for a load lock goes on when the lock is free. -/
def enabled (s : RegistryState) : CallStage → Bool
  | .waiting c _ => c ∉ s.locks
  | _ => true

def step (s : RegistryState) : RegistryEvent → Option RegistryState
  | .register c paths => some (s.begin (.checking c paths))
  | .unregister c => some (s.begin (.unregistering c))
  | .advance n loads =>
      match s.calls.find? fun a => a.number = n with
      | none => none
      | some a => if s.enabled a.stage then some (s.act a loads) else none

/-- No call is in progress. -/
def Idle (s : RegistryState) : Prop := s.calls = []

/-- A call begins, or a call in the pool takes its next step. -/
theorem step_eq_some {s t : RegistryState} {e : RegistryEvent} (taken : s.step e = some t) :
    (∃ c paths, e = .register c paths ∧ t = s.begin (.checking c paths)) ∨
      (∃ c, e = .unregister c ∧ t = s.begin (.unregistering c)) ∨
      ∃ n loads a, e = .advance n loads ∧ (s.calls.find? fun a => a.number = n) = some a ∧
        a ∈ s.calls ∧ s.enabled a.stage = true ∧ t = s.act a loads := by
  cases e with
  | register c paths => exact Or.inl ⟨c, paths, rfl, (Option.some.inj taken).symm⟩
  | unregister c => exact Or.inr (Or.inl ⟨c, rfl, (Option.some.inj taken).symm⟩)
  | advance n loads =>
      refine Or.inr (Or.inr ?_)
      simp only [step] at taken
      split at taken
      · cases taken
      · rename_i a found
        split at taken
        · rename_i free
          exact ⟨n, loads, a, rfl, found, List.mem_of_find?_eq_some found, free,
            (Option.some.inj taken).symm⟩
        · cases taken

/-- A call in progress begins no other. -/
theorem nextCall_advance {s t : RegistryState} {n : Nat} {loads : Bool}
    (taken : s.step (.advance n loads) = some t) : t.nextCall = s.nextCall := by
  rcases step_eq_some taken with ⟨c, paths, is, -⟩ | ⟨c, is, -⟩ | ⟨n', outcome, a, -, -, -, -, rfl⟩
  · cases is
  · cases is
  · unfold act
    split <;> first | rfl | (split <;> rfl)

end RegistryState

end Ministr.Daemon
