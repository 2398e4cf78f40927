/-
# Daemon.RestoreFits — what the registers of a restore make of the manifest

Along a restore the registry only ever sees the corpora that `register` makes of the
live entries (`targets`).  `Fits` says what follows from that for the two maps, for the
owned ids, for the file, and for the saves in progress:

* after the first save, the file holds targets, and entries that it started with and
  that nobody has claimed;
* an entry that nobody claims and whose id is no target is never touched;
* a register whose load succeeds ends with its corpus in the map;
* and once a corpus is in the map, a save of it has been written or is on its way.
-/
import Ministr.Daemon.ManifestKept

namespace Ministr.Daemon

open Ministr.Theory
open RegistryState

set_option autoImplicit false

namespace CallStage

/-- The corpus that the register has yet to insert. -/
def toInsert : CallStage → Option String
  | .checking c _ | .waiting c _ | .rechecking c _ | .marking c _ | .loading c _
  | .inserting c _ => some c
  | _ => none

/-- The call is on its way to the end of a save. -/
def willSave : CallStage → Bool
  | .clearing _ inserted => inserted
  | .owning _ | .snapshotting _ | .readingOwned _ _ | .merging _ _ _ | .writing _ _ _ => true
  | _ => false

end CallStage

section Fits

variable (initial : List ManifestEntry) (claimed : Finset String)
  (targets : List (String × List String)) (loads : Nat → Bool) (begun : Prop)

def IsTargetId (c : String) : Prop := ∃ target ∈ targets, target.1 = c

/-- The entry may be in the file after a save. -/
def Allowed (d : ManifestEntry) : Prop :=
  (d ∈ initial ∧ d.id ∉ claimed) ∨ (d.id, d.paths) ∈ targets

/-- No save has a say in the entry. -/
structure Untouched (d : ManifestEntry) : Prop where
  was_there : d ∈ initial
  unclaimed : d.id ∉ claimed
  other : ¬IsTargetId targets d.id

/-- The owned ids that a save has read. -/
structure OwnedFits (owned : Finset String) : Prop where
  holds : claimed ⊆ owned
  known : ∀ c ∈ owned, c ∈ claimed ∨ IsTargetId targets c

/-- The entries that a save is about to write, or has written. -/
structure FileFits (entries : List ManifestEntry) : Prop where
  allowed : ∀ d ∈ entries, Allowed initial claimed targets d
  untouched : ∀ d, Untouched initial claimed targets d → d ∈ entries

def SnapshotFits (snap : Snapshot) : Prop := ∀ d ∈ snap.entries, (d.id, d.paths) ∈ targets

def CallFits (number : Nat) : CallStage → Prop
  | .checking c paths | .waiting c paths | .rechecking c paths | .marking c paths
  | .loading c paths | .inserting c paths => targets[number]? = some (c, paths)
  | .failed _ => True
  | .clearing c _ => IsTargetId targets c
  | .unregistering _ => False
  | .owning caller => ∀ c, caller.changed = some c → IsTargetId targets c
  | .snapshotting _ => True
  | .readingOwned _ snap => SnapshotFits targets snap
  | .merging _ snap owned => SnapshotFits targets snap ∧ OwnedFits claimed targets owned
  | .writing _ _ entries => FileFits initial claimed targets entries

/-- A save has been written, or is on its way. -/
def Saved (s : RegistryState) : Prop :=
  FileFits initial claimed targets s.disk ∨ ∃ a ∈ s.calls, a.stage.willSave = true

/-- `begun` says that `restore` has begun a save of its own. -/
structure Fits (s : RegistryState) : Prop where
  corpora : ∀ c paths, s.corpora.lookup c = some paths → (c, paths) ∈ targets
  warming : ∀ c paths, s.warming.lookup c = some paths → (c, paths) ∈ targets
  owned : OwnedFits claimed targets s.owned
  disk : s.disk = initial ∨ FileFits initial claimed targets s.disk
  calls : ∀ a ∈ s.calls, CallFits initial claimed targets a.number a.stage
  changed : ∀ c, 0 < s.changedAt c → c ∈ s.corpora
  loaded : ∀ n c paths, targets[n]? = some (c, paths) → loads n = true → n < s.nextCall →
    c ∈ s.corpora ∨ ∃ a ∈ s.calls, a.number = n ∧ a.stage.toInsert = some c
  saved : (begun ∨ ∃ c, c ∈ s.corpora) → Saved initial claimed targets s

variable {initial claimed targets loads begun} {s t : RegistryState} {a : RegistryCall}

theorem isTargetId_of_getElem {n : Nat} {c : String} {paths : List String}
    (at_n : targets[n]? = some (c, paths)) : IsTargetId targets c :=
  ⟨(c, paths), List.mem_of_getElem? at_n, rfl⟩

/-- Less is begun. -/
theorem Fits.of_begun {begun' : Prop} (fits : Fits initial claimed targets loads begun s)
    (less : begun' → begun) : Fits initial claimed targets loads begun' s :=
  { fits with saved := fun due => fits.saved (due.imp_left less) }

/-! ## Steps that leave the file and the loaded corpora alone -/

theorem Fits.move (fits : Fits initial claimed targets loads begun s) {next : List RegistryCall}
    (warming : ∀ c paths, t.warming.lookup c = some paths → (c, paths) ∈ targets)
    (corpora : t.corpora = s.corpora) (owned : t.owned = s.owned) (disk : t.disk = s.disk)
    (number : t.nextCall = s.nextCall) (changedAt : t.changedAt = s.changedAt)
    (calls : t.calls = Pool.replace s.calls a next)
    (new : ∀ b ∈ next, CallFits initial claimed targets b.number b.stage)
    (inserts : ∀ c, a.stage.toInsert = some c → loads a.number = true → c ∈ s.corpora ∨
      ∃ b ∈ next, b.number = a.number ∧ b.stage.toInsert = some c)
    (saves : a.stage.willSave = true → ∃ b ∈ next, b.stage.willSave = true) :
    Fits initial claimed targets loads begun t := by
  obtain ⟨corpora', warming', locks', owned', disk', calls', next', clock', changedAt',
    claimedAt'⟩ := t
  subst corpora owned disk number changedAt calls
  refine ⟨fits.corpora, warming, fits.owned, fits.disk, Pool.forall_replace fits.calls new,
    fits.changed, fun n c paths at_n will early => ?_, fun due => ?_⟩
  · rcases fits.loaded n c paths at_n will early with there | ⟨b, mem, is, toInsert⟩
    · exact Or.inl there
    · by_cases same : b = a
      · subst same is
        refine (inserts c toInsert will).imp_right ?_
        rintro ⟨b', new, is, toInsert⟩
        exact ⟨b', Pool.next_mem_replace new, is, toInsert⟩
      · exact Or.inr ⟨b, Pool.other_mem_replace mem same, is, toInsert⟩
  · exact (fits.saved due).imp_right fun saving => Pool.exists_replace saving saves

theorem Fits.become (fits : Fits initial claimed targets loads begun s) {stage : CallStage}
    (new : CallFits initial claimed targets a.number stage)
    (inserts : ∀ c, a.stage.toInsert = some c → loads a.number = true →
      c ∈ s.corpora ∨ stage.toInsert = some c)
    (saves : a.stage.willSave = true → stage.willSave = true) :
    Fits initial claimed targets loads begun (s.become a stage) := by
  refine fits.move (a := a) fits.warming rfl rfl rfl rfl rfl rfl ?_ ?_ ?_
  · intro b mem
    cases List.mem_singleton.mp mem
    exact new
  · exact fun c is will => (inserts c is will).imp_right fun goes_on =>
      ⟨_, List.mem_cons_self, rfl, goes_on⟩
  · exact fun is => ⟨_, List.mem_cons_self, saves is⟩

/-- The call goes on with the same corpus to insert, or with none as before. -/
theorem Fits.goes_on (fits : Fits initial claimed targets loads begun s) {stage : CallStage}
    (new : CallFits initial claimed targets a.number stage)
    (same : stage.toInsert = a.stage.toInsert)
    (saves : a.stage.willSave = true → stage.willSave = true) :
    Fits initial claimed targets loads begun (s.become a stage) :=
  fits.become new (fun _ is _ => Or.inr (same.trans is)) saves

theorem Fits.finish (fits : Fits initial claimed targets loads begun s)
    (inserts : ∀ c, a.stage.toInsert = some c → loads a.number = true → c ∈ s.corpora)
    (saves : a.stage.willSave = false) :
    Fits initial claimed targets loads begun (s.finish a) := by
  refine fits.move (a := a) fits.warming rfl rfl rfl rfl rfl rfl nofun ?_ ?_
  · exact fun c is will => Or.inl (inserts c is will)
  · exact fun is => absurd is (by rw [saves]; exact Bool.false_ne_true)

/-- The locks, and a warming map that fits, are not looked at. -/
theorem Fits.other (fits : Fits initial claimed targets loads begun s)
    {warming : Rows String (List String)}
    (rows : ∀ c paths, warming.lookup c = some paths → (c, paths) ∈ targets)
    (locks : Finset String) :
    Fits initial claimed targets loads begun { s with warming, locks } :=
  ⟨fits.corpora, rows, fits.owned, fits.disk, fits.calls, fits.changed, fits.loaded, fits.saved⟩

theorem lookup_erase_fits {rows : Rows String (List String)}
    (fit : ∀ c paths, rows.lookup c = some paths → (c, paths) ∈ targets) (d : String) :
    ∀ c paths, (rows.erase d).lookup c = some paths → (c, paths) ∈ targets := by
  intro c paths found
  rw [Rows.lookup_erase_if] at found
  split at found
  · cases found
  · exact fit c paths found

theorem lookup_insert_fits {rows : Rows String (List String)}
    (fit : ∀ c paths, rows.lookup c = some paths → (c, paths) ∈ targets) {d : String}
    {ps : List String} (target : (d, ps) ∈ targets) :
    ∀ c paths, (rows.insert d ps).lookup c = some paths → (c, paths) ∈ targets := by
  intro c paths found
  rw [Rows.lookup_insert_if] at found
  split at found
  · rename_i same
    rw [same, ← Option.some.inj found]
    exact target
  · exact fit c paths found

/-! ## The corpus enters the map, and is claimed -/

theorem Fits.insert (fits : Fits initial claimed targets loads begun s) {c : String}
    {paths : List String} (stage : a.stage = .inserting c paths)
    (at_n : targets[a.number]? = some (c, paths)) :
    Fits initial claimed targets loads begun
      ((s.change c (s.corpora.insert c paths)).become a (.clearing c true)) := by
  have entered : ∀ d, d = c ∨ d ∈ s.corpora → d ∈ s.corpora.insert c paths := fun d is =>
    (AList.mem_insert _).mpr is
  have saving : ∃ b ∈ Pool.replace s.calls a [⟨a.number, .clearing c true⟩],
      b.stage.willSave = true := ⟨_, Pool.next_mem_replace List.mem_cons_self, rfl⟩
  refine ⟨lookup_insert_fits fits.corpora (List.mem_of_getElem? at_n), fits.warming, fits.owned,
    fits.disk, ?_, fun d dated => ?_, fun n d ps at_n' will early => ?_, fun _ => Or.inr saving⟩
  · refine Pool.forall_replace fits.calls fun b mem => ?_
    cases List.mem_singleton.mp mem
    exact isTargetId_of_getElem at_n
  · change 0 < (if d = c then s.clock + 1 else s.changedAt d) at dated
    by_cases same : d = c
    · exact entered d (Or.inl same)
    · rw [if_neg same] at dated
      exact entered d (Or.inr (fits.changed d dated))
  · rcases fits.loaded n d ps at_n' will early with there | ⟨b, mem, is, toInsert⟩
    · exact Or.inl (entered d (Or.inr there))
    · by_cases same : b = a
      · rw [same, stage] at toInsert
        exact Or.inl (entered d (Or.inl (Option.some.inj toInsert).symm))
      · exact Or.inr ⟨b, Pool.other_mem_replace mem same, is, toInsert⟩

theorem Fits.claim (fits : Fits initial claimed targets loads begun s) {c : String}
    (target : IsTargetId targets c) : Fits initial claimed targets loads begun (s.claim c) := by
  refine ⟨fits.corpora, fits.warming, ⟨?_, fun d mem => ?_⟩, fits.disk, fits.calls, fits.changed,
    fits.loaded, fits.saved⟩
  · exact fits.owned.holds.trans (Finset.subset_insert _ _)
  · rcases Finset.mem_insert.mp mem with rfl | old
    · exact Or.inr target
    · exact fits.owned.known d old

/-! ## The save -/

theorem Fits.snapshot (fits : Fits initial claimed targets loads begun s) :
    SnapshotFits targets s.snapshot := by
  intro d mem
  rcases List.mem_append.mp mem with loaded | warming
  · obtain ⟨row, stored, rfl⟩ := List.mem_map.mp loaded
    exact fits.corpora row.1 row.2 ((Rows.mem_entries_iff _ _ _).mp stored)
  · obtain ⟨row, selected, rfl⟩ := List.mem_map.mp warming
    exact fits.warming row.1 row.2 ((Rows.mem_select _ _ _ _).mp selected).1

theorem fileFits_merge {snap : Snapshot} {owned : Finset String} {disk : List ManifestEntry}
    (snapshot : SnapshotFits targets snap) (owns : OwnedFits claimed targets owned)
    (file : disk = initial ∨ FileFits initial claimed targets disk) :
    FileFits initial claimed targets (merge snap owned disk) := by
  refine ⟨fun d mem => ?_, fun d untouched => ?_⟩
  · rcases List.mem_append.mp mem with recorded | kept
    · exact Or.inr (snapshot d recorded)
    · obtain ⟨on_disk, free⟩ := List.mem_filter.mp kept
      have free := of_decide_eq_true free
      rcases file with same | fits
      · exact Or.inl ⟨same ▸ on_disk, fun is_claimed => free.2 (owns.holds is_claimed)⟩
      · exact fits.allowed d on_disk
  · refine List.mem_append.mpr (Or.inr (List.mem_filter.mpr ⟨?_, decide_eq_true ⟨?_, ?_⟩⟩))
    · rcases file with same | fits
      · exact same ▸ untouched.was_there
      · exact fits.untouched d untouched
    · intro recorded
      obtain ⟨e, mem, same⟩ := mem_ids.mp recorded
      exact untouched.other ⟨(e.id, e.paths), snapshot e mem, same⟩
    · intro is_owned
      rcases owns.known d.id is_owned with is_claimed | target
      · exact untouched.unclaimed is_claimed
      · exact untouched.other target

theorem Fits.write (fits : Fits initial claimed targets loads begun s) {caller : Caller}
    {snap : Snapshot} {entries : List ManifestEntry}
    (stage : a.stage = .writing caller snap entries)
    (file : FileFits initial claimed targets entries) :
    Fits initial claimed targets loads begun ({ s with disk := entries }.finish a) := by
  refine ⟨fits.corpora, fits.warming, fits.owned, Or.inr file,
    Pool.forall_replace fits.calls nofun, fits.changed, fun n c paths at_n will early => ?_,
    fun _ => Or.inl file⟩
  refine (fits.loaded n c paths at_n will early).imp_right ?_
  refine fun waiting => Pool.exists_replace waiting fun ⟨_, toInsert⟩ => ?_
  rw [stage] at toInsert
  cases toInsert

/-! ## A whole step -/

theorem Fits.begin (fits : Fits initial claimed targets loads begun s) {stage : CallStage}
    {begun' : Prop} (new : CallFits initial claimed targets s.nextCall stage)
    (inserts : ∀ c paths, targets[s.nextCall]? = some (c, paths) → stage.toInsert = some c)
    (saves : begun' → begun ∨ stage.willSave = true) :
    Fits initial claimed targets loads begun' (s.begin stage) := by
  refine ⟨fits.corpora, fits.warming, fits.owned, fits.disk, fun a mem => ?_, fits.changed,
    fun n c paths at_n will early => ?_, fun due => ?_⟩
  · rcases List.mem_cons.mp mem with rfl | old
    · exact new
    · exact fits.calls a old
  · rcases Nat.lt_succ_iff_lt_or_eq.mp early with before | rfl
    · refine (fits.loaded n c paths at_n will before).imp_right fun ⟨a, mem, is⟩ => ?_
      exact ⟨a, List.mem_cons_of_mem _ mem, is⟩
    · exact Or.inr ⟨_, List.mem_cons_self, rfl, inserts c paths at_n⟩
  · have before : (begun ∨ ∃ c, c ∈ s.corpora) →
        Saved initial claimed targets (s.begin stage) := fun due =>
      (fits.saved due).imp_right fun ⟨a, mem, is⟩ => ⟨a, List.mem_cons_of_mem _ mem, is⟩
    rcases due with is_begun | loaded
    · rcases saves is_begun with old | saving
      · exact before (Or.inl old)
      · exact Or.inr ⟨_, List.mem_cons_self, saving⟩
    · exact before (Or.inr loaded)

theorem Fits.act (fits : Fits initial claimed targets loads begun s) (mem : a ∈ s.calls) :
    Fits initial claimed targets loads begun (s.act a (loads a.number)) := by
  have here := fits.calls a mem
  unfold RegistryState.act
  cases stage : a.stage with
  | checking c paths =>
      rw [stage] at here
      dsimp only
      split
      · rename_i there
        refine fits.finish (fun d is _ => ?_) (by rw [stage]; rfl)
        rw [stage] at is
        exact Option.some.inj is ▸ there
      · exact fits.goes_on here (by rw [stage]; rfl) (by rw [stage]; nofun)
  | waiting c paths =>
      rw [stage] at here
      exact (fits.other fits.warming _).goes_on here (by rw [stage]; rfl) (by rw [stage]; nofun)
  | rechecking c paths =>
      rw [stage] at here
      dsimp only
      split
      · rename_i there
        refine (fits.other fits.warming _).finish (fun d is _ => ?_) (by rw [stage]; rfl)
        rw [stage] at is
        exact Option.some.inj is ▸ there
      · exact fits.goes_on here (by rw [stage]; rfl) (by rw [stage]; nofun)
  | marking c paths =>
      rw [stage] at here
      have marked := lookup_insert_fits fits.warming (List.mem_of_getElem? here)
      exact (fits.other marked s.locks).goes_on here (by rw [stage]; rfl) (by rw [stage]; nofun)
  | loading c paths =>
      rw [stage] at here
      dsimp only
      split
      · exact fits.goes_on here (by rw [stage]; rfl) (by rw [stage]; nofun)
      · rename_i fails
        exact fits.become trivial (fun d _ will => absurd will fails) (by rw [stage]; nofun)
  | failed c =>
      exact (fits.other (lookup_erase_fits fits.warming c) _).finish (by rw [stage]; nofun)
        (by rw [stage]; rfl)
  | inserting c paths =>
      rw [stage] at here
      dsimp only
      split
      · rename_i there
        refine fits.become (isTargetId_of_getElem here) (fun d is _ => Or.inl ?_)
          (by rw [stage]; nofun)
        rw [stage] at is
        exact Option.some.inj is ▸ there
      · exact fits.insert stage here
  | clearing c inserted =>
      rw [stage] at here
      have cleared := fits.other (lookup_erase_fits fits.warming c)
      dsimp only
      split
      · refine (cleared s.locks).goes_on (fun d is => ?_) (by rw [stage]; rfl) (fun _ => rfl)
        exact Option.some.inj is ▸ here
      · rename_i absent
        exact (cleared _).finish (by rw [stage]; nofun) (by simp [stage, CallStage.willSave, absent])
  | unregistering c =>
      rw [stage] at here
      exact here.elim
  | owning caller =>
      rw [stage] at here
      dsimp only
      split
      · rename_i c changed
        exact (fits.claim (here c changed)).goes_on trivial (by rw [stage]; rfl) (fun _ => rfl)
      · exact fits.goes_on trivial (by rw [stage]; rfl) (fun _ => rfl)
  | snapshotting caller =>
      exact fits.goes_on fits.snapshot (by rw [stage]; rfl) (fun _ => rfl)
  | readingOwned caller snap =>
      rw [stage] at here
      exact fits.goes_on ⟨here, fits.owned⟩ (by rw [stage]; rfl) (fun _ => rfl)
  | merging caller snap owned =>
      rw [stage] at here
      exact fits.goes_on (fileFits_merge here.1 here.2 fits.disk) (by rw [stage]; rfl)
        (fun _ => rfl)
  | writing caller snap entries =>
      rw [stage] at here
      exact (fits.write stage here).other fits.warming _

end Fits

end Ministr.Daemon
