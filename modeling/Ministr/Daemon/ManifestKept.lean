/-
# Daemon.ManifestKept — what must be in the manifest is in it, or will be

The manifest should hold the loaded corpora, and the entries it started with that this
instance never had a say in (`Due`).  `Kept` is one half of that, along every run in
which no save overwrites a change that has already been saved: what is due is on disk,
or some call that changed it has yet to save.

A save that has taken its snapshot knows what is due except for what has changed since.
So all it can miss is dated after the snapshot, and the condition on its rename
(`RenamesInTurn`) says that each such change is still to be saved by the call that made
it.
-/
import Ministr.Daemon.Manifest

namespace Ministr.Daemon

open Ministr.Theory
open RegistryState

set_option autoImplicit false

namespace CallStage

/-- The corpus that the call has changed and not yet saved. -/
def owes : CallStage → Option String
  | .clearing c inserted => if inserted then some c else none
  | .owning caller | .snapshotting caller | .readingOwned caller _ | .merging caller _ _
  | .writing caller _ _ => caller.changed
  | _ => none

end CallStage

/-- Some call has changed the corpus and not yet saved. -/
def Owed (calls : List RegistryCall) (corpusId : String) : Prop :=
  ∃ a ∈ calls, a.stage.owes = some corpusId

/-- The corpus was changed or claimed after the snapshot. -/
def RegistryState.Since (s : RegistryState) (snap : Snapshot) (corpusId : String) : Prop :=
  snap.takenAt < s.changedAt corpusId ∨ snap.takenAt < s.claimedAt corpusId

/-- A rename writes over nothing that is saved: what has changed since its snapshot is
still to be saved by another call. -/
def RenamesInTurn (s : RegistryState) (e : RegistryEvent) : Prop :=
  ∀ n loads, e = .advance n loads → ∀ a, (s.calls.find? fun a => a.number = n) = some a →
    ∀ caller snap entries, a.stage = .writing caller snap entries →
      ∀ c, s.Since snap c → Owed (s.calls.erase a) c

/-- Nothing is dated after the clock. -/
def Dated (s : RegistryState) : Prop := ∀ c, s.changedAt c ≤ s.clock ∧ s.claimedAt c ≤ s.clock

theorem Dated.change {s : RegistryState} (dated : Dated s) (c : String)
    (corpora : Rows String (List String)) : Dated (s.change c corpora) := by
  intro d
  refine ⟨?_, Nat.le_succ_of_le (dated d).2⟩
  show (if d = c then s.clock + 1 else s.changedAt d) ≤ s.clock + 1
  split
  · exact Nat.le_refl _
  · exact Nat.le_succ_of_le (dated d).1

theorem Dated.claim {s : RegistryState} (dated : Dated s) (c : String) : Dated (s.claim c) := by
  intro d
  refine ⟨Nat.le_succ_of_le (dated d).1, ?_⟩
  show (if d = c then s.clock + 1 else s.claimedAt d) ≤ s.clock + 1
  split
  · exact Nat.le_refl _
  · exact Nat.le_succ_of_le (dated d).2

theorem Dated.act {s : RegistryState} (dated : Dated s) (a : RegistryCall) (loads : Bool) :
    Dated (s.act a loads) := by
  unfold RegistryState.act
  cases a.stage with
  | inserting c paths =>
      dsimp only
      split
      · exact dated
      · exact dated.change c (s.corpora.insert c paths)
  | unregistering c =>
      dsimp only
      split
      · exact dated.change c (s.corpora.erase c)
      · exact dated
  | owning caller =>
      dsimp only
      split
      · exact dated.claim _
      · exact dated
  | _ => first | exact dated | (dsimp only; split <;> exact dated)

section Kept

variable (initial : List ManifestEntry) (claimed : Finset String)

/-- The corpus belongs into the manifest: it is loaded, or it was there and this instance
neither claimed it at the start nor ever had it in its map. -/
def Due (s : RegistryState) (c : String) : Prop :=
  c ∈ s.corpora ∨ (c ∈ ids initial ∧ c ∉ claimed ∧ s.changedAt c = 0)

/-- The snapshot is right about what has not changed since. -/
structure Snapshot.Right (s : RegistryState) (snap : Snapshot) : Prop where
  past : snap.takenAt ≤ s.clock
  loaded : ∀ c, s.changedAt c ≤ snap.takenAt → (c ∈ ids snap.loaded ↔ c ∈ s.corpora)

/-- What a save knows. -/
def Knows (s : RegistryState) : CallStage → Prop
  | .readingOwned _ snap => snap.Right s
  | .merging _ snap owned => snap.Right s ∧ owned ⊆ s.owned
  | .writing _ snap entries =>
      snap.takenAt ≤ s.clock ∧
        ∀ c, Due initial claimed s c → c ∈ ids entries ∨ snap.takenAt < s.changedAt c
  | _ => True

structure Kept (s : RegistryState) : Prop where
  past : ∀ c, s.changedAt c ≤ s.clock
  loaded : ∀ c ∈ s.corpora, 0 < s.changedAt c
  owned : ∀ c ∈ s.owned, 0 < s.changedAt c ∨ c ∈ claimed
  owes : ∀ c, Owed s.calls c → 0 < s.changedAt c
  calls : ∀ a ∈ s.calls, Knows initial claimed s a.stage
  disk : ∀ c, Due initial claimed s c → c ∈ ids s.disk ∨ Owed s.calls c

/-- Before the first call. -/
theorem kept_start : Kept initial claimed { disk := initial, owned := claimed } where
  past := fun _ => Nat.le_refl 0
  loaded := fun c mem => absurd mem (AList.notMem_empty c)
  owned := fun _ => Or.inr
  owes := fun _ ⟨_, mem, _⟩ => absurd mem List.not_mem_nil
  calls := fun _ mem => absurd mem List.not_mem_nil
  disk := fun c due => by
    rcases due with mem | ⟨was, -⟩
    · exact absurd mem (AList.notMem_empty c)
    · exact Or.inl was

variable {initial claimed} {s t : RegistryState}

/-- What is known does not depend on the calls, the locks, the warming map and the file. -/
theorem Knows.same {stage : CallStage} (known : Knows initial claimed s stage)
    (corpora : t.corpora = s.corpora) (owned : t.owned = s.owned) (clock : t.clock = s.clock)
    (changedAt : t.changedAt = s.changedAt) : Knows initial claimed t stage := by
  obtain ⟨corpora', warming', locks', owned', disk', calls', next', clock', changedAt',
    claimedAt'⟩ := t
  subst corpora owned clock changedAt
  cases stage <;> first | exact known | exact ⟨known.past, known.loaded⟩ | skip
  exact ⟨⟨known.1.past, known.1.loaded⟩, known.2⟩

/-- The other corpora are due or not as before. -/
theorem due_change_other {c d : String} {corpora : Rows String (List String)}
    (others : ∀ d, d ≠ c → (d ∈ corpora ↔ d ∈ s.corpora)) (other : d ≠ c) :
    Due initial claimed (s.change c corpora) d ↔ Due initial claimed s d := by
  show (d ∈ corpora ∨ (_ ∧ _ ∧ (if d = c then s.clock + 1 else s.changedAt d) = 0)) ↔ _
  rw [others d other, if_neg other]
  rfl

/-- A change of one corpus spoils nothing: it is dated after every snapshot. -/
theorem Knows.change {stage : CallStage} (known : Knows initial claimed s stage) {c : String}
    {corpora : Rows String (List String)} (others : ∀ d, d ≠ c → (d ∈ corpora ↔ d ∈ s.corpora)) :
    Knows initial claimed (s.change c corpora) stage := by
  have right : ∀ snap : Snapshot, snap.Right s → snap.Right (s.change c corpora) := by
    intro snap ⟨past, loaded⟩
    refine ⟨Nat.le_succ_of_le past, fun d early => ?_⟩
    change (if d = c then s.clock + 1 else s.changedAt d) ≤ snap.takenAt at early
    by_cases same : d = c
    · rw [if_pos same] at early
      omega
    · rw [if_neg same] at early
      exact (loaded d early).trans (others d same).symm
  cases stage with
  | readingOwned caller snap => exact right snap known
  | merging caller snap owned => exact ⟨right snap known.1, known.2⟩
  | writing caller snap entries =>
      refine ⟨Nat.le_succ_of_le known.1, fun d due => ?_⟩
      show d ∈ ids entries ∨ snap.takenAt < if d = c then s.clock + 1 else s.changedAt d
      by_cases same : d = c
      · rw [if_pos same]
        exact Or.inr (Nat.lt_succ_of_le known.1)
      · rw [if_neg same]
        exact known.2 d ((due_change_other others same).mp due)
  | _ => trivial

theorem Knows.claim {stage : CallStage} (known : Knows initial claimed s stage) (c : String) :
    Knows initial claimed (s.claim c) stage := by
  have right : ∀ snap : Snapshot, snap.Right s → snap.Right (s.claim c) :=
    fun snap ⟨past, loaded⟩ => ⟨Nat.le_succ_of_le past, loaded⟩
  cases stage with
  | readingOwned caller snap => exact right snap known
  | merging caller snap owned =>
      exact ⟨right snap known.1, known.2.trans (Finset.subset_insert _ _)⟩
  | writing caller snap entries => exact ⟨Nat.le_succ_of_le known.1, known.2⟩
  | _ => trivial

/-! ## One step -/

/-- A step that leaves the loaded corpora, the owned ids, the clock and the file alone. -/
theorem Kept.move (kept : Kept initial claimed s) {a : RegistryCall} {next : List RegistryCall}
    (corpora : t.corpora = s.corpora) (owned : t.owned = s.owned) (clock : t.clock = s.clock)
    (changedAt : t.changedAt = s.changedAt) (disk : t.disk = s.disk)
    (calls : t.calls = Pool.replace s.calls a next)
    (mem : a ∈ s.calls) (new : ∀ b ∈ next, Knows initial claimed s b.stage)
    (passes : ∀ c, a.stage.owes = some c ↔ ∃ b ∈ next, b.stage.owes = some c) :
    Kept initial claimed t := by
  refine ⟨fun c => ?_, fun c mem => ?_, fun c mem => ?_, fun c owed => ?_, fun b mem => ?_,
    fun c due => ?_⟩
  · rw [changedAt, clock]
    exact kept.past c
  · rw [changedAt]
    exact kept.loaded c (corpora ▸ mem)
  · rw [changedAt]
    exact kept.owned c (owned ▸ mem)
  · rw [changedAt]
    rw [calls] at owed
    refine kept.owes c ?_
    obtain ⟨b, there, owes⟩ := owed
    rcases Pool.mem_replace there with is_new | old
    · exact ⟨a, mem, (passes c).mpr ⟨b, is_new, owes⟩⟩
    · exact ⟨b, old, owes⟩
  · rw [calls] at mem
    exact Knows.same (Pool.forall_replace kept.calls new b mem) corpora owned clock changedAt
  · rw [disk, calls]
    unfold Due at due
    rw [corpora, changedAt] at due
    exact (kept.disk c due).imp_right fun owed => Pool.exists_replace owed (passes c).mp

theorem Kept.goes_on (kept : Kept initial claimed s) {a : RegistryCall} (mem : a ∈ s.calls)
    (stage : CallStage) (known : Knows initial claimed s stage)
    (same : stage.owes = a.stage.owes) : Kept initial claimed (s.become a stage) := by
  refine kept.move rfl rfl rfl rfl rfl rfl mem (fun b new => ?_) fun c => ?_
  · cases List.mem_singleton.mp new
    exact known
  · simp [same]

theorem Kept.finishes (kept : Kept initial claimed s) {a : RegistryCall} (mem : a ∈ s.calls)
    (none : a.stage.owes = none) : Kept initial claimed (s.finish a) := by
  refine kept.move rfl rfl rfl rfl rfl rfl mem nofun fun c => ?_
  rw [none]
  simp

/-- The warming map and the locks play no part. -/
theorem Kept.other (kept : Kept initial claimed s) (warming : Rows String (List String))
    (locks : Finset String) : Kept initial claimed { s with warming, locks } :=
  ⟨kept.past, kept.loaded, kept.owned, kept.owes,
    fun a mem => (kept.calls a mem).same rfl rfl rfl rfl, kept.disk⟩

theorem Kept.begin (kept : Kept initial claimed s) {stage : CallStage}
    (known : Knows initial claimed s stage) (none : stage.owes = none) :
    Kept initial claimed (s.begin stage) := by
  refine ⟨kept.past, kept.loaded, kept.owned, fun c owed => ?_, fun a mem => ?_, fun c due => ?_⟩
  · obtain ⟨a, mem, is⟩ := owed
    rcases List.mem_cons.mp mem with rfl | old
    · rw [none] at is
      cases is
    · exact kept.owes c ⟨a, old, is⟩
  · rcases List.mem_cons.mp mem with rfl | old
    · exact known.same rfl rfl rfl rfl
    · exact (kept.calls a old).same rfl rfl rfl rfl
  · refine (kept.disk c due).imp_right fun ⟨a, old, is⟩ => ?_
    exact ⟨a, List.mem_cons_of_mem _ old, is⟩

/-- The corpus enters or leaves the map, and the call owes a save. -/
theorem Kept.change (kept : Kept initial claimed s) {a : RegistryCall} {stage : CallStage}
    {c : String} {corpora : Rows String (List String)}
    (others : ∀ d, d ≠ c → (d ∈ corpora ↔ d ∈ s.corpora)) (owed_none : a.stage.owes = none)
    (owes : stage.owes = some c) (known : Knows initial claimed (s.change c corpora) stage) :
    Kept initial claimed ((s.change c corpora).become a stage) := by
  have dated : ∀ d, (s.change c corpora).changedAt d =
      if d = c then s.clock + 1 else s.changedAt d := fun d => rfl
  refine ⟨fun d => ?_, fun d mem => ?_, fun d mem => ?_, fun d owed => ?_, fun b mem => ?_,
    fun d due => ?_⟩
  · show (s.change c corpora).changedAt d ≤ s.clock + 1
    rw [dated]
    split
    · exact Nat.le_refl _
    · exact Nat.le_succ_of_le (kept.past d)
  · show 0 < (s.change c corpora).changedAt d
    rw [dated]
    split
    · exact Nat.succ_pos _
    · rename_i other
      exact kept.loaded d ((others d other).mp mem)
  · show 0 < (s.change c corpora).changedAt d ∨ d ∈ claimed
    rw [dated]
    split
    · exact Or.inl (Nat.succ_pos _)
    · exact kept.owned d mem
  · show 0 < (s.change c corpora).changedAt d
    rw [dated]
    split
    · exact Nat.succ_pos _
    · rename_i other
      obtain ⟨b, there, is⟩ := owed
      rcases Pool.mem_replace there with new | old
      · cases List.mem_singleton.mp new
        rw [owes] at is
        exact absurd (Option.some.inj is).symm other
      · exact kept.owes d ⟨b, old, is⟩
  · have each : ∀ b ∈ Pool.replace s.calls a [⟨a.number, stage⟩],
        Knows initial claimed (s.change c corpora) b.stage := by
      refine Pool.forall_replace (fun b mem => (kept.calls b mem).change others) fun b new => ?_
      cases List.mem_singleton.mp new
      exact known
    exact (each b mem).same rfl rfl rfl rfl
  · by_cases same : d = c
    · exact Or.inr ⟨_, Pool.next_mem_replace List.mem_cons_self, same ▸ owes⟩
    · have before : Due initial claimed s d := (due_change_other others same).mp due
      refine (kept.disk d before).imp_right fun owed => Pool.exists_replace owed fun is => ?_
      rw [owed_none] at is
      cases is

/-- The call claims the corpus that it has changed. -/
theorem Kept.claim (kept : Kept initial claimed s) {a : RegistryCall} (mem : a ∈ s.calls)
    {caller : Caller} (stage : a.stage = .owning caller) {c : String}
    (changed : caller.changed = some c) :
    Kept initial claimed ((s.claim c).become a (.snapshotting caller)) := by
  have owing : ∀ d, caller.changed = some d → Owed s.calls d := fun d is =>
    ⟨a, mem, by rw [stage]; exact is⟩
  refine ⟨fun d => Nat.le_succ_of_le (kept.past d), kept.loaded, fun d mem => ?_,
    fun d owed => ?_, fun b mem => ?_, fun d due => ?_⟩
  · rcases Finset.mem_insert.mp mem with rfl | old
    · exact Or.inl (kept.owes d (owing d changed))
    · exact kept.owned d old
  · refine kept.owes d ?_
    obtain ⟨b, there, is⟩ := owed
    rcases Pool.mem_replace there with new | old
    · cases List.mem_singleton.mp new
      exact owing d is
    · exact ⟨b, old, is⟩
  · have each : ∀ b ∈ Pool.replace s.calls a [⟨a.number, .snapshotting caller⟩],
        Knows initial claimed (s.claim c) b.stage := by
      refine Pool.forall_replace (fun b mem => (kept.calls b mem).claim c) fun b new => ?_
      cases List.mem_singleton.mp new
      trivial
    exact (each b mem).same rfl rfl rfl rfl
  · refine (kept.disk d due).imp_right fun owed => Pool.exists_replace owed fun is => ?_
    rw [stage] at is
    exact ⟨_, List.mem_cons_self, is⟩

/-! ### The save -/

theorem mem_ids {entries : List ManifestEntry} {c : String} :
    c ∈ ids entries ↔ ∃ e ∈ entries, e.id = c :=
  List.mem_map

theorem mem_ids_append {xs ys : List ManifestEntry} {c : String} :
    c ∈ ids (xs ++ ys) ↔ c ∈ ids xs ∨ c ∈ ids ys := by
  rw [ids, List.map_append, List.mem_append]
  rfl

theorem mem_ids_snapshot_loaded (s : RegistryState) (c : String) :
    c ∈ ids s.snapshot.loaded ↔ c ∈ s.corpora := by
  rw [mem_ids, Rows.mem_iff_lookup]
  constructor
  · rintro ⟨e, mem, rfl⟩
    obtain ⟨row, stored, rfl⟩ := List.mem_map.mp mem
    exact ⟨row.2, (Rows.mem_entries_iff _ _ _).mp stored⟩
  · rintro ⟨paths, found⟩
    exact ⟨⟨c, paths⟩, List.mem_map.mpr ⟨⟨c, paths⟩, (Rows.mem_entries_iff _ _ _).mpr found, rfl⟩,
      rfl⟩

theorem snapshot_right (s : RegistryState) : s.snapshot.Right s :=
  ⟨Nat.le_refl _, fun c _ => mem_ids_snapshot_loaded s c⟩

/-- A merge keeps an id of the file that is not owned. -/
theorem mem_ids_merge {snap : Snapshot} {owned : Finset String} {disk : List ManifestEntry}
    {c : String} : c ∈ ids (merge snap owned disk) ↔
      c ∈ ids snap.entries ∨ (c ∈ ids disk ∧ c ∉ owned) := by
  rw [merge, mem_ids_append]
  constructor
  · rintro (recorded | kept)
    · exact Or.inl recorded
    · obtain ⟨e, mem, rfl⟩ := mem_ids.mp kept
      obtain ⟨on_disk, free⟩ := List.mem_filter.mp mem
      have free := of_decide_eq_true free
      exact Or.inr ⟨mem_ids.mpr ⟨e, on_disk, rfl⟩, free.2⟩
  · rintro (recorded | ⟨on_disk, free⟩)
    · exact Or.inl recorded
    · by_cases recorded : c ∈ ids snap.entries
      · exact Or.inl recorded
      · obtain ⟨e, mem, rfl⟩ := mem_ids.mp on_disk
        exact Or.inr (mem_ids.mpr ⟨e, List.mem_filter.mpr ⟨mem, decide_eq_true ⟨recorded, free⟩⟩,
          rfl⟩)

/-- The merged entries hold what is due, except for what has changed since. -/
theorem Kept.merge (kept : Kept initial claimed s) {a : RegistryCall} (mem : a ∈ s.calls)
    {caller : Caller} {snap : Snapshot} {owned : Finset String}
    (stage : a.stage = .merging caller snap owned) :
    Knows initial claimed s (.writing caller snap (merge snap owned s.disk)) := by
  have known := kept.calls a mem
  rw [stage] at known
  obtain ⟨⟨past, loaded⟩, sub⟩ := known
  refine ⟨past, fun c due => ?_⟩
  by_cases early : s.changedAt c ≤ snap.takenAt
  · refine Or.inl (mem_ids_merge.mpr ?_)
    rcases due with is_loaded | ⟨was, unclaimed, never⟩
    · exact Or.inl (mem_ids_append.mpr (Or.inl ((loaded c early).mpr is_loaded)))
    · refine Or.inr ⟨?_, fun is_owned => ?_⟩
      · rcases kept.disk c (Or.inr ⟨was, unclaimed, never⟩) with on_disk | owed
        · exact on_disk
        · have changed := kept.owes c owed
          omega
      · rcases kept.owned c (sub is_owned) with changed | is_claimed
        · omega
        · exact unclaimed is_claimed
  · exact Or.inr (Nat.lt_of_not_le early)

/-- The save is written; what it missed is still owed. -/
theorem Kept.write (kept : Kept initial claimed s) {a : RegistryCall} (mem : a ∈ s.calls)
    {caller : Caller} {snap : Snapshot} {entries : List ManifestEntry}
    (stage : a.stage = .writing caller snap entries)
    (in_turn : ∀ c, s.Since snap c → Owed (s.calls.erase a) c) :
    Kept initial claimed ({ s with disk := entries }.finish a) := by
  have known := kept.calls a mem
  rw [stage] at known
  have fewer : ∀ c, Owed (s.calls.erase a) c → Owed s.calls c := fun c ⟨b, there, is⟩ =>
    ⟨b, List.mem_of_mem_erase there, is⟩
  refine ⟨kept.past, kept.loaded, kept.owned, fun c owed => kept.owes c (fewer c owed),
    fun b there => ?_, fun c due => ?_⟩
  · exact (kept.calls b (List.mem_of_mem_erase there)).same rfl rfl rfl rfl
  · rcases known.2 c due with written | since
    · exact Or.inl written
    · exact Or.inr (in_turn c (Or.inl since))

theorem Kept.act (kept : Kept initial claimed s) {a : RegistryCall} (mem : a ∈ s.calls)
    (loads : Bool) (in_turn : ∀ caller snap entries, a.stage = .writing caller snap entries →
      ∀ c, s.Since snap c → Owed (s.calls.erase a) c) :
    Kept initial claimed (s.act a loads) := by
  unfold RegistryState.act
  cases stage : a.stage with
  | checking c paths =>
      dsimp only
      split
      · exact kept.finishes mem (by rw [stage]; rfl)
      · exact kept.goes_on mem _ trivial (by rw [stage]; rfl)
  | waiting c paths =>
      have moved := kept.goes_on mem (.rechecking c paths) trivial (by rw [stage]; rfl)
      exact moved.other _ _
  | rechecking c paths =>
      dsimp only
      split
      · exact (kept.other _ _).finishes mem (by rw [stage]; rfl)
      · exact kept.goes_on mem _ trivial (by rw [stage]; rfl)
  | marking c paths =>
      have moved := kept.goes_on mem (.loading c paths) trivial (by rw [stage]; rfl)
      exact moved.other _ _
  | loading c paths =>
      dsimp only
      split
      · exact kept.goes_on mem _ trivial (by rw [stage]; rfl)
      · exact kept.goes_on mem _ trivial (by rw [stage]; rfl)
  | failed c => exact (kept.other _ _).finishes mem (by rw [stage]; rfl)
  | inserting c paths =>
      dsimp only
      split
      · exact kept.goes_on mem _ trivial (by rw [stage]; rfl)
      · refine kept.change (fun d other => ?_) (by rw [stage]; rfl) rfl trivial
        rw [AList.mem_insert]
        exact or_iff_right other
  | clearing c inserted =>
      dsimp only
      split
      · rename_i inserted
        have moved := kept.goes_on mem (.owning (.register c)) trivial
          (by simp [stage, CallStage.owes, inserted, Caller.changed])
        exact moved.other _ _
      · rename_i absent
        exact (kept.other _ _).finishes mem (by simp [stage, CallStage.owes, absent])
  | unregistering c =>
      dsimp only
      split
      · refine kept.change (fun d other => ?_) (by rw [stage]; rfl) rfl trivial
        rw [AList.mem_erase]
        exact and_iff_right other
      · exact kept.finishes mem (by rw [stage]; rfl)
  | owning caller =>
      dsimp only
      split
      · rename_i c changed
        exact kept.claim mem stage changed
      · exact kept.goes_on mem _ trivial (by rw [stage]; rfl)
  | snapshotting caller => exact kept.goes_on mem _ (snapshot_right s) (by rw [stage]; rfl)
  | readingOwned caller snap =>
      have known := kept.calls a mem
      rw [stage] at known
      exact kept.goes_on mem _ ⟨known, Finset.Subset.refl _⟩ (by rw [stage]; rfl)
  | merging caller snap owned => exact kept.goes_on mem _ (kept.merge mem stage) (by rw [stage]; rfl)
  | writing caller snap entries =>
      exact (kept.write mem stage (in_turn caller snap entries stage)).other _ _

/-- **Nothing due is lost** by a step that writes in its turn. -/
theorem Kept.after_step (kept : Kept initial claimed s) {e : RegistryEvent}
    (in_turn : RenamesInTurn s e) (taken : s.step e = some t) : Kept initial claimed t := by
  rcases step_eq_some taken with ⟨c, paths, -, rfl⟩ | ⟨c, -, rfl⟩ |
    ⟨n, loads, a, is, found, mem, -, rfl⟩
  · exact kept.begin trivial rfl
  · exact kept.begin trivial rfl
  · exact kept.act mem loads (in_turn n loads is a found)

end Kept

end Ministr.Daemon
