/-
# Daemon.ManifestAgree — does the manifest agree with the registry?

With no call in progress the manifest should hold the loaded corpora and the entries it
started with that this instance never had in its map, and nothing else.  It need not.  A
save that took its snapshot before another corpus was registered and saved writes that
corpus out of the file again (`registered_corpus_lost`).  And a corpus whose load fails
stays in the file when another save recorded it while it was warming, because nobody
owns it.

`ManifestKept` says when nothing is lost.  Here is the other half (`Truthful`): what is
on disk is due, or is being loaded, or is still owed a save.  A failed load must
therefore find itself unrecorded when it clears its mark (`FailsUnrecorded`).  Both
together give the agreement (`manifest_agrees`).
-/
import Ministr.Daemon.ManifestKept

namespace Ministr.Daemon

open Ministr.Theory
open RegistryState

set_option autoImplicit false

/-! ## Loads of one corpus exclude each other -/

namespace CallStage

/-- The load lock the call holds. -/
def lock : CallStage → Option String
  | .rechecking c _ | .marking c _ | .loading c _ | .failed c | .inserting c _
  | .clearing c _ => some c
  | .owning caller | .snapshotting caller | .readingOwned caller _ | .merging caller _ _
  | .writing caller _ _ => caller.lock
  | .checking _ _ | .waiting _ _ | .unregistering _ => none

/-- The corpus that the call loads and has not put into the map. -/
def loads : CallStage → Option String
  | .marking c _ | .loading c _ | .failed c | .inserting c _ => some c
  | _ => none

end CallStage

/-- The call holds the load lock of the corpus. -/
def RegistryCall.holds (c : String) (a : RegistryCall) : Bool := a.stage.lock = some c

structure LoadsAlone (s : RegistryState) : Prop where
  locks : ∀ c, s.calls.countP (RegistryCall.holds c) = if c ∈ s.locks then 1 else 0
  absent : ∀ a ∈ s.calls, ∀ c, a.stage.loads = some c → c ∉ s.corpora
  inserted : ∀ a ∈ s.calls, ∀ c inserted, a.stage = .clearing c inserted → inserted = true

section Locks

variable {s : RegistryState} {a : RegistryCall}

/-- A call that keeps its lock, or its having none. -/
theorem holds_same (mem : a ∈ s.calls) {stage : CallStage} (same : stage.lock = a.stage.lock)
    (c : String) : (Pool.replace s.calls a [⟨a.number, stage⟩]).countP (RegistryCall.holds c) =
      s.calls.countP (RegistryCall.holds c) := by
  have count := Pool.countP_replace mem [⟨a.number, stage⟩] (RegistryCall.holds c)
  have alike : RegistryCall.holds c ⟨a.number, stage⟩ = a.holds c := by
    rw [RegistryCall.holds, RegistryCall.holds, same]
  rw [List.countP_singleton, alike] at count
  omega

/-- A call that returns releases its lock. -/
theorem holds_finish (mem : a ∈ s.calls) {c : String} (alone : ∀ d, s.calls.countP
    (RegistryCall.holds d) = if d ∈ s.locks then 1 else 0) :
    (Pool.replace s.calls a []).countP (RegistryCall.holds c) =
      if c ∈ (s.release a.stage.lock).locks then 1 else 0 := by
  have count := Pool.countP_replace mem [] (RegistryCall.holds c)
  rw [List.countP_nil, Nat.zero_add, alone c] at count
  show _ = if c ∈ a.stage.lock.elim s.locks s.locks.erase then 1 else 0
  cases held : a.stage.lock with
  | none =>
      have no : a.holds c = false := by
        rw [RegistryCall.holds, held]
        simp
      rw [no] at count
      exact count
  | some d =>
      by_cases same : c = d
      · subst same
        have yes : a.holds c = true := by
          rw [RegistryCall.holds, held]
          simp
        rw [yes, if_pos rfl] at count
        simp only [Option.elim, Finset.mem_erase, ne_eq, not_true_eq_false, false_and, if_false]
        split at count <;> omega
      · have no : a.holds c = false := by
          rw [RegistryCall.holds, held]
          simp [Ne.symm same]
        rw [no] at count
        simpa [same] using count

/-- A call that waited takes the lock that is free. -/
theorem holds_acquire (mem : a ∈ s.calls) {c d : String} {paths : List String}
    (waits : a.stage = .waiting c paths) (free : c ∉ s.locks) (alone : ∀ d, s.calls.countP
      (RegistryCall.holds d) = if d ∈ s.locks then 1 else 0) :
    (Pool.replace s.calls a [⟨a.number, .rechecking c paths⟩]).countP (RegistryCall.holds d) =
      if d ∈ insert c s.locks then 1 else 0 := by
  have count := Pool.countP_replace mem [⟨a.number, .rechecking c paths⟩] (RegistryCall.holds d)
  have no : a.holds d = false := by
    rw [RegistryCall.holds, waits]
    rfl
  rw [List.countP_singleton, no, alone d] at count
  by_cases same : d = c
  · subst same
    have yes : RegistryCall.holds d ⟨a.number, .rechecking d paths⟩ = true := by
      simp [RegistryCall.holds, CallStage.lock]
    rw [yes, if_neg free] at count
    simpa using count
  · have no' : RegistryCall.holds d ⟨a.number, .rechecking c paths⟩ = false := by
      simp [RegistryCall.holds, CallStage.lock, Ne.symm same]
    rw [no'] at count
    simpa [same] using count

end Locks

section LoadsAlone

variable {s t : RegistryState} {a : RegistryCall}

/-- Two calls do not load one corpus. -/
theorem LoadsAlone.other_lock (alone : LoadsAlone s) (mem : a ∈ s.calls) {c : String}
    (holds : a.stage.lock = some c) {b : RegistryCall} (stays : b ∈ s.calls.erase a) :
    b.stage.lock ≠ some c := by
  intro too
  have count := (List.perm_cons_erase mem).countP_eq (RegistryCall.holds c)
  have first : a.holds c = true := decide_eq_true holds
  have second : 0 < (s.calls.erase a).countP (RegistryCall.holds c) :=
    List.countP_pos_iff.mpr ⟨b, stays, decide_eq_true too⟩
  rw [List.countP_cons, if_pos first, alone.locks c] at count
  split at count <;> omega

theorem CallStage.lock_of_loads {stage : CallStage} {c : String} (loads : stage.loads = some c) :
    stage.lock = some c := by
  cases stage <;> first | exact loads | cases loads

/-- A call goes on under its lock, and the map stays as it is. -/
theorem LoadsAlone.goes_on (alone : LoadsAlone s) (mem : a ∈ s.calls) {stage : CallStage}
    (corpora : t.corpora = s.corpora) (locks : t.locks = s.locks)
    (calls : t.calls = Pool.replace s.calls a [⟨a.number, stage⟩])
    (same : stage.lock = a.stage.lock) (absent : ∀ c, stage.loads = some c → c ∉ s.corpora)
    (inserted : ∀ c inserted, stage = .clearing c inserted → inserted = true) : LoadsAlone t := by
  refine ⟨fun c => ?_, ?_, ?_⟩
  · rw [calls, locks, holds_same mem same]
    exact alone.locks c
  · rw [calls, corpora]
    refine Pool.forall_replace alone.absent fun b new => ?_
    cases List.mem_singleton.mp new
    exact absent
  · rw [calls]
    refine Pool.forall_replace alone.inserted fun b new => ?_
    cases List.mem_singleton.mp new
    exact inserted

theorem LoadsAlone.finishes (alone : LoadsAlone s) (mem : a ∈ s.calls)
    (corpora : t.corpora = s.corpora) (locks : t.locks = (s.release a.stage.lock).locks)
    (calls : t.calls = Pool.replace s.calls a []) : LoadsAlone t := by
  refine ⟨fun c => ?_, ?_, ?_⟩
  · rw [calls, holds_finish mem alone.locks]
    simp only [locks]
  · rw [calls, corpora]
    exact Pool.forall_replace alone.absent nofun
  · rw [calls]
    exact Pool.forall_replace alone.inserted nofun

theorem LoadsAlone.begin (alone : LoadsAlone s) {stage : CallStage} (no_lock : stage.lock = none)
    (no_load : stage.loads = none) (other : ∀ c inserted, stage ≠ .clearing c inserted) :
    LoadsAlone (s.begin stage) := by
  refine ⟨fun c => ?_, fun b mem c is => ?_, fun b mem c inserted is => ?_⟩
  · have no : RegistryCall.holds c ⟨s.nextCall, stage⟩ = false := by
      rw [RegistryCall.holds, no_lock]
      simp
    show (_ :: s.calls).countP _ = _
    rw [List.countP_cons, no]
    exact alone.locks c
  · rcases List.mem_cons.mp mem with rfl | old
    · rw [no_load] at is
      cases is
    · exact alone.absent b old c is
  · rcases List.mem_cons.mp mem with rfl | old
    · exact absurd is (other c inserted)
    · exact alone.inserted b old c inserted is

/-- The corpus is put into the map by the call that holds its lock. -/
theorem LoadsAlone.insert (alone : LoadsAlone s) (mem : a ∈ s.calls) {c : String}
    {paths : List String} (stage : a.stage = .inserting c paths) :
    LoadsAlone ((s.change c (s.corpora.insert c paths)).become a (.clearing c true)) := by
  have lock : a.stage.lock = some c := by rw [stage]; rfl
  refine ⟨fun d => ?_, fun b mem' d is => ?_, ?_⟩
  · show (Pool.replace s.calls a _).countP _ = _
    rw [holds_same mem (by rw [stage]; rfl)]
    exact alone.locks d
  · show d ∉ s.corpora.insert c paths
    rw [AList.mem_insert]
    rcases List.mem_append.mp mem' with new | stays
    · cases List.mem_singleton.mp new
      cases is
    · rintro (rfl | there)
      · exact alone.other_lock mem lock stays (CallStage.lock_of_loads is)
      · exact alone.absent b (List.mem_of_mem_erase stays) d is there
  · refine Pool.forall_replace alone.inserted fun b new d inserted is => ?_
    cases List.mem_singleton.mp new
    cases is
    rfl

theorem LoadsAlone.remove (alone : LoadsAlone s) (mem : a ∈ s.calls) {c : String}
    (stage : a.stage = .unregistering c) :
    LoadsAlone ((s.change c (s.corpora.erase c)).become a (.owning (.unregister c))) := by
  refine ⟨fun d => ?_, fun b mem' d is => ?_, ?_⟩
  · show (Pool.replace s.calls a _).countP _ = _
    rw [holds_same mem (by rw [stage]; rfl)]
    exact alone.locks d
  · show d ∉ s.corpora.erase c
    rw [AList.mem_erase]
    rcases Pool.mem_replace mem' with new | old
    · cases List.mem_singleton.mp new
      cases is
    · exact fun there => alone.absent b old d is there.2
  · refine Pool.forall_replace alone.inserted fun b new d inserted is => ?_
    cases List.mem_singleton.mp new
    cases is

theorem LoadsAlone.act (alone : LoadsAlone s) (mem : a ∈ s.calls)
    (free : s.enabled a.stage = true) (loads : Bool) : LoadsAlone (s.act a loads) := by
  have absent := alone.absent a mem
  have inserted := alone.inserted a mem
  unfold RegistryState.act
  cases stage : a.stage with
  | checking c paths =>
      dsimp only
      split
      · exact alone.finishes mem rfl (by rw [stage]; rfl) rfl
      · exact alone.goes_on mem rfl rfl rfl (by rw [stage]; rfl) nofun nofun
  | waiting c paths =>
      have is_free : c ∉ s.locks := by
        rw [stage] at free
        exact of_decide_eq_true free
      refine ⟨fun d => holds_acquire mem stage is_free alone.locks,
        Pool.forall_replace alone.absent fun b new d is => ?_,
        Pool.forall_replace alone.inserted fun b new d inserted is => ?_⟩
      · cases List.mem_singleton.mp new
        cases is
      · cases List.mem_singleton.mp new
        cases is
  | rechecking c paths =>
      dsimp only
      split
      · exact alone.finishes mem rfl (by rw [stage]; rfl) rfl
      · rename_i not_loaded
        refine alone.goes_on mem rfl rfl rfl (by rw [stage]; rfl) (fun d is => ?_) nofun
        cases is
        exact not_loaded
  | marking c paths =>
      rw [stage] at absent
      exact alone.goes_on mem rfl rfl rfl (by rw [stage]; rfl) absent nofun
  | loading c paths =>
      rw [stage] at absent
      dsimp only
      split
      · exact alone.goes_on mem rfl rfl rfl (by rw [stage]; rfl) absent nofun
      · exact alone.goes_on mem rfl rfl rfl (by rw [stage]; rfl) absent nofun
  | failed c => exact alone.finishes mem rfl (by rw [stage]; rfl) rfl
  | inserting c paths =>
      rw [stage] at absent
      dsimp only
      rw [if_neg (absent c rfl)]
      exact alone.insert mem stage
  | clearing c is_inserted =>
      obtain rfl := inserted c is_inserted stage
      exact alone.goes_on mem rfl rfl rfl (by rw [stage]; rfl) nofun nofun
  | unregistering c =>
      dsimp only
      split
      · exact alone.remove mem stage
      · exact alone.finishes mem rfl (by rw [stage]; rfl) rfl
  | owning caller =>
      dsimp only
      split
      · exact alone.goes_on mem rfl rfl rfl (by rw [stage]; rfl) nofun nofun
      · exact alone.goes_on mem rfl rfl rfl (by rw [stage]; rfl) nofun nofun
  | snapshotting caller => exact alone.goes_on mem rfl rfl rfl (by rw [stage]; rfl) nofun nofun
  | readingOwned caller snap =>
      exact alone.goes_on mem rfl rfl rfl (by rw [stage]; rfl) nofun nofun
  | merging caller snap owned =>
      exact alone.goes_on mem rfl rfl rfl (by rw [stage]; rfl) nofun nofun
  | writing caller snap entries => exact alone.finishes mem rfl (by rw [stage]; rfl) rfl

end LoadsAlone

/-! ## What is on disk -/

namespace CallStage

/-- The corpus that the call has changed and not yet claimed. -/
def unclaimed : CallStage → Option String
  | .clearing c inserted => if inserted then some c else none
  | .owning caller => caller.changed
  | _ => none

/-- The corpus that the call has marked as warming. -/
def warms : CallStage → Option String
  | .loading c _ | .failed c | .inserting c _ | .clearing c _ => some c
  | _ => none

/-- The snapshot of a save in progress, and the ids it will write that were not loaded. -/
def saves : CallStage → Option (Snapshot × List String)
  | .readingOwned _ snap | .merging _ snap _ => some (snap, ids snap.warming)
  | .writing _ snap entries => some (snap, ids entries)
  | _ => none

end CallStage

def Unclaimed (calls : List RegistryCall) (corpusId : String) : Prop :=
  ∃ a ∈ calls, a.stage.unclaimed = some corpusId

def Warms (calls : List RegistryCall) (corpusId : String) : Prop :=
  ∃ a ∈ calls, a.stage.warms = some corpusId

section Truthful

variable (initial : List ManifestEntry) (claimed : Finset String)

/-- A load that fails clears its mark when nobody has recorded it: the file does not hold
it, or a save is owed, and saves in progress will not write it, or lag behind. -/
def FailsUnrecorded (s : RegistryState) (e : RegistryEvent) : Prop :=
  ∀ n loads, e = .advance n loads → ∀ a, (s.calls.find? fun a => a.number = n) = some a →
    ∀ c, a.stage = .failed c → Due initial claimed s c ∨
      ((c ∈ ids s.disk → Owed s.calls c) ∧
        ∀ b ∈ s.calls, ∀ snap recorded, b.stage.saves = some (snap, recorded) →
          c ∈ recorded → s.Since snap c)

/-- Why a save may write an id. -/
def Excused (s : RegistryState) (snap : Snapshot) (c : String) : Prop :=
  Due initial claimed s c ∨ s.Since snap c ∨ c ∈ s.warming ∨ Unclaimed s.calls c

structure Truthful (s : RegistryState) : Prop where
  past : ∀ c, s.claimedAt c ≤ s.clock
  warming : ∀ c ∈ s.warming, Warms s.calls c
  claims : ∀ c, 0 < s.changedAt c → c ∈ s.owned ∨ Unclaimed s.calls c
  saves : ∀ a ∈ s.calls, ∀ snap recorded, a.stage.saves = some (snap, recorded) →
    snap.takenAt ≤ s.clock ∧ ∀ c ∈ recorded, Excused initial claimed s snap c
  merges : ∀ a ∈ s.calls, ∀ caller snap owned, a.stage = .merging caller snap owned →
    ∀ c ∈ s.owned, s.claimedAt c ≤ snap.takenAt → c ∈ owned
  disk : ∀ c ∈ ids s.disk, Due initial claimed s c ∨ c ∈ s.warming ∨ Owed s.calls c

variable {initial claimed} {s t : RegistryState} {a : RegistryCall}

/-- A step that touches neither the maps nor the owned ids nor the file. -/
theorem Truthful.move (truthful : Truthful initial claimed s) {next : List RegistryCall}
    (corpora : t.corpora = s.corpora) (warming : t.warming = s.warming)
    (owned : t.owned = s.owned) (clock : t.clock = s.clock)
    (changedAt : t.changedAt = s.changedAt) (claimedAt : t.claimedAt = s.claimedAt)
    (disk : t.disk = s.disk) (calls : t.calls = Pool.replace s.calls a next)
    (owes : ∀ c, a.stage.owes = some c → ∃ b ∈ next, b.stage.owes = some c)
    (unclaimed : ∀ c, a.stage.unclaimed = some c → ∃ b ∈ next, b.stage.unclaimed = some c)
    (warms : ∀ c, a.stage.warms = some c → ∃ b ∈ next, b.stage.warms = some c)
    (saves : ∀ b ∈ next, ∀ snap recorded, b.stage.saves = some (snap, recorded) →
      snap.takenAt ≤ s.clock ∧ ∀ c ∈ recorded, Excused initial claimed s snap c)
    (merges : ∀ b ∈ next, ∀ caller snap owned, b.stage = .merging caller snap owned →
      ∀ c ∈ s.owned, s.claimedAt c ≤ snap.takenAt → c ∈ owned) :
    Truthful initial claimed t := by
  obtain ⟨corpora', warming', locks', owned', disk', calls', next', clock', changedAt',
    claimedAt'⟩ := t
  subst corpora warming owned clock changedAt claimedAt disk calls
  have excuse : ∀ snap c, Excused initial claimed s snap c → (Due initial claimed s c ∨
      s.Since snap c ∨ c ∈ s.warming ∨ Unclaimed (Pool.replace s.calls a next) c) :=
    fun snap c => Or.imp_right (Or.imp_right (Or.imp_right fun some =>
      Pool.exists_replace some (unclaimed c)))
  refine ⟨truthful.past, fun c mem => ?_, fun c changed => ?_, ?_, ?_, fun c mem => ?_⟩
  · exact Pool.exists_replace (truthful.warming c mem) (warms c)
  · exact (truthful.claims c changed).imp_right fun some =>
      Pool.exists_replace some (unclaimed c)
  · have each := Pool.forall_replace (a := a) truthful.saves saves
    exact fun b mem snap recorded is => ⟨(each b mem snap recorded is).1,
      fun c rec => excuse snap c ((each b mem snap recorded is).2 c rec)⟩
  · exact Pool.forall_replace truthful.merges merges
  · exact (truthful.disk c mem).imp_right (Or.imp_right fun some =>
      Pool.exists_replace some (owes c))

/-- The common case: the call goes on and has nothing new to write. -/
theorem Truthful.goes_on (truthful : Truthful initial claimed s) (stage : CallStage)
    (owes : stage.owes = a.stage.owes) (unclaimed : stage.unclaimed = a.stage.unclaimed)
    (warms : stage.warms = a.stage.warms)
    (saves : ∀ snap recorded, stage.saves = some (snap, recorded) →
      snap.takenAt ≤ s.clock ∧ ∀ c ∈ recorded, Excused initial claimed s snap c)
    (merges : ∀ caller snap owned, stage = .merging caller snap owned →
      ∀ c ∈ s.owned, s.claimedAt c ≤ snap.takenAt → c ∈ owned) :
    Truthful initial claimed (s.become a stage) := by
  refine truthful.move rfl rfl rfl rfl rfl rfl rfl rfl ?_ ?_ ?_ (fun b new => ?_) fun b new => ?_
  · exact fun c is => ⟨_, List.mem_cons_self, owes.trans is⟩
  · exact fun c is => ⟨_, List.mem_cons_self, unclaimed.trans is⟩
  · exact fun c is => ⟨_, List.mem_cons_self, warms.trans is⟩
  · cases List.mem_singleton.mp new
    exact saves
  · cases List.mem_singleton.mp new
    exact merges

theorem Truthful.finishes (truthful : Truthful initial claimed s) (owes : a.stage.owes = none)
    (unclaimed : a.stage.unclaimed = none) (warms : a.stage.warms = none) :
    Truthful initial claimed (s.finish a) := by
  refine truthful.move rfl rfl rfl rfl rfl rfl rfl rfl ?_ ?_ ?_ nofun nofun
  · exact fun c is => by rw [owes] at is; cases is
  · exact fun c is => by rw [unclaimed] at is; cases is
  · exact fun c is => by rw [warms] at is; cases is

/-- The locks play no part. -/
theorem Truthful.other (truthful : Truthful initial claimed s) (locks : Finset String) :
    Truthful initial claimed { s with locks } :=
  ⟨truthful.past, truthful.warming, truthful.claims, truthful.saves, truthful.merges,
    truthful.disk⟩

theorem Truthful.begin (truthful : Truthful initial claimed s) {stage : CallStage}
    (no_save : stage.saves = none) :
    Truthful initial claimed (s.begin stage) := by
  have more : ∀ {P : RegistryCall → Prop}, (∃ b ∈ s.calls, P b) →
      ∃ b ∈ (s.begin stage).calls, P b :=
    fun ⟨b, mem, holds⟩ => ⟨b, List.mem_cons_of_mem _ mem, holds⟩
  refine ⟨truthful.past, fun c mem => more (truthful.warming c mem),
    fun c changed => (truthful.claims c changed).imp_right more, fun b mem snap recorded is => ?_,
    fun b mem caller snap owned is => ?_,
    fun c mem => (truthful.disk c mem).imp_right (Or.imp_right more)⟩
  · rcases List.mem_cons.mp mem with rfl | old
    · rw [no_save] at is
      cases is
    · obtain ⟨past, excused⟩ := truthful.saves b old snap recorded is
      exact ⟨past, fun c rec =>
        (excused c rec).imp_right (Or.imp_right (Or.imp_right more))⟩
  · rcases List.mem_cons.mp mem with rfl | old
    · dsimp only at is
      rw [is] at no_save
      cases no_save
    · exact truthful.merges b old caller snap owned is

/-- A step after which the call that made it is not in the middle of a save. -/
theorem Truthful.step_of (truthful : Truthful initial claimed s) {next : List RegistryCall}
    (calls : t.calls = Pool.replace s.calls a next) (no_save : ∀ b ∈ next, b.stage.saves = none)
    (clock : s.clock ≤ t.clock) (past : ∀ c, t.claimedAt c ≤ t.clock)
    (warming : ∀ c ∈ t.warming, Warms t.calls c)
    (claims : ∀ c, 0 < t.changedAt c → c ∈ t.owned ∨ Unclaimed t.calls c)
    (excuse : ∀ b ∈ s.calls, ∀ snap recorded, b.stage.saves = some (snap, recorded) →
      snap.takenAt ≤ s.clock → ∀ c ∈ recorded, Excused initial claimed s snap c →
        Excused initial claimed t snap c)
    (owned : ∀ c ∈ t.owned, c ∈ s.owned ∨ s.clock < t.claimedAt c)
    (dated : ∀ c, s.claimedAt c ≤ t.claimedAt c)
    (disk : ∀ c ∈ ids t.disk, Due initial claimed t c ∨ c ∈ t.warming ∨ Owed t.calls c) :
    Truthful initial claimed t := by
  refine ⟨past, warming, claims, ?_, ?_, disk⟩
  · rw [calls]
    refine Pool.forall_replace (fun b mem snap recorded is => ?_) fun b new snap recorded is => ?_
    · obtain ⟨taken, excused⟩ := truthful.saves b mem snap recorded is
      exact ⟨taken.trans clock,
        fun c rec => excuse b mem snap recorded is taken c rec (excused c rec)⟩
    · rw [no_save b new] at is
      cases is
  · rw [calls]
    refine Pool.forall_replace (fun b mem caller snap held is c mem' early => ?_)
      fun b new caller snap held is => ?_
    · have taken := (truthful.saves b mem snap (ids snap.warming) (by rw [is]; rfl)).1
      refine truthful.merges b mem caller snap held is c ?_ ((dated c).trans early)
      rcases owned c mem' with old | later
      · exact old
      · omega
    · have none := no_save b new
      rw [is] at none
      cases none

/-- What a call that moves has no part in stays as it is. -/
theorem still {f : CallStage → Option String} {calls next : List RegistryCall} {d : String}
    (apart : f a.stage ≠ some d) (was : ∃ b ∈ calls, f b.stage = some d) :
    ∃ b ∈ Pool.replace calls a next, f b.stage = some d :=
  Pool.exists_replace was fun is => absurd is apart

/-- The corpus is marked as warming. -/
theorem Truthful.mark (truthful : Truthful initial claimed s) {c : String} {paths : List String}
    (stage : a.stage = .marking c paths) :
    Truthful initial claimed
      ({ s with warming := s.warming.insert c paths }.become a (.loading c paths)) := by
  have more : ∀ d ∈ s.warming, d ∈ s.warming.insert c paths := fun d mem =>
    (AList.mem_insert _).mpr (Or.inr mem)
  have owes : ∀ d, a.stage.owes ≠ some d := by rw [stage]; nofun
  have unclaimed : ∀ d, a.stage.unclaimed ≠ some d := by rw [stage]; nofun
  have warms : ∀ d, a.stage.warms ≠ some d := by rw [stage]; nofun
  refine truthful.step_of rfl ?_ (Nat.le_refl _) truthful.past ?_ ?_ ?_ (fun d => Or.inl)
    (fun d => Nat.le_refl _) ?_
  · intro b new
    cases List.mem_singleton.mp new
    rfl
  · intro d mem
    rcases (AList.mem_insert _).mp mem with rfl | old
    · exact ⟨_, Pool.next_mem_replace List.mem_cons_self, rfl⟩
    · exact still (warms d) (truthful.warming d old)
  · exact fun d changed => (truthful.claims d changed).imp_right (still (unclaimed d))
  · exact fun b mem snap recorded is taken d rec =>
      Or.imp_right (Or.imp_right (Or.imp (more d) (still (unclaimed d))))
  · exact fun d mem => (truthful.disk d mem).imp_right (Or.imp (more d) (still (owes d)))

/-- Another corpus stays warming when a mark is cleared. -/
theorem Truthful.warms_erase (truthful : Truthful initial claimed s) {c d : String}
    {next : List RegistryCall} (warms : a.stage.warms = some c) (mem : d ∈ s.warming.erase c) :
    Warms (Pool.replace s.calls a next) d := by
  obtain ⟨other, old⟩ := AList.mem_erase.mp mem
  refine still (fun is => other ?_) (truthful.warming d old)
  rw [warms] at is
  exact (Option.some.inj is).symm

/-- A failed load clears its mark, unrecorded. -/
theorem Truthful.fail (truthful : Truthful initial claimed s) {c : String}
    (stage : a.stage = .failed c)
    (unrecorded : Due initial claimed s c ∨ ((c ∈ ids s.disk → Owed s.calls c) ∧
      ∀ b ∈ s.calls, ∀ snap recorded, b.stage.saves = some (snap, recorded) →
        c ∈ recorded → s.Since snap c)) :
    Truthful initial claimed ({ s with warming := s.warming.erase c }.finish a) := by
  have owes : ∀ d, a.stage.owes ≠ some d := by rw [stage]; nofun
  have unclaimed : ∀ d, a.stage.unclaimed ≠ some d := by rw [stage]; nofun
  have stays : ∀ d, d ≠ c → d ∈ s.warming → d ∈ s.warming.erase c := fun d other mem =>
    AList.mem_erase.mpr ⟨other, mem⟩
  refine truthful.step_of rfl nofun (Nat.le_refl _) truthful.past ?_ ?_ ?_ (fun d => Or.inl)
    (fun d => Nat.le_refl _) ?_
  · exact fun d mem => truthful.warms_erase (by rw [stage]; rfl) mem
  · exact fun d changed => (truthful.claims d changed).imp_right (still (unclaimed d))
  · intro b mem snap recorded is taken d rec excused
    by_cases same : d = c
    · subst same
      rcases unrecorded with due | ⟨-, behind⟩
      · exact Or.inl due
      · exact Or.inr (Or.inl (behind b mem snap recorded is rec))
    · exact excused.imp_right (Or.imp_right (Or.imp (stays d same) (still (unclaimed d))))
  · intro d mem
    by_cases same : d = c
    · subst same
      rcases unrecorded with due | ⟨owed, -⟩
      · exact Or.inl due
      · exact Or.inr (Or.inr (still (owes d) (owed mem)))
    · exact (truthful.disk d mem).imp_right (Or.imp (stays d same) (still (owes d)))

/-- A load that succeeded clears its mark; the call has yet to claim the corpus. -/
theorem Truthful.clear (truthful : Truthful initial claimed s) {c : String}
    (stage : a.stage = .clearing c true) :
    Truthful initial claimed
      ({ s with warming := s.warming.erase c }.become a (.owning (.register c))) := by
  have passes : ∀ {f : CallStage → Option String} {d : String},
      f (.owning (.register c)) = f (.clearing c true) → (∃ b ∈ s.calls, f b.stage = some d) →
        ∃ b ∈ Pool.replace s.calls a [⟨a.number, .owning (.register c)⟩], f b.stage = some d := by
    intro f d same some
    refine Pool.exists_replace some fun is => ⟨_, List.mem_cons_self, ?_⟩
    rw [stage] at is
    exact same.trans is
  have stays : ∀ d, d ≠ c → d ∈ s.warming → d ∈ s.warming.erase c := fun d other mem =>
    AList.mem_erase.mpr ⟨other, mem⟩
  refine truthful.step_of rfl ?_ (Nat.le_refl _) truthful.past ?_ ?_ ?_ (fun d => Or.inl)
    (fun d => Nat.le_refl _) ?_
  · intro b new
    cases List.mem_singleton.mp new
    rfl
  · exact fun d mem => truthful.warms_erase (by rw [stage]; rfl) mem
  · exact fun d changed => (truthful.claims d changed).imp_right (passes rfl)
  · intro b mem snap recorded is taken d rec excused
    by_cases same : d = c
    · subst same
      exact Or.inr (Or.inr (Or.inr ⟨_, Pool.next_mem_replace List.mem_cons_self, rfl⟩))
    · exact excused.imp_right (Or.imp_right (Or.imp (stays d same) (passes rfl)))
  · intro d mem
    by_cases same : d = c
    · subst same
      exact Or.inr (Or.inr ⟨_, Pool.next_mem_replace List.mem_cons_self, rfl⟩)
    · exact (truthful.disk d mem).imp_right (Or.imp (stays d same) (passes rfl))

/-- The corpus enters or leaves the map. -/
theorem Truthful.change (truthful : Truthful initial claimed s) {c : String}
    {corpora : Rows String (List String)} (others : ∀ d, d ≠ c → (d ∈ corpora ↔ d ∈ s.corpora))
    {stage : CallStage} (owes : a.stage.owes = none) (unclaimed : a.stage.unclaimed = none)
    (warms : stage.warms = a.stage.warms) (no_save : stage.saves = none)
    (now_owes : stage.owes = some c) (now_unclaimed : stage.unclaimed = some c) :
    Truthful initial claimed ((s.change c corpora).become a stage) := by
  have no_debt : ∀ d, a.stage.owes ≠ some d := fun d => by rw [owes]; nofun
  have no_claim : ∀ d, a.stage.unclaimed ≠ some d := fun d => by rw [unclaimed]; nofun
  have dated : ∀ d, d ≠ c → (s.change c corpora).changedAt d = s.changedAt d :=
    fun d other => if_neg other
  refine truthful.step_of rfl ?_ (Nat.le_succ _) (fun d => Nat.le_succ_of_le (truthful.past d))
    ?_ ?_ ?_ (fun d => Or.inl) (fun d => Nat.le_refl _) ?_
  · intro b new
    cases List.mem_singleton.mp new
    exact no_save
  · exact fun d mem => Pool.exists_replace (truthful.warming d mem)
      fun is => ⟨_, List.mem_cons_self, warms.trans is⟩
  · intro d changed
    by_cases same : d = c
    · exact Or.inr ⟨_, Pool.next_mem_replace List.mem_cons_self, same ▸ now_unclaimed⟩
    · refine (truthful.claims d ?_).imp_right (still (no_claim d))
      exact dated d same ▸ changed
  · intro b mem snap recorded is taken d rec excused
    by_cases same : d = c
    · refine Or.inr (Or.inl (Or.inl ?_))
      show snap.takenAt < if d = c then s.clock + 1 else s.changedAt d
      rw [if_pos same]
      omega
    · refine excused.imp (due_change_other others same).mpr
        (Or.imp (Or.imp_left fun since => ?_) (Or.imp_right (still (no_claim d))))
      exact (dated d same).symm ▸ since
  · intro d mem
    by_cases same : d = c
    · exact Or.inr (Or.inr ⟨_, Pool.next_mem_replace List.mem_cons_self, same ▸ now_owes⟩)
    · exact (truthful.disk d mem).imp (due_change_other others same).mpr
        (Or.imp_right (still (no_debt d)))

/-- The call claims the corpus: from now on every save in progress lags behind. -/
theorem Truthful.claim (truthful : Truthful initial claimed s) {caller : Caller} {c : String}
    (stage : a.stage = .owning caller) (changed : caller.changed = some c) :
    Truthful initial claimed ((s.claim c).become a (.snapshotting caller)) := by
  have unclaimed : ∀ d, d ≠ c → a.stage.unclaimed ≠ some d := by
    intro d other is
    rw [stage] at is
    exact other (Option.some.inj (is.symm.trans changed))
  have warms : ∀ d, a.stage.warms ≠ some d := by rw [stage]; nofun
  have dated : ∀ d, (s.claim c).claimedAt d = if d = c then s.clock + 1 else s.claimedAt d :=
    fun d => rfl
  refine truthful.step_of rfl ?_ (Nat.le_succ _) (fun d => ?_) ?_ ?_ ?_ (fun d mem => ?_)
    (fun d => ?_) ?_
  · intro b new
    cases List.mem_singleton.mp new
    rfl
  · show (s.claim c).claimedAt d ≤ s.clock + 1
    have past := truthful.past d
    rw [dated]
    split <;> omega
  · exact fun d mem => still (warms d) (truthful.warming d mem)
  · intro d changed_d
    by_cases same : d = c
    · exact Or.inl (same ▸ Finset.mem_insert_self _ _)
    · exact (truthful.claims d changed_d).imp Finset.mem_insert_of_mem
        (still (unclaimed d same))
  · intro b mem snap recorded is taken d rec excused
    by_cases same : d = c
    · refine Or.inr (Or.inl (Or.inr ?_))
      show snap.takenAt < (s.claim c).claimedAt d
      rw [dated, if_pos same]
      omega
    · refine excused.imp_right (Or.imp (Or.imp_right fun since => ?_)
        (Or.imp_right (still (unclaimed d same))))
      show snap.takenAt < (s.claim c).claimedAt d
      rw [dated, if_neg same]
      exact since
  · show d ∈ s.owned ∨ s.clock < (s.claim c).claimedAt d
    rcases Finset.mem_insert.mp mem with rfl | old
    · rw [dated, if_pos rfl]
      exact Or.inr (Nat.lt_succ_self _)
    · exact Or.inl old
  · show s.claimedAt d ≤ (s.claim c).claimedAt d
    have past := truthful.past d
    rw [dated]
    split <;> omega
  · refine fun d mem => (truthful.disk d mem).imp_right (Or.imp_right fun owed => ?_)
    refine Pool.exists_replace owed fun is => ⟨_, List.mem_cons_self, ?_⟩
    rw [stage] at is
    exact is

/-! ### The save -/

theorem mem_warming_of_snapshot {c : String} (mem : c ∈ ids s.snapshot.warming) :
    c ∈ s.warming := by
  obtain ⟨e, listed, rfl⟩ := mem_ids.mp mem
  obtain ⟨row, selected, rfl⟩ := List.mem_map.mp listed
  exact (Rows.mem_iff_lookup _ _).mpr ⟨row.2, ((Rows.mem_select _ _ _ _).mp selected).1⟩

theorem CallStage.owes_of_unclaimed {stage : CallStage} {c : String}
    (unclaimed : stage.unclaimed = some c) : stage.owes = some c := by
  cases stage <;> first | exact unclaimed | cases unclaimed

/-- The merged entries are those of the snapshot, and of the file what nobody owned. -/
theorem Truthful.merge (truthful : Truthful initial claimed s) (kept : Kept initial claimed s)
    (mem : a ∈ s.calls) {caller : Caller} {snap : Snapshot} {owned : Finset String}
    (stage : a.stage = .merging caller snap owned) {c : String}
    (written : c ∈ ids (RegistryState.merge snap owned s.disk)) :
    Excused initial claimed s snap c := by
  have known := kept.calls a mem
  rw [stage] at known
  rcases mem_ids_merge.mp written with recorded | ⟨on_disk, not_owned⟩
  · rcases mem_ids_append.mp recorded with loaded | warming
    · by_cases early : s.changedAt c ≤ snap.takenAt
      · exact Or.inl (Or.inl ((known.1.loaded c early).mp loaded))
      · exact Or.inr (Or.inl (Or.inl (Nat.lt_of_not_le early)))
    · exact (truthful.saves a mem snap (ids snap.warming) (by rw [stage]; rfl)).2 c warming
  · rcases truthful.disk c on_disk with due | warming | owed
    · exact Or.inl due
    · exact Or.inr (Or.inr (Or.inl warming))
    · rcases truthful.claims c (kept.owes c owed) with is_owned | unclaimed
      · refine Or.inr (Or.inl (Or.inr (Nat.lt_of_not_le fun early => ?_)))
        exact not_owned (truthful.merges a mem caller snap owned stage c is_owned early)
      · exact Or.inr (Or.inr (Or.inr unclaimed))

/-- The save is written. -/
theorem Truthful.write (truthful : Truthful initial claimed s) (mem : a ∈ s.calls)
    {caller : Caller} {snap : Snapshot} {entries : List ManifestEntry}
    (stage : a.stage = .writing caller snap entries)
    (in_turn : ∀ c, s.Since snap c → Owed (s.calls.erase a) c) :
    Truthful initial claimed ({ s with disk := entries }.finish a) := by
  have unclaimed : ∀ d, a.stage.unclaimed ≠ some d := by rw [stage]; nofun
  have warms : ∀ d, a.stage.warms ≠ some d := by rw [stage]; nofun
  refine truthful.step_of rfl nofun (Nat.le_refl _) truthful.past ?_ ?_ ?_ (fun d => Or.inl)
    (fun d => Nat.le_refl _) ?_
  · exact fun d mem => still (warms d) (truthful.warming d mem)
  · exact fun d changed => (truthful.claims d changed).imp_right (still (unclaimed d))
  · exact fun b mem snap recorded is taken d rec =>
      Or.imp_right (Or.imp_right (Or.imp_right (still (unclaimed d))))
  · intro d written
    rcases (truthful.saves a mem snap (ids entries) (by rw [stage]; rfl)).2 d written with
      due | since | warming | to_claim
    · exact Or.inl due
    · exact Or.inr (Or.inr (in_turn d since))
    · exact Or.inr (Or.inl warming)
    · have left : Unclaimed (Pool.replace s.calls a []) d := still (unclaimed d) to_claim
      obtain ⟨b, stays, is⟩ := left
      exact Or.inr (Or.inr ⟨b, stays, CallStage.owes_of_unclaimed is⟩)

theorem Truthful.act (truthful : Truthful initial claimed s) (kept : Kept initial claimed s)
    (alone : LoadsAlone s) (mem : a ∈ s.calls) (loads : Bool)
    (in_turn : ∀ caller snap entries, a.stage = .writing caller snap entries →
      ∀ c, s.Since snap c → Owed (s.calls.erase a) c)
    (unrecorded : ∀ c, a.stage = .failed c → Due initial claimed s c ∨
      ((c ∈ ids s.disk → Owed s.calls c) ∧
        ∀ b ∈ s.calls, ∀ snap recorded, b.stage.saves = some (snap, recorded) →
          c ∈ recorded → s.Since snap c)) :
    Truthful initial claimed (s.act a loads) := by
  unfold RegistryState.act
  cases stage : a.stage with
  | checking c paths =>
      dsimp only
      split
      · exact truthful.finishes (by rw [stage]; rfl) (by rw [stage]; rfl) (by rw [stage]; rfl)
      · exact truthful.goes_on _ (by rw [stage]; rfl) (by rw [stage]; rfl) (by rw [stage]; rfl)
          nofun nofun
  | waiting c paths =>
      have moved := truthful.goes_on (a := a) (.rechecking c paths) (by rw [stage]; rfl)
        (by rw [stage]; rfl) (by rw [stage]; rfl) nofun nofun
      exact moved.other _
  | rechecking c paths =>
      dsimp only
      split
      · have done := truthful.finishes (a := a) (by rw [stage]; rfl) (by rw [stage]; rfl)
          (by rw [stage]; rfl)
        exact done.other _
      · exact truthful.goes_on _ (by rw [stage]; rfl) (by rw [stage]; rfl) (by rw [stage]; rfl)
          nofun nofun
  | marking c paths => exact truthful.mark stage
  | loading c paths =>
      dsimp only
      split
      · exact truthful.goes_on _ (by rw [stage]; rfl) (by rw [stage]; rfl) (by rw [stage]; rfl)
          nofun nofun
      · exact truthful.goes_on _ (by rw [stage]; rfl) (by rw [stage]; rfl) (by rw [stage]; rfl)
          nofun nofun
  | failed c => exact (truthful.fail stage (unrecorded c stage)).other _
  | inserting c paths =>
      dsimp only
      rw [if_neg (alone.absent a mem c (by rw [stage]; rfl))]
      refine truthful.change (fun d other => ?_) (by rw [stage]; rfl) (by rw [stage]; rfl)
        (by rw [stage]; rfl) rfl rfl rfl
      rw [AList.mem_insert]
      exact or_iff_right other
  | clearing c inserted =>
      obtain rfl := alone.inserted a mem c inserted stage
      exact truthful.clear stage
  | unregistering c =>
      dsimp only
      split
      · refine truthful.change (fun d other => ?_) (by rw [stage]; rfl) (by rw [stage]; rfl)
          (by rw [stage]; rfl) rfl rfl rfl
        rw [AList.mem_erase]
        exact and_iff_right other
      · exact truthful.finishes (by rw [stage]; rfl) (by rw [stage]; rfl) (by rw [stage]; rfl)
  | owning caller =>
      dsimp only
      split
      · rename_i c changed
        exact truthful.claim stage changed
      · rename_i none_changed
        refine truthful.goes_on _ (by rw [stage]; rfl) ?_ (by rw [stage]; rfl) nofun nofun
        rw [stage]
        exact none_changed.symm
  | snapshotting caller =>
      refine truthful.goes_on _ (by rw [stage]; rfl) (by rw [stage]; rfl) (by rw [stage]; rfl)
        (fun snap recorded is => ?_) nofun
      cases is
      exact ⟨Nat.le_refl _, fun c rec => Or.inr (Or.inr (Or.inl (mem_warming_of_snapshot rec)))⟩
  | readingOwned caller snap =>
      refine truthful.goes_on _ (by rw [stage]; rfl) (by rw [stage]; rfl) (by rw [stage]; rfl)
        (fun snap' recorded is => ?_) fun caller' snap' owned is c held early => ?_
      · exact truthful.saves a mem snap' recorded (by rw [stage]; exact is)
      · cases is
        exact held
  | merging caller snap owned =>
      refine truthful.goes_on _ (by rw [stage]; rfl) (by rw [stage]; rfl) (by rw [stage]; rfl)
        (fun snap' recorded is => ?_) nofun
      cases is
      exact ⟨(truthful.saves a mem snap (ids snap.warming) (by rw [stage]; rfl)).1,
        fun c rec => truthful.merge kept mem stage rec⟩
  | writing caller snap entries =>
      exact (truthful.write mem stage (in_turn caller snap entries stage)).other _

end Truthful

/-! ## Agreement -/

/-- The ids in the file are those of the loaded corpora and of the entries it started with
that never were in the map. -/
def Agrees (initial : List ManifestEntry) (s : RegistryState) : Prop :=
  s.Idle → ∀ c, c ∈ ids s.disk ↔ c ∈ s.corpora ∨ (c ∈ ids initial ∧ s.changedAt c = 0)

/-- The two conditions on a step. -/
structure Orderly (initial : List ManifestEntry) (s : RegistryState) (e : RegistryEvent) :
    Prop where
  in_turn : RenamesInTurn s e
  unrecorded : FailsUnrecorded initial ∅ s e

/-- What every orderly step keeps. -/
structure Agreeing (initial : List ManifestEntry) (s : RegistryState) : Prop where
  kept : Kept initial ∅ s
  alone : LoadsAlone s
  truthful : Truthful initial ∅ s

section Agreement

variable {initial : List ManifestEntry} {s t : RegistryState}

theorem agreeing_start (initial : List ManifestEntry) : Agreeing initial { disk := initial } where
  kept := kept_start initial ∅
  alone :=
    { locks := fun c => rfl
      absent := fun a mem => by cases mem
      inserted := fun a mem => by cases mem }
  truthful :=
    { past := fun c => Nat.le_refl _
      warming := fun c mem => by cases mem
      claims := fun c changed => by cases changed
      saves := fun a mem => by cases mem
      merges := fun a mem => by cases mem
      disk := fun c mem => Or.inl (Or.inr ⟨mem, Finset.notMem_empty c, rfl⟩) }

theorem Agreeing.after_step (agreeing : Agreeing initial s) {e : RegistryEvent}
    (orderly : Orderly initial s e) (taken : s.step e = some t) : Agreeing initial t := by
  refine ⟨agreeing.kept.after_step orderly.in_turn taken, ?_, ?_⟩
  · rcases step_eq_some taken with ⟨c, paths, -, rfl⟩ | ⟨c, -, rfl⟩ |
      ⟨n, loads, a, -, -, mem, free, rfl⟩
    · exact agreeing.alone.begin rfl rfl nofun
    · exact agreeing.alone.begin rfl rfl nofun
    · exact agreeing.alone.act mem free loads
  · rcases step_eq_some taken with ⟨c, paths, -, rfl⟩ | ⟨c, -, rfl⟩ |
      ⟨n, loads, a, is, found, mem, -, rfl⟩
    · exact agreeing.truthful.begin rfl
    · exact agreeing.truthful.begin rfl
    · exact agreeing.truthful.act agreeing.kept agreeing.alone mem loads
        (orderly.in_turn n loads is a found) (orderly.unrecorded n loads is a found)

theorem Agreeing.agrees (agreeing : Agreeing initial s) : Agrees initial s := by
  intro idle c
  have nobody : ∀ {P : RegistryCall → Prop}, ¬ ∃ a ∈ s.calls, P a := by
    rintro P ⟨a, mem, -⟩
    rw [idle] at mem
    cases mem
  constructor
  · intro mem
    rcases agreeing.truthful.disk c mem with due | warming | owed
    · exact due.imp_right fun ⟨was, _, never⟩ => ⟨was, never⟩
    · exact absurd (agreeing.truthful.warming c warming) nobody
    · exact absurd owed nobody
  · intro due
    have due : Due initial ∅ s c :=
      due.imp_right fun ⟨was, never⟩ => ⟨was, Finset.notMem_empty c, never⟩
    exact (agreeing.kept.disk c due).resolve_right nobody

end Agreement

/-- **The manifest agrees with the registry** in every state with no call in progress of
every run of orderly steps, whatever the file held at the start. -/
theorem manifest_agrees (initial : List ManifestEntry) (events : List RegistryEvent)
    (orderly : EachStep step (Orderly initial) { disk := initial } events) :
    Throughout step (Agrees initial) { disk := initial } events :=
  (throughout_of_eachStep (fun _ _ _ agreeing orderly taken => agreeing.after_step orderly taken)
    (agreeing_start initial) orderly).imp fun _ agreeing => agreeing.agrees

/-! ### Two runs -/

/-- The event is neither a rename nor the end of a failed load. -/
def calm (s : RegistryState) : RegistryEvent → Bool
  | .advance n _ =>
      match (s.calls.find? fun a => a.number = n).map RegistryCall.stage with
      | some (.writing _ _ _) | some (.failed _) => false
      | _ => true
  | _ => true

theorem orderly_of_calm {initial : List ManifestEntry} {s : RegistryState} {e : RegistryEvent}
    (is_calm : calm s e = true) : Orderly initial s e := by
  constructor
  · rintro n loads rfl a found caller snap entries stage
    simp [calm, found, stage] at is_calm
  · rintro n loads rfl a found c stage
    simp [calm, found, stage] at is_calm

/-- Two corpora are registered next to one that is in the file and not loaded.  The save of `a` is
in progress while `b` is loaded and claimed; `b` saves after it. -/
def overlappingSaves : List RegistryEvent :=
  [.register "a" ["/a"], .register "b" ["/b"]] ++ List.replicate 9 (.advance 0 true) ++
    List.replicate 8 (.advance 1 true) ++ List.replicate 3 (.advance 0 true) ++
    List.replicate 4 (.advance 1 true)

theorem manifest_agrees_overlapping :
    (exec step { disk := [⟨"x", ["/x"]⟩] } overlappingSaves).map (fun s => (s.calls, ids s.disk)) =
        some ([], ["b", "a", "x"]) ∧
      Throughout step (Agrees [⟨"x", ["/x"]⟩]) { disk := [⟨"x", ["/x"]⟩] } overlappingSaves := by
  refine ⟨rfl, manifest_agrees _ _ ?_⟩
  iterate 21 refine EachStep.cons (orderly_of_calm rfl) rfl ?_
  refine EachStep.cons ⟨?_, ?_⟩ rfl ?_
  · -- The register of `b` has changed the map since the snapshot, and is still to save.
    rintro n loads ⟨⟩ a found caller snap entries stage c since
    cases found
    cases stage
    have is_b : c = "b" := by
      by_contra other
      rcases since with changed | claimed
      · change 2 < (if c = "b" then 3 else if c = "a" then 1 else 0) at changed
        split_ifs at changed <;> omega
      · change 2 < (if c = "b" then 4 else if c = "a" then 2 else 0) at claimed
        split_ifs at claimed <;> omega
    exact ⟨_, List.mem_singleton_self _, congrArg some is_b.symm⟩
  · rintro n loads ⟨⟩ a found c stage
    cases found
    cases stage
  iterate 3 refine EachStep.cons (orderly_of_calm rfl) rfl ?_
  refine EachStep.cons ⟨?_, ?_⟩ rfl trivial
  · rintro n loads ⟨⟩ a found caller snap entries stage c since
    cases found
    cases stage
    rcases since with changed | claimed
    · change 4 < (if c = "b" then 3 else if c = "a" then 1 else 0) at changed
      split_ifs at changed <;> omega
    · change 4 < (if c = "b" then 4 else if c = "a" then 2 else 0) at claimed
      split_ifs at claimed <;> omega
  · rintro n loads ⟨⟩ a found c stage
    cases found
    cases stage

/-- The register of `a` takes its snapshot; then `b` is registered and saved; then `a` is
saved. -/
def staleSave : List RegistryEvent :=
  [.register "a" ["/a"], .register "b" ["/b"]] ++ List.replicate 9 (.advance 0 true) ++
    List.replicate 12 (.advance 1 true) ++ List.replicate 3 (.advance 0 true)

/-- Both calls have returned, `b` is loaded, and the manifest does not hold it. -/
theorem registered_corpus_lost :
    ∃ s, exec step { disk := [] } staleSave = some s ∧ s.Idle ∧ "b" ∈ s.corpora ∧
      ids s.disk = ["a"] := by
  refine ⟨_, rfl, rfl, ?_, rfl⟩
  decide

/-- The other way to disagree: `b` is recorded while it is warming, and its load fails. -/
example :
    (exec step { disk := [] } ([.register "b" ["/b"], .register "a" ["/a"]] ++
      List.replicate 4 (.advance 0 true) ++ List.replicate 12 (.advance 1 true) ++
        [.advance 0 false, .advance 0 true])).map (fun s => (s.calls, s.corpora.keys, ids s.disk)) =
      some ([], ["a"], ["a", "b"]) := by
  rfl

end Ministr.Daemon
