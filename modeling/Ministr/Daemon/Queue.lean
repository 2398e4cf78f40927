/-
# Daemon.Queue — the ingestion queue and the log of its requests

`QueueState` is the pending map and the busy set behind the coordinator's lock.  A
request for a corpus that is already pending coalesces onto its entry: the paths are
united, the priority is replaced, the place in the queue is kept.  The next job is the
pending corpus that is not busy with the least priority, first come first served among
equals.

What the queue is for is said by a log of the requests and of the jobs taken, newest
first.  `waiting` are the requests of a corpus that no job has answered yet.  `Refines`
connects the two: a corpus is pending exactly while requests of it are waiting, its
entry holds their paths and the latest priority, and entries are ordered as their
oldest waiting requests are.  Both operations keep it, and a job takes the paths of all
waiting requests of its corpus and nothing else (`Exact`).
-/
import Ministr.Theory.Rows
import Ministr.Theory.Scan

namespace Ministr.Daemon

open Ministr.Theory

set_option autoImplicit false

/-! ## The queue -/

structure PendingJob where
  paths : List String
  priority : Nat
  seq : Nat
  deriving DecidableEq, Repr

structure Job where
  corpusId : String
  paths : List String
  deriving DecidableEq, Repr

structure QueueState where
  pending : Rows String PendingJob := ∅
  busy : Finset String := ∅
  nextSeq : Nat := 0

/-- The paths of `paths` that are not held yet are pushed, in order. -/
def unionPaths (held paths : List String) : List String :=
  paths.foldl (fun held p => if p ∈ held then held else held ++ [p]) held

theorem mem_unionPaths {held paths : List String} {p : String} :
    p ∈ unionPaths held paths ↔ p ∈ held ∨ p ∈ paths := by
  induction paths generalizing held with
  | nil => simp [unionPaths]
  | cons q paths ih =>
      rw [show unionPaths held (q :: paths) =
        unionPaths (if q ∈ held then held else held ++ [q]) paths from rfl, ih, List.mem_cons]
      by_cases present : q ∈ held
      · rw [if_pos present]
        constructor
        · tauto
        · rintro (h | rfl | h)
          · exact Or.inl h
          · exact Or.inl present
          · exact Or.inr h
      · rw [if_neg present, List.mem_append, List.mem_singleton]
        tauto

/-- `(a.priority, a.seq) < (b.priority, b.seq)`. -/
def PendingJob.before (a b : PendingJob) : Bool :=
  a.priority < b.priority || (a.priority = b.priority && a.seq < b.seq)

theorem PendingJob.before_iff {a b : PendingJob} :
    a.before b = true ↔ a.priority < b.priority ∨ (a.priority = b.priority ∧ a.seq < b.seq) := by
  simp [PendingJob.before]

namespace QueueState

def upsert (q : QueueState) (corpusId : String) (paths : List String) (priority : Nat) :
    QueueState :=
  match q.pending.lookup corpusId with
  | some job =>
      let job := { job with paths := unionPaths job.paths paths, priority }
      { q with pending := q.pending.insert corpusId job }
  | none =>
      { q with
        nextSeq := q.nextSeq + 1
        pending := q.pending.insert corpusId ⟨paths, priority, q.nextSeq⟩ }

/-- The pending corpora that are not busy. -/
def dispatchable (q : QueueState) : List (String × PendingJob) :=
  q.pending.select fun corpusId _ => corpusId ∉ q.busy

/-- `take_next_dispatchable`: the job and the queue without it. -/
def takeNextDispatchable (q : QueueState) : Option (Job × QueueState) :=
  match scanBest (fun a b => a.2.before b.2) q.dispatchable with
  | none => none
  | some (corpusId, job) =>
      some (⟨corpusId, job.paths⟩,
        { q with pending := q.pending.erase corpusId, busy := insert corpusId q.busy })

/-- `mark_done`. -/
def markDone (q : QueueState) (corpusId : String) : QueueState :=
  { q with busy := q.busy.erase corpusId }

theorem mem_dispatchable {q : QueueState} {corpusId : String} {job : PendingJob} :
    (corpusId, job) ∈ q.dispatchable ↔
      q.pending.lookup corpusId = some job ∧ corpusId ∉ q.busy := by
  rw [dispatchable, Rows.mem_select, decide_eq_true_eq]

/-- What is taken: a pending corpus that is not busy, and none of these is before it. -/
theorem takeNextDispatchable_eq_some {q q' : QueueState} {job : Job}
    (took : q.takeNextDispatchable = some (job, q')) :
    ∃ entry, q.pending.lookup job.corpusId = some entry ∧ job.corpusId ∉ q.busy ∧
      job.paths = entry.paths ∧
      q' = { q with
        pending := q.pending.erase job.corpusId
        busy := insert job.corpusId q.busy } ∧
      ∀ c entry', q.pending.lookup c = some entry' → c ∉ q.busy →
        entry'.before entry = false := by
  unfold takeNextDispatchable at took
  split at took
  · cases took
  · rename_i corpusId entry chosen
    cases took
    obtain ⟨found, idle⟩ := mem_dispatchable.mp (scanBest_mem chosen)
    refine ⟨entry, found, idle, rfl, rfl, fun c entry' found' idle' => ?_⟩
    refine scanBest_least (fun a b c ab bc => ?_) (fun a => ?_) chosen (c, entry')
      (mem_dispatchable.mpr ⟨found', idle'⟩)
    · rw [PendingJob.before_iff] at ab bc ⊢
      omega
    · exact Bool.eq_false_iff.mpr fun less => by
        rw [PendingJob.before_iff] at less
        omega

/-- Nothing is taken when every pending corpus is busy. -/
theorem takeNextDispatchable_eq_none {q : QueueState} (nothing : q.takeNextDispatchable = none)
    {corpusId : String} (pending : corpusId ∈ q.pending) : corpusId ∈ q.busy := by
  by_contra idle
  obtain ⟨job, found⟩ := (Rows.mem_iff_lookup _ _).mp pending
  unfold takeNextDispatchable at nothing
  split at nothing
  · rename_i none_chosen
    have listed := mem_dispatchable.mpr ⟨found, idle⟩
    rw [scanBest_eq_none.mp none_chosen] at listed
    cases listed
  · cases nothing

end QueueState

/-! ## The log -/

/-- A request, and a job taken with its paths. -/
inductive QueueEvent where
  | requested (corpusId : String) (paths : List String) (priority : Nat)
  | taken (corpusId : String) (paths : List String)
  deriving DecidableEq, Repr

/-- The paths and priorities of the requests of a corpus that no job has answered, newest
first. -/
def waiting (corpusId : String) : List QueueEvent → List (List String × Nat)
  | [] => []
  | .requested c paths priority :: older =>
      if c = corpusId then (paths, priority) :: waiting corpusId older
      else waiting corpusId older
  | .taken c _ :: older => if c = corpusId then [] else waiting corpusId older

/-- The place in the log of the oldest waiting request. -/
def firstWaiting (corpusId : String) : List QueueEvent → Nat
  | [] => 0
  | .requested c _ _ :: older =>
      if c = corpusId ∧ waiting corpusId older = [] then older.length
      else firstWaiting corpusId older
  | .taken _ _ :: older => firstWaiting corpusId older

/-- The priority of the newest waiting request. -/
def latestPriority (corpusId : String) (log : List QueueEvent) : Option Nat :=
  (waiting corpusId log).head?.map Prod.snd

/-- Every job took the paths of the requests that were waiting. -/
def Exact : List QueueEvent → Prop
  | [] => True
  | .requested _ _ _ :: older => Exact older
  | .taken c paths :: older =>
      (∀ p, p ∈ paths ↔ ∃ request ∈ waiting c older, p ∈ request.1) ∧ Exact older

theorem mem_waiting {corpusId : String} {log : List QueueEvent} {request : List String × Nat}
    (waits : request ∈ waiting corpusId log) :
    .requested corpusId request.1 request.2 ∈ log := by
  induction log with
  | nil => cases waits
  | cons e older ih =>
      cases e with
      | requested c paths priority =>
          rw [waiting] at waits
          split at waits
          · rename_i same
            rcases List.mem_cons.mp waits with rfl | earlier
            · rw [same]
              exact List.mem_cons_self
            · exact List.mem_cons_of_mem _ (ih earlier)
          · exact List.mem_cons_of_mem _ (ih waits)
      | taken c paths =>
          rw [waiting] at waits
          split at waits
          · cases waits
          · exact List.mem_cons_of_mem _ (ih waits)

/-- A job's paths were requested before it. -/
theorem Exact.only_requested {older newer : List QueueEvent} {c : String} {paths : List String}
    (exactly : Exact (newer ++ .taken c paths :: older)) {p : String} (listed : p ∈ paths) :
    ∃ requested priority, .requested c requested priority ∈ older ∧ p ∈ requested := by
  induction newer with
  | nil =>
      obtain ⟨request, waits, mem⟩ := (exactly.1 p).mp listed
      exact ⟨request.1, request.2, mem_waiting waits, mem⟩
  | cons e newer ih =>
      cases e with
      | requested _ _ _ => exact ih exactly
      | taken _ _ => exact ih exactly.2

/-- A request is waiting still, or a job since took all its paths. -/
theorem Exact.nothing_lost {older newer : List QueueEvent} {c : String} {paths : List String}
    {priority : Nat} (exactly : Exact (newer ++ .requested c paths priority :: older)) :
    (paths, priority) ∈ waiting c (newer ++ .requested c paths priority :: older) ∨
      ∃ taken, .taken c taken ∈ newer ∧ ∀ p ∈ paths, p ∈ taken := by
  induction newer with
  | nil =>
      refine Or.inl ?_
      simp [waiting]
  | cons e newer ih =>
      cases e with
      | requested c' paths' priority' =>
          rcases ih exactly with waits | ⟨taken, since, all⟩
          · refine Or.inl ?_
            rw [List.cons_append, waiting]
            split
            · exact List.mem_cons_of_mem _ waits
            · exact waits
          · exact Or.inr ⟨taken, List.mem_cons_of_mem _ since, all⟩
      | taken c' paths' =>
          rcases ih exactly.2 with waits | ⟨taken, since, all⟩
          · by_cases same : c' = c
            · subst same
              exact Or.inr ⟨paths', List.mem_cons_self,
                fun p listed => (exactly.1 p).mpr ⟨_, waits, listed⟩⟩
            · refine Or.inl ?_
              rw [List.cons_append, waiting, if_neg same]
              exact waits
          · exact Or.inr ⟨taken, List.mem_cons_of_mem _ since, all⟩

/-! ## The queue against the log -/

/-- The entry of a corpus is what its waiting requests add up to. -/
structure Held (log : List QueueEvent) (corpusId : String) (entry : PendingJob) : Prop where
  paths : ∀ p, p ∈ entry.paths ↔ ∃ request ∈ waiting corpusId log, p ∈ request.1
  priority : latestPriority corpusId log = some entry.priority
  first : firstWaiting corpusId log < log.length

/-- The queue holds exactly what is waiting, in the order it came. -/
structure QueueState.Refines (q : QueueState) (log : List QueueEvent) : Prop where
  absent : ∀ c, q.pending.lookup c = none → waiting c log = []
  held : ∀ c entry, q.pending.lookup c = some entry → Held log c entry
  fresh : ∀ c entry, q.pending.lookup c = some entry → entry.seq < q.nextSeq
  order : ∀ c entry c' entry', q.pending.lookup c = some entry →
    q.pending.lookup c' = some entry' →
      (entry.seq < entry'.seq ↔ firstWaiting c log < firstWaiting c' log)

theorem Held.waits {log : List QueueEvent} {corpusId : String} {entry : PendingJob}
    (held : Held log corpusId entry) : waiting corpusId log ≠ [] := by
  intro none
  have priority := held.priority
  rw [latestPriority, none] at priority
  cases priority

theorem refines_empty : ({} : QueueState).Refines [] where
  absent := fun _ _ => rfl
  held := nofun
  fresh := nofun
  order := nofun

/-! ### A request -/

theorem waiting_requested_self (c : String) (paths : List String) (priority : Nat)
    (log : List QueueEvent) :
    waiting c (.requested c paths priority :: log) = (paths, priority) :: waiting c log := by
  simp [waiting]

theorem waiting_requested_other {c c' : String} (other : c' ≠ c) (paths : List String)
    (priority : Nat) (log : List QueueEvent) :
    waiting c (.requested c' paths priority :: log) = waiting c log := by
  simp [waiting, other]

theorem firstWaiting_requested_other {c c' : String} (other : c' ≠ c) (paths : List String)
    (priority : Nat) (log : List QueueEvent) :
    firstWaiting c (.requested c' paths priority :: log) = firstWaiting c log := by
  simp [firstWaiting, other]

/-- A request of another corpus leaves an entry as it is. -/
theorem Held.requested_other {log : List QueueEvent} {c c' : String} {entry : PendingJob}
    (held : Held log c entry) (other : c' ≠ c) (paths : List String) (priority : Nat) :
    Held (.requested c' paths priority :: log) c entry where
  paths := by
    rw [waiting_requested_other other]
    exact held.paths
  priority := by
    rw [latestPriority, waiting_requested_other other]
    exact held.priority
  first := by
    rw [firstWaiting_requested_other other, List.length_cons]
    exact Nat.lt_succ_of_lt held.first

/-- A request of a pending corpus joins its entry and keeps its place. -/
theorem Held.join {log : List QueueEvent} {c : String} {entry : PendingJob}
    (held : Held log c entry) (paths : List String) (priority : Nat) :
    Held (.requested c paths priority :: log) c
        { entry with paths := unionPaths entry.paths paths, priority } ∧
      firstWaiting c (.requested c paths priority :: log) = firstWaiting c log := by
  have place : firstWaiting c (.requested c paths priority :: log) = firstWaiting c log := by
    rw [firstWaiting, if_neg fun h => held.waits h.2]
  refine ⟨⟨fun p => ?_, ?_, ?_⟩, place⟩
  · show p ∈ unionPaths entry.paths paths ↔ _
    rw [waiting_requested_self, mem_unionPaths, held.paths p, List.exists_mem_cons_iff, or_comm]
  · rw [latestPriority, waiting_requested_self]
    rfl
  · rw [place, List.length_cons]
    exact Nat.lt_succ_of_lt held.first

/-- A request of a corpus that is not pending opens an entry behind all others. -/
theorem held_open {log : List QueueEvent} {c : String} (none : waiting c log = [])
    (paths : List String) (priority seq : Nat) :
    Held (.requested c paths priority :: log) c ⟨paths, priority, seq⟩ ∧
      firstWaiting c (.requested c paths priority :: log) = log.length := by
  have place : firstWaiting c (.requested c paths priority :: log) = log.length := by
    rw [firstWaiting, if_pos ⟨rfl, none⟩]
  refine ⟨⟨fun p => ?_, ?_, ?_⟩, place⟩
  · rw [waiting_requested_self, none]
    simp
  · rw [latestPriority, waiting_requested_self]
    rfl
  · rw [place, List.length_cons]
    exact Nat.lt_succ_self _

/-- A corpus without an entry after a request has none waiting. -/
theorem QueueState.Refines.absent_requested {q : QueueState} {log : List QueueEvent}
    (refines : q.Refines log) {c c' : String} {entry : PendingJob} (paths : List String)
    (priority : Nat) (none : (q.pending.insert c entry).lookup c' = none) :
    waiting c' (.requested c paths priority :: log) = [] := by
  rw [Rows.lookup_insert_if] at none
  split at none
  · cases none
  · rename_i other
    rw [waiting_requested_other (Ne.symm other)]
    exact refines.absent c' none

theorem QueueState.Refines.upsert {q : QueueState} {log : List QueueEvent}
    (refines : q.Refines log) (c : String) (paths : List String) (priority : Nat) :
    (q.upsert c paths priority).Refines (.requested c paths priority :: log) := by
  unfold QueueState.upsert
  cases found : q.pending.lookup c with
  | some entry =>
      obtain ⟨joined, place⟩ := (refines.held c entry found).join paths priority
      -- every entry keeps its number and its place in the log
      have kept : ∀ c' entry', (q.pending.insert c
          { entry with paths := unionPaths entry.paths paths, priority }).lookup c' = some entry' →
          ∃ old, q.pending.lookup c' = some old ∧ entry'.seq = old.seq ∧
            firstWaiting c' (.requested c paths priority :: log) = firstWaiting c' log := by
        intro c' entry' found'
        rw [Rows.lookup_insert_if] at found'
        split at found'
        · rename_i same
          cases found'
          exact ⟨entry, same ▸ found, rfl, same ▸ place⟩
        · rename_i other
          exact ⟨entry', found', rfl, firstWaiting_requested_other (Ne.symm other) ..⟩
      refine ⟨fun c' => refines.absent_requested paths priority, fun c' entry' found' => ?_,
        fun c' entry' found' => ?_, fun c₁ e₁ c₂ e₂ found₁ found₂ => ?_⟩
      · dsimp only at found'
        rw [Rows.lookup_insert_if] at found'
        split at found'
        · rename_i same
          cases found'
          exact same ▸ joined
        · rename_i other
          exact (refines.held c' entry' found').requested_other (Ne.symm other) ..
      · obtain ⟨old, was, seq, -⟩ := kept c' entry' found'
        rw [seq]
        exact refines.fresh c' old was
      · obtain ⟨old₁, was₁, seq₁, place₁⟩ := kept c₁ e₁ found₁
        obtain ⟨old₂, was₂, seq₂, place₂⟩ := kept c₂ e₂ found₂
        rw [seq₁, seq₂, place₁, place₂]
        exact refines.order c₁ old₁ c₂ old₂ was₁ was₂
  | none =>
      obtain ⟨opened, place⟩ := held_open (refines.absent c found) paths priority q.nextSeq
      -- the new entry is last, in number and in place
      have cases_of : ∀ c' entry', (q.pending.insert c ⟨paths, priority, q.nextSeq⟩).lookup c' =
          some entry' → (c' = c ∧ entry' = ⟨paths, priority, q.nextSeq⟩) ∨
            (c ≠ c' ∧ q.pending.lookup c' = some entry') := by
        intro c' entry' found'
        rw [Rows.lookup_insert_if] at found'
        split at found'
        · rename_i same
          exact Or.inl ⟨same, (Option.some.inj found').symm⟩
        · rename_i other
          exact Or.inr ⟨Ne.symm other, found'⟩
      refine ⟨fun c' => refines.absent_requested paths priority, fun c' entry' found' => ?_,
        fun c' entry' found' => ?_, fun c₁ e₁ c₂ e₂ found₁ found₂ => ?_⟩
      · rcases cases_of c' entry' found' with ⟨rfl, rfl⟩ | ⟨other, was⟩
        · exact opened
        · exact (refines.held c' entry' was).requested_other other ..
      · rcases cases_of c' entry' found' with ⟨rfl, rfl⟩ | ⟨other, was⟩
        · exact Nat.lt_succ_self _
        · exact Nat.lt_succ_of_lt (refines.fresh c' entry' was)
      · rcases cases_of c₁ e₁ found₁ with ⟨rfl, rfl⟩ | ⟨other₁, was₁⟩ <;>
          rcases cases_of c₂ e₂ found₂ with ⟨rfl, rfl⟩ | ⟨other₂, was₂⟩
        · simp
        · have earlier := refines.fresh c₂ e₂ was₂
          have before := (refines.held c₂ e₂ was₂).first
          rw [place, firstWaiting_requested_other other₂]
          show q.nextSeq < e₂.seq ↔ _
          omega
        · have earlier := refines.fresh c₁ e₁ was₁
          have before := (refines.held c₁ e₁ was₁).first
          rw [place, firstWaiting_requested_other other₁]
          show e₁.seq < q.nextSeq ↔ _
          omega
        · rw [firstWaiting_requested_other other₁, firstWaiting_requested_other other₂]
          exact refines.order c₁ e₁ c₂ e₂ was₁ was₂

/-! ### A job taken -/

/-- Taking a job answers what was waiting for its corpus and leaves the rest. -/
theorem QueueState.Refines.take {q q' : QueueState} {log : List QueueEvent} {job : Job}
    (refines : q.Refines log) (took : q.takeNextDispatchable = some (job, q')) :
    q'.Refines (.taken job.corpusId job.paths :: log) ∧
      ∀ p, p ∈ job.paths ↔ ∃ request ∈ waiting job.corpusId log, p ∈ request.1 := by
  obtain ⟨entry, found, -, paths, rfl, -⟩ := QueueState.takeNextDispatchable_eq_some took
  have other : ∀ c entry', (q.pending.erase job.corpusId).lookup c = some entry' →
      job.corpusId ≠ c ∧ q.pending.lookup c = some entry' := by
    intro c entry' found'
    rw [Rows.lookup_erase_if] at found'
    split at found'
    · cases found'
    · rename_i ne
      exact ⟨Ne.symm ne, found'⟩
  constructor
  · refine ⟨fun c none => ?_, fun c entry' found' => ?_, fun c entry' found' => ?_,
      fun c₁ e₁ c₂ e₂ found₁ found₂ => ?_⟩
    · rw [waiting]
      split
      · rfl
      · rename_i ne
        refine refines.absent c ?_
        dsimp only at none
        rwa [Rows.lookup_erase_if, if_neg (Ne.symm ne)] at none
    · obtain ⟨ne, was⟩ := other c entry' found'
      obtain ⟨held, priority, first⟩ := refines.held c entry' was
      refine ⟨fun p => ?_, ?_, ?_⟩
      · rw [waiting, if_neg ne]
        exact held p
      · rw [latestPriority, waiting, if_neg ne]
        exact priority
      · exact Nat.lt_succ_of_lt first
    · exact refines.fresh c entry' (other c entry' found').2
    · exact refines.order c₁ e₁ c₂ e₂ (other c₁ e₁ found₁).2 (other c₂ e₂ found₂).2
  · intro p
    rw [paths]
    exact (refines.held _ entry found).paths p

end Ministr.Daemon
