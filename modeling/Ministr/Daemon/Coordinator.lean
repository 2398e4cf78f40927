/-
# Daemon.Coordinator — enqueue, dispatch and job completion, step by step

`IngestionCoordinator` has no loop of its own.  Every `enqueue` and every finished job
runs `try_dispatch`: take a permit without waiting, take the next job, start it and look
again; give up when no permit is free, give the permit back when there is nothing to
start.  Three locks are involved, the semaphore, the queue's mutex and the status of a
corpus, and none is held while another is used.  So each access is a step of its own,
and the calls and jobs in progress are a pool of agents whose steps interleave freely.

The state also keeps a log of the requests and the jobs taken, which no code reads.
-/
import Ministr.Daemon.Queue
import Ministr.Theory.Agents
import Ministr.Theory.Run

namespace Ministr.Daemon

open Ministr.Theory

set_option autoImplicit false

/-- `IndexingStatus`, without the progress counts. -/
inductive IndexingStatus where
  | idle
  | queued
  | indexing
  | error (message : String)
  deriving DecidableEq, Repr

/-- Where a call or a job in progress stands. -/
inductive Agent where
  /-- `enqueue` after its upsert, before it sets the status. -/
  | enqueued (corpusId : String)
  /-- `try_dispatch` at the head of its loop. -/
  | dispatching
  /-- `try_dispatch` with a permit, before it looks at the queue. -/
  | holding
  /-- `try_dispatch` after it found nothing, before it drops the permit. -/
  | dropping
  /-- `try_dispatch` with a job taken, before it sets the status. -/
  | starting (corpusId : String) (paths : List String)
  /-- `try_dispatch` after it set the status, before it spawns the job. -/
  | spawning (corpusId : String) (paths : List String)
  /-- The job, in `run_body` before its last status write. -/
  | running (corpusId : String) (paths : List String)
  /-- The job after that write, before it drops its permit. -/
  | settled (corpusId : String)
  /-- The job after it dropped the permit, before `mark_done`. -/
  | released (corpusId : String)
  deriving DecidableEq, Repr

namespace Agent

/-- The agent has a permit. -/
def holdsPermit : Agent → Bool
  | .holding | .dropping | .starting _ _ | .spawning _ _ | .running _ _ | .settled _ => true
  | .enqueued _ | .dispatching | .released _ => false

/-- The corpus of the job that is in flight here, from the take to `mark_done`. -/
def inFlight : Agent → Option String
  | .starting c _ | .spawning c _ | .running c _ | .settled c | .released c => some c
  | .enqueued _ | .dispatching | .holding | .dropping => none

/-- The job itself is running: dispatched, and its permit not yet dropped. -/
def runs : Agent → Bool
  | .starting _ _ | .spawning _ _ | .running _ _ | .settled _ => true
  | .enqueued _ | .dispatching | .holding | .dropping | .released _ => false

/-- The corpus and the paths of a job on its way to the end of `run_body`. -/
def job : Agent → Option (String × List String)
  | .starting c paths | .spawning c paths | .running c paths => some (c, paths)
  | _ => none

/-- The corpus of an enqueue, of a dispatch or of a job before its last status write. -/
def about : Agent → Option String
  | .enqueued c => some c
  | a => a.job.map Prod.fst

end Agent

structure CoordinatorState where
  queue : QueueState := {}
  freePermits : Nat
  agents : List Agent := []
  status : Rows String IndexingStatus := ∅
  log : List QueueEvent := []

/-- `IngestionScheduler::new` clamps the bound to at least one permit; a registered
corpus starts idle. -/
def CoordinatorState.start (maxConcurrency : Nat) : CoordinatorState where
  freePermits := max maxConcurrency 1

namespace CoordinatorState

def statusOf (s : CoordinatorState) (corpusId : String) : IndexingStatus :=
  (s.status.lookup corpusId).getD .idle

/-- The agent `a` has become `next`. -/
def become (s : CoordinatorState) (a : Agent) (next : List Agent) : CoordinatorState :=
  { s with agents := Pool.replace s.agents a next }

/-- `set_status`, for a registered corpus. -/
def setStatus (s : CoordinatorState) (corpusId : String) (status : IndexingStatus) :
    CoordinatorState :=
  { s with status := s.status.insert corpusId status }

end CoordinatorState

/-- The steps.  `enqueue` is a new call up to and including its upsert; the others are
the next step of an agent in the pool. -/
inductive CoordinatorEvent where
  | enqueue (corpusId : String) (paths : List String) (priority : Nat)
  | setQueued (corpusId : String)
  | tryAcquire
  | take
  | dropPermit
  | setIndexing (corpusId : String) (paths : List String)
  | spawn (corpusId : String) (paths : List String)
  /-- `run_body` writes `Error` with a message, or `Idle`. -/
  | settle (corpusId : String) (paths : List String) (error : Option String)
  | releasePermit (corpusId : String)
  | markDone (corpusId : String)
  deriving DecidableEq, Repr

/-- The agent whose step the event is. -/
def CoordinatorEvent.agent : CoordinatorEvent → Option Agent
  | .enqueue _ _ _ => none
  | .setQueued c => some (.enqueued c)
  | .tryAcquire => some .dispatching
  | .take => some .holding
  | .dropPermit => some .dropping
  | .setIndexing c paths => some (.starting c paths)
  | .spawn c paths => some (.spawning c paths)
  | .settle c paths _ => some (.running c paths)
  | .releasePermit c => some (.settled c)
  | .markDone c => some (.released c)

namespace CoordinatorState

/-- What the event does, given that its agent is in the pool. -/
def act (s : CoordinatorState) : CoordinatorEvent → CoordinatorState
  | .enqueue c paths priority =>
      { s with
        queue := s.queue.upsert c paths priority
        log := .requested c paths priority :: s.log
        agents := .enqueued c :: s.agents }
  | .setQueued c => (s.setStatus c .queued).become (.enqueued c) [.dispatching]
  | .tryAcquire =>
      if 0 < s.freePermits then
        { s with freePermits := s.freePermits - 1 }.become .dispatching [.holding]
      else s.become .dispatching []
  | .take =>
      match s.queue.takeNextDispatchable with
      | some (job, queue) =>
          { s with queue, log := .taken job.corpusId job.paths :: s.log }.become .holding
            [.starting job.corpusId job.paths]
      | none => s.become .holding [.dropping]
  | .dropPermit => { s with freePermits := s.freePermits + 1 }.become .dropping []
  | .setIndexing c paths => (s.setStatus c .indexing).become (.starting c paths) [.spawning c paths]
  | .spawn c paths => s.become (.spawning c paths) [.running c paths, .dispatching]
  | .settle c paths error =>
      (s.setStatus c (error.elim .idle .error)).become (.running c paths) [.settled c]
  | .releasePermit c =>
      { s with freePermits := s.freePermits + 1 }.become (.settled c) [.released c]
  | .markDone c => { s with queue := s.queue.markDone c }.become (.released c) [.dispatching]

/-- One step; `none` when the agent is not there. -/
def step (s : CoordinatorState) (e : CoordinatorEvent) : Option CoordinatorState :=
  if ∀ a ∈ e.agent, a ∈ s.agents then some (s.act e) else none

/-- No enqueue, dispatch or job is in progress. -/
def Quiet (s : CoordinatorState) : Prop := s.agents = []

@[simp] theorem become_agents (s : CoordinatorState) (a : Agent) (next : List Agent) :
    (s.become a next).agents = Pool.replace s.agents a next := rfl

@[simp] theorem become_queue (s : CoordinatorState) (a : Agent) (next : List Agent) :
    (s.become a next).queue = s.queue := rfl

@[simp] theorem become_freePermits (s : CoordinatorState) (a : Agent) (next : List Agent) :
    (s.become a next).freePermits = s.freePermits := rfl

@[simp] theorem become_status (s : CoordinatorState) (a : Agent) (next : List Agent) :
    (s.become a next).status = s.status := rfl

@[simp] theorem become_log (s : CoordinatorState) (a : Agent) (next : List Agent) :
    (s.become a next).log = s.log := rfl

@[simp] theorem setStatus_agents (s : CoordinatorState) (c : String) (status : IndexingStatus) :
    (s.setStatus c status).agents = s.agents := rfl

@[simp] theorem setStatus_queue (s : CoordinatorState) (c : String) (status : IndexingStatus) :
    (s.setStatus c status).queue = s.queue := rfl

@[simp] theorem setStatus_freePermits (s : CoordinatorState) (c : String)
    (status : IndexingStatus) : (s.setStatus c status).freePermits = s.freePermits := rfl

@[simp] theorem setStatus_log (s : CoordinatorState) (c : String) (status : IndexingStatus) :
    (s.setStatus c status).log = s.log := rfl

@[simp] theorem statusOf_become (s : CoordinatorState) (a : Agent) (next : List Agent)
    (c : String) : (s.become a next).statusOf c = s.statusOf c := rfl

theorem statusOf_setStatus (s : CoordinatorState) (c c' : String) (status : IndexingStatus) :
    (s.setStatus c status).statusOf c' = if c' = c then status else s.statusOf c' := by
  unfold statusOf setStatus
  rw [Rows.lookup_insert_if]
  split <;> rfl

theorem step_eq_some {s t : CoordinatorState} {e : CoordinatorEvent} (taken : s.step e = some t) :
    (∀ a, e.agent = some a → a ∈ s.agents) ∧ t = s.act e := by
  unfold step at taken
  split at taken
  · rename_i there
    exact ⟨fun a is => there a is, (Option.some.inj taken).symm⟩
  · cases taken

/-- A permit is claimed, or the dispatcher returns. -/
theorem act_tryAcquire (s : CoordinatorState) :
    (0 < s.freePermits ∧ s.act .tryAcquire =
        { s with freePermits := s.freePermits - 1 }.become .dispatching [.holding]) ∨
      (s.freePermits = 0 ∧ s.act .tryAcquire = s.become .dispatching []) := by
  by_cases free : 0 < s.freePermits
  · exact Or.inl ⟨free, if_pos free⟩
  · exact Or.inr ⟨by omega, if_neg free⟩

/-- A job is taken, or every pending corpus is busy. -/
theorem act_take (s : CoordinatorState) :
    (∃ job queue, s.queue.takeNextDispatchable = some (job, queue) ∧ s.act .take =
        { s with queue, log := .taken job.corpusId job.paths :: s.log }.become .holding
          [.starting job.corpusId job.paths]) ∨
      (s.queue.takeNextDispatchable = none ∧ s.act .take = s.become .holding [.dropping]) := by
  cases took : s.queue.takeNextDispatchable with
  | some taken => exact Or.inl ⟨taken.1, taken.2, rfl, by simp only [act, took]⟩
  | none => exact Or.inr ⟨rfl, by simp only [act, took]⟩

end CoordinatorState

/-- With one permit, `b` is requested while a job of `a` starts, and `a` again while it runs.  Their
dispatchers and the one of the job are turned away; `b` goes first, then `a` again, and the pool
runs out. -/
def overlappingRequests : List CoordinatorEvent :=
  [.enqueue "a" ["/a"] 1, .setQueued "a", .tryAcquire, .take, .enqueue "b" ["/b"] 0,
    .setIndexing "a" ["/a"], .spawn "a" ["/a"], .enqueue "a" ["/a2"] 1, .setQueued "b",
    .tryAcquire, .setQueued "a", .tryAcquire, .tryAcquire, .settle "a" ["/a"] none,
    .releasePermit "a", .markDone "a", .tryAcquire, .take, .setIndexing "b" ["/b"],
    .spawn "b" ["/b"], .tryAcquire, .settle "b" ["/b"] none, .releasePermit "b", .markDone "b",
    .tryAcquire, .take, .setIndexing "a" ["/a2"], .spawn "a" ["/a2"],
    .settle "a" ["/a2"] none, .releasePermit "a", .markDone "a", .tryAcquire, .tryAcquire,
    .take, .dropPermit]

end Ministr.Daemon
