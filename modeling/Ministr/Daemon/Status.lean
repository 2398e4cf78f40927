/-
# Daemon.Status — does the status of a corpus settle?

A corpus is shown as queued while a request of it waits, as indexing once a job of it
starts, and as idle or failed when the job has ended.  The writes follow the queue: the
status is set after the upsert, and after the take.  In between the request is already
visible to every dispatcher, so its job may be started and finished before the enqueue
writes that it is queued, and that write then stays (`status_stuck`).

As long as each such write comes while the corpus is pending or its job has not made its
last status write (`QueuedInTime`), a corpus that is shown as queued or indexing is
pending or has a job to write over it (`StatusOwed`), so the status settles
(`status_settles`).
-/
import Ministr.Daemon.Coordinator

namespace Ministr.Daemon

open Ministr.Theory
open CoordinatorState

set_option autoImplicit false

/-- The status says that work is waiting or going on. -/
def IndexingStatus.Unsettled (status : IndexingStatus) : Prop :=
  status = .queued ∨ status = .indexing

/-- A job of the corpus has been taken and has not made its last status write. -/
def HasJob (pool : List Agent) (corpusId : String) : Prop :=
  ∃ a ∈ pool, ∃ paths, a.job = some (corpusId, paths)

/-- With no job pending or in progress and no enqueue or dispatch of it, the status of a
corpus is settled. -/
def StatusSettled (s : CoordinatorState) : Prop :=
  ∀ c, c ∉ s.queue.pending → (∀ a ∈ s.agents, a.about ≠ some c) → ¬ (s.statusOf c).Unsettled

/-- The write that a corpus is queued finds it pending, or its job not yet through. -/
def QueuedInTime (s : CoordinatorState) (e : CoordinatorEvent) : Prop :=
  ∀ c, e = .setQueued c → c ∈ s.queue.pending ∨ HasJob s.agents c

/-- The corpus that is written as queued. -/
def CoordinatorEvent.writesQueued : CoordinatorEvent → Option String
  | .setQueued c => some c
  | _ => none

instance (s : CoordinatorState) (e : CoordinatorEvent) : Decidable (QueuedInTime s e) :=
  decidable_of_iff (∀ c ∈ e.writesQueued,
    c ∈ s.queue.pending ∨ ∃ a ∈ s.agents, a.job.map Prod.fst = some c) <| by
      rw [QueuedInTime]
      cases e <;> simp [CoordinatorEvent.writesQueued, HasJob]

/-- An unsettled status is still to be written over. -/
def StatusOwed (s : CoordinatorState) : Prop :=
  ∀ c, (s.statusOf c).Unsettled → c ∈ s.queue.pending ∨ HasJob s.agents c

theorem StatusOwed.settled {s : CoordinatorState} (owed : StatusOwed s) : StatusSettled s := by
  intro c idle nobody unsettled
  rcases owed c unsettled with pending | ⟨a, mem, paths, carries⟩
  · exact idle pending
  · refine nobody a mem ?_
    cases a <;> simp_all [Agent.about, Agent.job]

/-! ## One step -/

theorem mem_pending_upsert {q : QueueState} {c c' : String} (paths : List String)
    (priority : Nat) (pending : c' ∈ q.pending) : c' ∈ (q.upsert c paths priority).pending := by
  unfold QueueState.upsert
  split <;> exact (AList.mem_insert _).mpr (Or.inr pending)

/-- An agent of the pool that carries no job takes none with it when it moves on. -/
theorem HasJob.replace {pool : List Agent} {c : String} (has : HasJob pool c) {a : Agent}
    (no_job : a.job = none) (next : List Agent) : HasJob (Pool.replace pool a next) c := by
  obtain ⟨b, mem, paths, carries⟩ := has
  refine ⟨b, Pool.other_mem_replace mem ?_, paths, carries⟩
  rintro rfl
  rw [no_job] at carries
  cases carries

/-- An agent that carries a job hands it on. -/
theorem HasJob.pass {pool next : List Agent} {c c' : String} (has : HasJob pool c') {a b : Agent}
    {paths : List String} (had : a.job = some (c, paths)) (passed : b ∈ next)
    (has_now : b.job = some (c, paths)) : HasJob (Pool.replace pool a next) c' := by
  obtain ⟨d, mem, paths', carries⟩ := has
  by_cases same : d = a
  · subst same
    rw [had] at carries
    exact ⟨b, Pool.next_mem_replace passed, paths', has_now.trans carries⟩
  · exact ⟨d, Pool.other_mem_replace mem same, paths', carries⟩

/-- Every step keeps what is owed, given that a write of `queued` comes in time. -/
theorem StatusOwed.step {s t : CoordinatorState} {e : CoordinatorEvent} (owed : StatusOwed s)
    (in_time : QueuedInTime s e) (taken : s.step e = some t) : StatusOwed t := by
  obtain ⟨there, rfl⟩ := step_eq_some taken
  intro c' unsettled
  cases e with
  | enqueue c paths priority =>
      rcases owed c' unsettled with pending | ⟨a, mem, paths', carries⟩
      · exact Or.inl (mem_pending_upsert paths priority pending)
      · exact Or.inr ⟨a, List.mem_cons_of_mem _ mem, paths', carries⟩
  | setQueued c =>
      have still : c' ∈ s.queue.pending ∨ HasJob s.agents c' := by
        by_cases same : c' = c
        · exact same ▸ in_time c rfl
        · refine owed c' ?_
          simp only [act, statusOf_become, statusOf_setStatus, if_neg same] at unsettled
          exact unsettled
      exact still.imp_right fun has => has.replace rfl _
  | tryAcquire =>
      rcases act_tryAcquire s with ⟨-, acted⟩ | ⟨-, acted⟩ <;> rw [acted] at unsettled ⊢
      · exact (owed c' unsettled).imp_right fun has => has.replace rfl _
      · exact (owed c' unsettled).imp_right fun has => has.replace rfl _
  | take =>
      rcases act_take s with ⟨job, queue, took, acted⟩ | ⟨-, acted⟩ <;> rw [acted] at unsettled ⊢
      · obtain ⟨entry, -, -, -, rfl, -⟩ := QueueState.takeNextDispatchable_eq_some took
        rcases owed c' unsettled with pending | has
        · by_cases same : c' = job.corpusId
          · exact Or.inr ⟨.starting job.corpusId job.paths,
              Pool.next_mem_replace List.mem_cons_self, job.paths, by rw [same]; rfl⟩
          · exact Or.inl (AList.mem_erase.mpr ⟨same, pending⟩)
        · exact Or.inr (has.replace rfl _)
      · exact (owed c' unsettled).imp_right fun has => has.replace rfl _
  | dropPermit =>
      exact (owed c' unsettled).imp_right fun has => has.replace rfl _
  | setIndexing c paths =>
      by_cases same : c' = c
      · subst same
        exact Or.inr ⟨.spawning c' paths, Pool.next_mem_replace List.mem_cons_self, paths, rfl⟩
      · simp only [act, statusOf_become, statusOf_setStatus, if_neg same] at unsettled
        exact (owed c' unsettled).imp_right fun has => has.pass rfl List.mem_cons_self rfl
  | spawn c paths =>
      exact (owed c' unsettled).imp_right fun has => has.pass rfl List.mem_cons_self rfl
  | settle c paths error =>
      by_cases same : c' = c
      · subst same
        simp only [act, statusOf_become, statusOf_setStatus, if_pos] at unsettled
        rcases unsettled with is | is <;> cases error <;> cases is
      · simp only [act, statusOf_become, statusOf_setStatus, if_neg same] at unsettled
        rcases owed c' unsettled with pending | ⟨a, mem, paths', carries⟩
        · exact Or.inl pending
        · refine Or.inr ⟨a, Pool.other_mem_replace mem ?_, paths', carries⟩
          rintro rfl
          cases carries
          exact same rfl
  | releasePermit c =>
      exact (owed c' unsettled).imp_right fun has => has.replace rfl _
  | markDone c =>
      exact (owed c' unsettled).imp_right fun has => has.replace rfl _

/-! ## Whole runs -/

/-- **The status settles** in every run whose writes of `queued` come in time. -/
theorem status_settles (maxConcurrency : Nat) (events : List CoordinatorEvent)
    (in_time : EachStep step QueuedInTime (start maxConcurrency) events) :
    Throughout step StatusSettled (start maxConcurrency) events := by
  have init : StatusOwed (start maxConcurrency) := by
    rintro c (is | is) <;> cases is
  exact (throughout_of_eachStep (fun _ _ _ owed in_time taken => owed.step in_time taken) init
    in_time).imp fun s owed => owed.settled

theorem status_settles_overlapping :
    (exec step (start 1) overlappingRequests).map (fun s => (s.statusOf "a", s.statusOf "b")) =
        some (.idle, .idle) ∧
      Throughout step StatusSettled (start 1) overlappingRequests :=
  ⟨rfl, status_settles 1 overlappingRequests (by decide)⟩

/-- The job of `a` is started by the dispatcher of `b` and ends before the enqueue of `a`
writes its status; then everything runs out. -/
def lateStatus : List CoordinatorEvent :=
  [.enqueue "a" ["/a"] 0, .enqueue "b" ["/b"] 0, .setQueued "b", .tryAcquire, .take,
    .setIndexing "a" ["/a"], .spawn "a" ["/a"], .settle "a" ["/a"] none, .releasePermit "a",
    .markDone "a", .setQueued "a", .tryAcquire, .take, .setIndexing "b" ["/b"],
    .spawn "b" ["/b"], .settle "b" ["/b"] none, .releasePermit "b", .markDone "b",
    .tryAcquire, .take, .dropPermit, .tryAcquire, .take, .dropPermit,
    .tryAcquire, .take, .dropPermit, .tryAcquire, .take, .dropPermit]

/-- Nothing is pending and nobody is in progress, and `a` is shown as queued. -/
theorem status_stuck :
    ∃ s, exec step (start 2) lateStatus = some s ∧ s.Quiet ∧ s.queue.pending = ∅ ∧
      s.statusOf "a" = .queued :=
  ⟨_, rfl, rfl, rfl, rfl⟩

end Ministr.Daemon
