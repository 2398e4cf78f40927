/-
# Daemon.CoordinatorSafe — what holds across every interleaving

`Accounted` is what every step keeps: the free permits and the agents that hold one add
up to the bound, a corpus is busy exactly while one job of it is in flight, and the
queue refines the log.  From it follow the coordinator's safety properties
(`coordinator_safe`): no corpus has two jobs, at most as many jobs as permits run, no
requested path is lost, and the next job is the least of those that can start.
-/
import Ministr.Daemon.Coordinator

namespace Ministr.Daemon

open Ministr.Theory

set_option autoImplicit false

open CoordinatorState

/-! ## The invariant -/

/-- The agent carries a job of this corpus. -/
def Agent.worksOn (corpusId : String) (a : Agent) : Bool := a.inFlight = some corpusId

structure Accounted (permits : Nat) (s : CoordinatorState) : Prop where
  permits : s.freePermits + s.agents.countP Agent.holdsPermit = permits
  busy : ∀ c, s.agents.countP (Agent.worksOn c) = if c ∈ s.queue.busy then 1 else 0
  refines : s.queue.Refines s.log
  exactly : Exact s.log
  jobs : ∀ a ∈ s.agents, ∀ c paths, a.job = some (c, paths) → .taken c paths ∈ s.log

theorem accounted_start (maxConcurrency : Nat) :
    Accounted (max maxConcurrency 1) (start maxConcurrency) where
  permits := rfl
  busy := fun _ => rfl
  refines := refines_empty
  exactly := trivial
  jobs := nofun

theorem upsert_busy (q : QueueState) (c : String) (paths : List String) (priority : Nat) :
    (q.upsert c paths priority).busy = q.busy := by
  unfold QueueState.upsert
  split <;> rfl

/-! ## Permits -/

theorem act_permits {s : CoordinatorState} {e : CoordinatorEvent}
    (there : ∀ a, e.agent = some a → a ∈ s.agents) :
    (s.act e).freePermits + (s.act e).agents.countP Agent.holdsPermit =
      s.freePermits + s.agents.countP Agent.holdsPermit := by
  have count := fun a (is : e.agent = some a) next =>
    Pool.countP_replace (there a is) next Agent.holdsPermit
  cases e with
  | enqueue c paths priority => simp [act, Agent.holdsPermit]
  | setQueued c =>
      have := count _ rfl [.dispatching]
      simp [Agent.holdsPermit] at this
      simp only [act, become_freePermits, become_agents, setStatus_freePermits, setStatus_agents]
      omega
  | tryAcquire =>
      rcases act_tryAcquire s with ⟨free, acted⟩ | ⟨-, acted⟩
      · have := count _ rfl [.holding]
        simp [Agent.holdsPermit] at this
        simp only [acted, become_freePermits, become_agents]
        omega
      · have := count _ rfl []
        simp [Agent.holdsPermit] at this
        simp only [acted, become_freePermits, become_agents]
        omega
  | take =>
      rcases act_take s with ⟨job, queue, -, acted⟩ | ⟨-, acted⟩
      · have := count _ rfl [.starting job.corpusId job.paths]
        simp [Agent.holdsPermit] at this
        simp only [acted, become_freePermits, become_agents]
        omega
      · have := count _ rfl [.dropping]
        simp [Agent.holdsPermit] at this
        simp only [acted, become_freePermits, become_agents]
        omega
  | dropPermit =>
      have := count _ rfl []
      simp [Agent.holdsPermit] at this
      simp only [act, become_freePermits, become_agents]
      omega
  | setIndexing c paths =>
      have := count _ rfl [.spawning c paths]
      simp [Agent.holdsPermit] at this
      simp only [act, become_freePermits, become_agents, setStatus_freePermits, setStatus_agents]
      omega
  | spawn c paths =>
      have := count _ rfl [.running c paths, .dispatching]
      simp [List.countP_cons, Agent.holdsPermit] at this
      simp only [act, become_freePermits, become_agents]
      omega
  | settle c paths error =>
      have := count _ rfl [.settled c]
      simp [Agent.holdsPermit] at this
      simp only [act, become_freePermits, become_agents, setStatus_freePermits, setStatus_agents]
      omega
  | releasePermit c =>
      have := count _ rfl [.released c]
      simp [Agent.holdsPermit] at this
      simp only [act, become_freePermits, become_agents]
      omega
  | markDone c =>
      have := count _ rfl [.dispatching]
      simp [Agent.holdsPermit] at this
      simp only [act, become_freePermits, become_agents]
      omega

/-! ## Jobs in flight -/

/-- A step that puts back as many agents working on `c'` as it takes out. -/
theorem countP_same {pool next : List Agent} {a : Agent} (mem : a ∈ pool) {c' : String}
    (same : next.countP (Agent.worksOn c') = if a.worksOn c' then 1 else 0) :
    (Pool.replace pool a next).countP (Agent.worksOn c') = pool.countP (Agent.worksOn c') := by
  have count := Pool.countP_replace mem next (Agent.worksOn c')
  omega

theorem act_busy {s : CoordinatorState} {e : CoordinatorEvent}
    (there : ∀ a, e.agent = some a → a ∈ s.agents)
    (busy : ∀ c, s.agents.countP (Agent.worksOn c) = if c ∈ s.queue.busy then 1 else 0)
    (c' : String) :
    (s.act e).agents.countP (Agent.worksOn c') =
      if c' ∈ (s.act e).queue.busy then 1 else 0 := by
  -- all but the take and the completion replace an agent by one working on the same corpus
  have alike : ∀ a next, e.agent = some a →
      next.countP (Agent.worksOn c') = (if a.worksOn c' then 1 else 0) →
      (Pool.replace s.agents a next).countP (Agent.worksOn c') =
        if c' ∈ s.queue.busy then 1 else 0 :=
    fun a next is same => (countP_same (there a is) same).trans (busy c')
  cases e with
  | enqueue c paths priority =>
      simp only [act, upsert_busy]
      rw [← busy c']
      simp [Agent.worksOn, Agent.inFlight]
  | setQueued c => exact alike _ _ rfl (by simp [Agent.worksOn, Agent.inFlight])
  | tryAcquire =>
      rcases act_tryAcquire s with ⟨-, acted⟩ | ⟨-, acted⟩
      · rw [acted]
        exact alike _ _ rfl (by simp [Agent.worksOn, Agent.inFlight])
      · rw [acted]
        exact alike _ _ rfl (by simp [Agent.worksOn, Agent.inFlight])
  | take =>
      rcases act_take s with ⟨job, queue, took, acted⟩ | ⟨-, acted⟩
      · obtain ⟨entry, -, idle, -, rfl, -⟩ := QueueState.takeNextDispatchable_eq_some took
        have before := busy c'
        simp only [acted, become_agents, become_queue, Finset.mem_insert]
        by_cases same : c' = job.corpusId
        · subst same
          have count := Pool.countP_replace (there _ rfl) [.starting job.corpusId job.paths]
            (Agent.worksOn job.corpusId)
          have one : [Agent.starting job.corpusId job.paths].countP
              (Agent.worksOn job.corpusId) = 1 := by
            simp [Agent.worksOn, Agent.inFlight]
          have none : Agent.worksOn job.corpusId .holding = false := rfl
          rw [one, none, before, if_neg idle] at count
          rw [if_pos (Or.inl rfl)]
          simpa using count
        · simp only [same, false_or]
          rw [← before]
          refine countP_same (there _ rfl) ?_
          simp [Agent.worksOn, Agent.inFlight, Ne.symm same]
      · rw [acted]
        exact alike _ _ rfl (by simp [Agent.worksOn, Agent.inFlight])
  | dropPermit => exact alike _ _ rfl (by simp [Agent.worksOn, Agent.inFlight])
  | setIndexing c paths => exact alike _ _ rfl (by simp [Agent.worksOn, Agent.inFlight])
  | spawn c paths =>
      exact alike _ _ rfl (by simp [List.countP_cons, Agent.worksOn, Agent.inFlight])
  | settle c paths error => exact alike _ _ rfl (by simp [Agent.worksOn, Agent.inFlight])
  | releasePermit c => exact alike _ _ rfl (by simp [Agent.worksOn, Agent.inFlight])
  | markDone c =>
      have before := busy c'
      simp only [act, become_agents, become_queue, QueueState.markDone, Finset.mem_erase]
      by_cases same : c' = c
      · subst same
        have count := Pool.countP_replace (there _ rfl) [.dispatching] (Agent.worksOn c')
        have one : Agent.worksOn c' (.released c') = true := by
          simp [Agent.worksOn, Agent.inFlight]
        have none : [Agent.dispatching].countP (Agent.worksOn c') = 0 := by
          simp [Agent.worksOn, Agent.inFlight]
        rw [if_pos one, none, before] at count
        rw [if_neg fun h => h.1 rfl]
        split at count <;> omega
      · simp only [ne_eq, same, not_false_eq_true, true_and]
        rw [← before]
        refine countP_same (there _ rfl) ?_
        simp [Agent.worksOn, Agent.inFlight, Ne.symm same]

/-! ## The queue and the log -/

/-- Only a request and a take touch the log, and with it the queue. -/
theorem act_queue {s : CoordinatorState} (e : CoordinatorEvent)
    (refines : s.queue.Refines s.log) (exactly : Exact s.log) :
    (s.act e).queue.Refines (s.act e).log ∧ Exact (s.act e).log := by
  cases e with
  | enqueue c paths priority => exact ⟨refines.upsert c paths priority, exactly⟩
  | tryAcquire =>
      rcases act_tryAcquire s with ⟨-, acted⟩ | ⟨-, acted⟩ <;> rw [acted] <;>
        exact ⟨refines, exactly⟩
  | take =>
      rcases act_take s with ⟨job, queue, took, acted⟩ | ⟨-, acted⟩ <;> rw [acted]
      · obtain ⟨next, paths⟩ := refines.take took
        exact ⟨next, paths, exactly⟩
      · exact ⟨refines, exactly⟩
  | markDone c =>
      exact ⟨⟨refines.absent, refines.held, refines.fresh, refines.order⟩, exactly⟩
  | _ => exact ⟨refines, exactly⟩

theorem act_log_mono (s : CoordinatorState) (e : CoordinatorEvent) {logged : QueueEvent}
    (mem : logged ∈ s.log) : logged ∈ (s.act e).log := by
  cases e with
  | enqueue c paths priority => exact List.mem_cons_of_mem _ mem
  | tryAcquire => rcases act_tryAcquire s with ⟨-, acted⟩ | ⟨-, acted⟩ <;> rwa [acted]
  | take =>
      rcases act_take s with ⟨job, queue, -, acted⟩ | ⟨-, acted⟩ <;> rw [acted]
      · exact List.mem_cons_of_mem _ mem
      · exact mem
  | _ => exact mem

/-- An agent with a job has it from the agent before it, or from the take just made. -/
theorem act_job {s : CoordinatorState} {e : CoordinatorEvent}
    (there : ∀ a, e.agent = some a → a ∈ s.agents) {b : Agent} (mem : b ∈ (s.act e).agents)
    {c : String} {paths : List String} (carries : b.job = some (c, paths)) :
    (∃ a ∈ s.agents, a.job = some (c, paths)) ∨ .taken c paths ∈ (s.act e).log := by
  cases e with
  | enqueue c' paths' priority =>
      rcases List.mem_cons.mp mem with rfl | old
      · cases carries
      · exact Or.inl ⟨b, old, carries⟩
  | tryAcquire =>
      rcases act_tryAcquire s with ⟨-, acted⟩ | ⟨-, acted⟩ <;> rw [acted] at mem <;>
        rcases Pool.mem_replace mem with new | old
      · cases List.mem_singleton.mp new
        cases carries
      · exact Or.inl ⟨b, old, carries⟩
      · cases new
      · exact Or.inl ⟨b, old, carries⟩
  | take =>
      rcases act_take s with ⟨job, queue, -, acted⟩ | ⟨-, acted⟩ <;> rw [acted] at mem ⊢ <;>
        rcases Pool.mem_replace mem with new | old
      · cases List.mem_singleton.mp new
        cases carries
        exact Or.inr List.mem_cons_self
      · exact Or.inl ⟨b, old, carries⟩
      · cases List.mem_singleton.mp new
        cases carries
      · exact Or.inl ⟨b, old, carries⟩
  | dropPermit =>
      rcases Pool.mem_replace mem with new | old
      · cases new
      · exact Or.inl ⟨b, old, carries⟩
  | setIndexing c' paths' =>
      rcases Pool.mem_replace mem with new | old
      · cases List.mem_singleton.mp new
        exact Or.inl ⟨_, there _ rfl, carries⟩
      · exact Or.inl ⟨b, old, carries⟩
  | spawn c' paths' =>
      rcases Pool.mem_replace mem with new | old
      · rcases List.mem_cons.mp new with rfl | rest
        · exact Or.inl ⟨_, there _ rfl, carries⟩
        · cases List.mem_singleton.mp rest
          cases carries
      · exact Or.inl ⟨b, old, carries⟩
  | _ =>
      rcases Pool.mem_replace mem with new | old
      · cases List.mem_singleton.mp new
        cases carries
      · exact Or.inl ⟨b, old, carries⟩

/-- Every step keeps the account. -/
theorem Accounted.step {permits : Nat} {s t : CoordinatorState} {e : CoordinatorEvent}
    (account : Accounted permits s) (taken : s.step e = some t) : Accounted permits t := by
  obtain ⟨there, rfl⟩ := step_eq_some taken
  obtain ⟨refines, exactly⟩ := act_queue e account.refines account.exactly
  refine ⟨(act_permits there).trans account.permits, act_busy there account.busy, refines,
    exactly, fun b mem c paths carries => ?_⟩
  rcases act_job there mem carries with ⟨a, was, carried⟩ | now
  · exact act_log_mono s e (account.jobs a was c paths carried)
  · exact now

/-! ## Safety -/

/-- A job of the corpus is in flight, between its take and its `mark_done`. -/
def CoordinatorState.InFlight (s : CoordinatorState) (corpusId : String) : Prop :=
  ∃ a ∈ s.agents, a.worksOn corpusId = true

/-- The corpus could be dispatched. -/
def CoordinatorState.Eligible (s : CoordinatorState) (corpusId : String) : Prop :=
  corpusId ∈ s.queue.pending ∧ ¬ s.InFlight corpusId

/-- By latest priority, then by the first request that waits. -/
def Precedes (log : List QueueEvent) (c c' : String) : Prop :=
  ∃ priority priority', latestPriority c log = some priority ∧
    latestPriority c' log = some priority' ∧
      (priority < priority' ∨
        (priority = priority' ∧ firstWaiting c log ≤ firstWaiting c' log))

/-- What holds in every state.  A job runs while it holds its permit, that is from its
take until its body has returned; its corpus stays in flight until `mark_done`. -/
structure Safe (maxConcurrency : Nat) (s : CoordinatorState) : Prop where
  exclusive : ∀ c, s.agents.countP (Agent.worksOn c) ≤ 1
  bounded : s.agents.countP Agent.runs ≤ maxConcurrency
  coalesced : s.queue.pending.keys.Nodup
  nothing_lost : ∀ newer c paths priority older,
    s.log = newer ++ .requested c paths priority :: older →
      (∃ entry, s.queue.pending.lookup c = some entry ∧ ∀ p ∈ paths, p ∈ entry.paths) ∨
        ∃ taken, .taken c taken ∈ newer ∧ ∀ p ∈ paths, p ∈ taken
  only_requested : ∀ newer c paths older,
    s.log = newer ++ .taken c paths :: older → ∀ p ∈ paths,
      ∃ requested priority, .requested c requested priority ∈ older ∧ p ∈ requested
  jobs : ∀ a ∈ s.agents, ∀ c paths, a.job = some (c, paths) → .taken c paths ∈ s.log

/-- A job is taken of an eligible corpus that no other eligible corpus precedes. -/
def PicksLeast (s : CoordinatorState) (e : CoordinatorEvent) : Prop :=
  ∀ t c paths, s.step e = some t → t.log = .taken c paths :: s.log →
    s.Eligible c ∧ ∀ c', s.Eligible c' → Precedes s.log c c'

theorem Agent.holdsPermit_of_runs {a : Agent} (runs : a.runs = true) : a.holdsPermit = true := by
  cases a <;> first | rfl | cases runs

theorem Accounted.inFlight_iff {permits : Nat} {s : CoordinatorState}
    (account : Accounted permits s) {c : String} : s.InFlight c ↔ c ∈ s.queue.busy := by
  have count := account.busy c
  unfold CoordinatorState.InFlight
  rw [← List.countP_pos_iff, count]
  split <;> simp_all

theorem Accounted.safe {permits : Nat} {s : CoordinatorState} (account : Accounted permits s) :
    Safe permits s where
  exclusive c := by
    rw [account.busy c]
    split <;> omega
  bounded := by
    have fewer : s.agents.countP Agent.runs ≤ s.agents.countP Agent.holdsPermit :=
      List.countP_mono_left fun a _ => Agent.holdsPermit_of_runs
    have sum := account.permits
    omega
  coalesced := s.queue.pending.keys_nodup
  nothing_lost newer c paths priority older is := by
    rcases (is ▸ account.exactly).nothing_lost with waits | taken
    · rw [← is] at waits
      cases found : s.queue.pending.lookup c with
      | none =>
          rw [account.refines.absent c found] at waits
          cases waits
      | some entry =>
          exact Or.inl ⟨entry, rfl, fun p listed =>
            ((account.refines.held c entry found).paths p).mpr ⟨_, waits, listed⟩⟩
    · exact Or.inr taken
  only_requested newer c paths older is p listed := (is ▸ account.exactly).only_requested listed
  jobs := account.jobs

theorem Accounted.picksLeast {permits : Nat} {s : CoordinatorState}
    (account : Accounted permits s) (e : CoordinatorEvent) : PicksLeast s e := by
  intro t c paths taken logged
  obtain ⟨-, rfl⟩ := step_eq_some taken
  cases e with
  | enqueue c' paths' priority => cases logged
  | tryAcquire =>
      rcases act_tryAcquire s with ⟨-, acted⟩ | ⟨-, acted⟩ <;> rw [acted] at logged <;>
        exact absurd (congrArg List.length logged) (by simp)
  | take =>
      rcases act_take s with ⟨job, queue, took, acted⟩ | ⟨-, acted⟩ <;> rw [acted] at logged
      · cases logged
        obtain ⟨entry, found, idle, -, -, least⟩ := QueueState.takeNextDispatchable_eq_some took
        refine ⟨⟨(Rows.mem_iff_lookup _ _).mpr ⟨entry, found⟩,
          fun flying => idle (account.inFlight_iff.mp flying)⟩, fun c' ⟨pending, ground⟩ => ?_⟩
        obtain ⟨entry', found'⟩ := (Rows.mem_iff_lookup _ _).mp pending
        have first := least c' entry' found' fun busy => ground (account.inFlight_iff.mpr busy)
        have order := account.refines.order c' entry' job.corpusId entry found' found
        refine ⟨entry.priority, entry'.priority, (account.refines.held _ _ found).priority,
          (account.refines.held _ _ found').priority, ?_⟩
        rw [Bool.eq_false_iff, ne_eq, PendingJob.before_iff] at first
        omega
      · exact absurd (congrArg List.length logged) (by simp)
  | _ => exact absurd (congrArg List.length logged) (by simp [act])

/-- **Coordinator safety.**  Along every interleaving the state is safe and each take
picks the least corpus. -/
theorem coordinator_safe (maxConcurrency : Nat) (events : List CoordinatorEvent) :
    Throughout step (Safe (max maxConcurrency 1)) (start maxConcurrency) events ∧
      EachStep step PicksLeast (start maxConcurrency) events := by
  have keeps : ∀ (s : CoordinatorState) e t, Accounted (max maxConcurrency 1) s →
      s.step e = some t → Accounted (max maxConcurrency 1) t :=
    fun _ _ _ account taken => account.step taken
  constructor
  · exact (throughout_of_keeps keeps events (accounted_start maxConcurrency)).imp
      fun _ account => account.safe
  · exact eachStep_of_invariant _ (fun s account e _ => account.picksLeast e)
      (fun s account e _ t taken => keeps s e t account taken) (accounted_start maxConcurrency)

end Ministr.Daemon
