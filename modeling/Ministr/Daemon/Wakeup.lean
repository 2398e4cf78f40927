/-
# Daemon.Wakeup — does every request reach a job?

A dispatcher that finds no free permit returns at once, in the belief that whoever holds
the permits will look at the queue again.  A job does, after it dropped its permit.  A
dispatcher that looked and found nothing does not: it drops its permit and returns.  So
a request that arrives between that look and that drop, and whose own dispatcher finds
no permit, is left in the queue with nobody to start it (`request_stranded`).

This is the only way to lose a wake-up.  While no dispatcher is turned away with only
such permit holders around it (`TurnedAwaySafely`), somebody who will look at the queue
is in the pool as long as anything is pending, so a quiet coordinator has an empty queue
(`quiet_queue_empty`).  And the condition leaves out nothing harmless: once a dispatcher
is turned away otherwise, letting the pool run out strands what is pending
(`stranded_of_turnedAway`).
-/
import Ministr.Daemon.CoordinatorSafe

namespace Ministr.Daemon

open Ministr.Theory
open CoordinatorState

set_option autoImplicit false

/-- Nothing is pending in a quiet state, and every request has been handed to a job
taken after it. -/
def Drained (s : CoordinatorState) : Prop :=
  s.Quiet → s.queue.pending = ∅ ∧
    ∀ newer c paths priority older, s.log = newer ++ .requested c paths priority :: older →
      ∃ taken, .taken c taken ∈ newer ∧ ∀ p ∈ paths, p ∈ taken

/-- A dispatcher that finds no free permit while something is pending leaves somebody
behind that is not just about to drop a permit. -/
def TurnedAwaySafely (s : CoordinatorState) (e : CoordinatorEvent) : Prop :=
  e = .tryAcquire → s.freePermits = 0 → s.queue.pending ≠ ∅ →
    ∃ b ∈ s.agents.erase .dispatching, b ≠ .dropping

theorem pending_eq_empty_iff {q : QueueState} : q.pending = ∅ ↔ q.pending.keys = [] :=
  ⟨fun is => by rw [is]; rfl, Rows.eq_empty_of_keys⟩

instance (s : CoordinatorState) (e : CoordinatorEvent) : Decidable (TurnedAwaySafely s e) :=
  decidable_of_iff (e = .tryAcquire → s.freePermits = 0 → s.queue.pending.keys ≠ [] →
    ∃ b ∈ s.agents.erase .dispatching, b ≠ .dropping) <| by
      rw [TurnedAwaySafely, Ne, Ne, pending_eq_empty_iff]

/-- While anything is pending, somebody will look at the queue. -/
def Watched (s : CoordinatorState) : Prop :=
  s.queue.pending ≠ ∅ → ∃ a ∈ s.agents, a ≠ .dropping

/-- A step whose agent goes on as somebody who will look. -/
theorem watched_next {s : CoordinatorState} {a b : Agent} {next : List Agent}
    (goes_on : b ∈ next) (looks : b ≠ .dropping) : Watched (s.become a next) :=
  fun _ => ⟨b, Pool.next_mem_replace goes_on, looks⟩

theorem pending_ne_empty {q : QueueState} (some_pending : q.pending ≠ ∅) :
    ∃ c, c ∈ q.pending := by
  by_contra nobody
  refine some_pending (Rows.eq_empty_of_keys (List.eq_nil_iff_forall_not_mem.mpr fun c mem => ?_))
  exact nobody ⟨c, mem⟩

/-- A dispatcher that finds nothing to start is not alone when something is pending: it
is busy, so a job of it is in flight. -/
theorem Accounted.watched_nothing {permits : Nat} {s : CoordinatorState}
    (account : Accounted permits s) (nothing : s.queue.takeNextDispatchable = none) :
    Watched (s.become .holding [.dropping]) := by
  intro some_pending
  obtain ⟨c, pending⟩ := pending_ne_empty some_pending
  obtain ⟨a, mem, works⟩ := account.inFlight_iff.mpr
    (QueueState.takeNextDispatchable_eq_none nothing pending)
  refine ⟨a, Pool.other_mem_replace mem ?_, ?_⟩
  · rintro rfl
    cases works
  · rintro rfl
    cases works

theorem Accounted.watched_step {permits : Nat} {s t : CoordinatorState} {e : CoordinatorEvent}
    (account : Accounted permits s) (watched : Watched s) (safely : TurnedAwaySafely s e)
    (taken : s.step e = some t) : Watched t := by
  obtain ⟨-, rfl⟩ := step_eq_some taken
  cases e with
  | enqueue c paths priority => exact fun _ => ⟨.enqueued c, List.mem_cons_self, nofun⟩
  | setQueued c => exact watched_next List.mem_cons_self nofun
  | tryAcquire =>
      rcases act_tryAcquire s with ⟨-, acted⟩ | ⟨none_free, acted⟩ <;> rw [acted]
      · exact watched_next List.mem_cons_self nofun
      · intro some_pending
        obtain ⟨b, stays, looks⟩ := safely rfl none_free some_pending
        exact ⟨b, List.mem_append_right _ stays, looks⟩
  | take =>
      rcases act_take s with ⟨job, queue, -, acted⟩ | ⟨nothing, acted⟩ <;> rw [acted]
      · exact watched_next List.mem_cons_self nofun
      · exact account.watched_nothing nothing
  | dropPermit =>
      intro some_pending
      obtain ⟨a, mem, looks⟩ := watched some_pending
      exact ⟨a, Pool.other_mem_replace mem looks, looks⟩
  | setIndexing c paths => exact watched_next List.mem_cons_self nofun
  | spawn c paths => exact watched_next List.mem_cons_self nofun
  | settle c paths error => exact watched_next List.mem_cons_self nofun
  | releasePermit c => exact watched_next List.mem_cons_self nofun
  | markDone c => exact watched_next List.mem_cons_self nofun

theorem Accounted.drained {permits : Nat} {s : CoordinatorState} (account : Accounted permits s)
    (watched : Watched s) : Drained s := by
  intro quiet
  have empty : s.queue.pending = ∅ := by
    by_contra some_pending
    obtain ⟨a, mem, -⟩ := watched some_pending
    rw [quiet] at mem
    cases mem
  refine ⟨empty, fun newer c paths priority older is => ?_⟩
  rcases account.safe.nothing_lost newer c paths priority older is with ⟨entry, found, -⟩ | taken
  · rw [empty] at found
    cases found
  · exact taken

/-- **No wake-up is lost** while dispatchers are turned away safely: in every quiet state
of such a run the queue is empty. -/
theorem quiet_queue_empty (maxConcurrency : Nat) (events : List CoordinatorEvent)
    (safely : EachStep step TurnedAwaySafely (start maxConcurrency) events) :
    Throughout step Drained (start maxConcurrency) events := by
  have keeps : ∀ (s : CoordinatorState) e t,
      Accounted (max maxConcurrency 1) s ∧ Watched s → TurnedAwaySafely s e →
        s.step e = some t → Accounted (max maxConcurrency 1) t ∧ Watched t :=
    fun s e t inv safely taken => ⟨inv.1.step taken, inv.1.watched_step inv.2 safely taken⟩
  have init : Watched (start maxConcurrency) := fun some_pending => absurd rfl some_pending
  exact (throughout_of_eachStep keeps ⟨accounted_start maxConcurrency, init⟩ safely).imp
    fun s inv => inv.1.drained inv.2

theorem quiet_queue_empty_overlapping :
    (exec step (start 1) overlappingRequests).map (fun s => (s.agents, s.freePermits)) =
        some ([], 1) ∧
      Throughout step Drained (start 1) overlappingRequests :=
  ⟨rfl, quiet_queue_empty 1 overlappingRequests (by decide)⟩

/-- The two dispatchers that are left after a job of `a` have both found nothing and not
yet dropped their permits when `b` is requested; its own dispatcher is turned away. -/
def strandedRequest : List CoordinatorEvent :=
  [.enqueue "a" ["/a"] 0, .setQueued "a", .tryAcquire, .take, .setIndexing "a" ["/a"],
    .spawn "a" ["/a"], .settle "a" ["/a"] none, .releasePermit "a", .markDone "a",
    .tryAcquire, .tryAcquire, .take, .take, .enqueue "b" ["/b"] 0, .setQueued "b", .tryAcquire,
    .dropPermit, .dropPermit]

/-- Two permits and nobody in progress, and `b` waits for ever. -/
theorem request_stranded :
    ∃ s, exec step (start 2) strandedRequest = some s ∧ s.Quiet ∧ s.freePermits = 2 ∧
      "b" ∈ s.queue.pending ∧ s.statusOf "b" = .queued := by
  refine ⟨_, rfl, rfl, rfl, ?_, rfl⟩
  decide

/-! ## The condition is needed -/

/-- Dispatchers that are about to drop their permits do only that. -/
theorem runs_out {s : CoordinatorState} (only : ∀ a ∈ s.agents, a = .dropping) :
    ∃ events u, exec step s events = some u ∧ u.Quiet ∧ u.queue = s.queue := by
  induction agents : s.agents generalizing s with
  | nil => exact ⟨[], s, rfl, agents, rfl⟩
  | cons a rest ih =>
      have first : a = .dropping := only a (by simp [agents])
      subst first
      have gone : (s.act .dropPermit).agents = rest := by
        simp [act, Pool.replace, agents]
      obtain ⟨events, u, ran, quiet, queue⟩ := ih (s := s.act .dropPermit)
        (fun b mem => only b (by simp [agents, gone ▸ mem])) gone
      refine ⟨.dropPermit :: events, u, ?_, quiet, queue⟩
      refine (exec_cons_eq_some step).mpr ⟨s.act .dropPermit, ?_, ran⟩
      exact if_pos fun b is => by
        cases is
        simp [agents]

/-- After a dispatcher was turned away otherwise, the agents that are left can run out
with the request still pending. -/
theorem stranded_of_turnedAway {s t : CoordinatorState} {e : CoordinatorEvent}
    (taken : s.step e = some t) (unsafely : ¬ TurnedAwaySafely s e) :
    ∃ events u, exec step t events = some u ∧ u.Quiet ∧ u.queue.pending ≠ ∅ := by
  obtain ⟨-, rfl⟩ := step_eq_some taken
  unfold TurnedAwaySafely at unsafely
  push Not at unsafely
  obtain ⟨rfl, none_free, some_pending, only⟩ := unsafely
  rcases act_tryAcquire s with ⟨free, -⟩ | ⟨-, acted⟩
  · omega
  · rw [acted]
    obtain ⟨events, u, ran, quiet, queue⟩ := runs_out (s := s.become .dispatching []) only
    exact ⟨events, u, ran, quiet, queue ▸ some_pending⟩

end Ministr.Daemon
