/-
# Mcp.Tasks — the task manager behind long tool calls

`McpTaskManager` keeps one entry per task under a mutex; every call of it is one
step here.  A worker ends its task with `complete` or `fail`, a client with
`cancel`, and the reads drop entries that ended more than five minutes ago.

`cancel` and `update_progress` look at the status before they write;
`complete` and `fail` do not.  `taskLifecycle_iff` says exactly what that costs:
tasks keep to working → completed, failed or cancelled in every run, for any two
states of it, exactly when no `complete` or `fail` reaches a task that has
already ended another way.  `cancelled_task_completes` is the run that the
client's `cancel` and the worker's `complete` make together.
-/
import Ministr.Mcp.Timestamp
import Ministr.Theory.Hexadecimal
import Ministr.Theory.Rows
import Ministr.Theory.Run

namespace Ministr.Mcp

open Ministr.Theory

set_option autoImplicit false

/-! ## Ids and timestamps -/

/-- `generate_task_id`: the low 64 bits of the clock, and the same hashed with the
next value of the process-wide counter. -/
def generateTaskId (nanos seq : Nat) : String :=
  let nanosLo := nanos % 2 ^ 64
  let hash := (nanosLo * 6364136223846793005 + seq) % 2 ^ 64
  String.ofList ("task-".toList ++ (hexDigits 16 nanosLo ++ ('-' :: hexDigits 16 hash)))

/-- `format_timestamp`. -/
def formatTimestamp (secs : Nat) : String :=
  String.ofList ((Timestamp.formatTimestamp secs).get (Timestamp.formatTimestamp_isSome secs))

/-! ## The source -/

/-- The four statuses of `rmcp`'s `TaskStatus` that the manager sets. -/
inductive TaskStatus where
  | working
  | completed
  | failed
  | cancelled
  deriving DecidableEq, Repr

/-- `rmcp::model::Task`, the fields the manager sets. -/
structure Task where
  taskId : String
  status : TaskStatus
  statusMessage : Option String
  createdAt : String
  lastUpdatedAt : String
  pollInterval : Option Nat
  deriving DecidableEq, Repr

/-- `TaskEntry`: the join handle and the cancellation token are known by number. -/
structure TaskEntry (ρ : Type) where
  task : Task
  result : Option ρ
  finishedAt : Option Nat
  joinHandle : Option Nat
  cancellationToken : Option Nat
  deriving DecidableEq, Repr

/-- The clocks a call reads: seconds since the epoch, and nanoseconds of `Instant`. -/
structure Clock where
  secs : Nat
  instant : Nat
  deriving DecidableEq, Repr

/-- `McpTaskManager`, with the counter the ids are drawn from and what `cancel` has
signalled and aborted. -/
structure TaskManager (ρ : Type) where
  tasks : Rows String (TaskEntry ρ)
  counter : Nat
  signalled : List Nat
  aborted : List Nat

section Manager

variable {ρ : Type}

/-- `McpTaskManager::new`. -/
def TaskManager.new : TaskManager ρ where
  tasks := ∅
  counter := 0
  signalled := []
  aborted := []

/-- `TASK_RETENTION`, in nanoseconds. -/
def taskRetention : Nat := 300 * 10 ^ 9

/-- `DEFAULT_POLL_INTERVAL_MS`. -/
def defaultPollIntervalMs : Nat := 2000

/-- Whether `prune_expired` drops an entry. -/
def TaskEntry.expired (entry : TaskEntry ρ) (now : Nat) : Bool :=
  match entry.finishedAt with
  | some finished => !decide (now - finished < taskRetention)
  | none => false

/-- `prune_expired`. -/
def TaskManager.pruneExpired (m : TaskManager ρ) (now : Nat) : TaskManager ρ :=
  { m with tasks := m.tasks.deleteWhere fun _ entry => entry.expired now }

/-- `tasks.get_mut(task_id)`, then a write to the entry. -/
def TaskManager.modify (m : TaskManager ρ) (taskId : String)
    (write : TaskEntry ρ → TaskEntry ρ) : TaskManager ρ :=
  match m.tasks.lookup taskId with
  | none => m
  | some entry => { m with tasks := m.tasks.insert taskId (write entry) }

/-- `create`; `nanos` is the clock as the id is drawn. -/
def TaskManager.create (m : TaskManager ρ) (statusMessage : String)
    (joinHandle cancellationToken : Option Nat) (nanos : Nat) (now : Clock) :
    TaskManager ρ × Task :=
  let taskId := generateTaskId nanos m.counter
  let task :=
    { taskId := taskId, status := .working, statusMessage := some statusMessage
      createdAt := formatTimestamp now.secs, lastUpdatedAt := formatTimestamp now.secs
      pollInterval := some defaultPollIntervalMs }
  let entry :=
    { task := task, result := none, finishedAt := none
      joinHandle := joinHandle, cancellationToken := cancellationToken }
  ({ m with tasks := m.tasks.insert taskId entry, counter := m.counter + 1 }, task)

/-- `set_join_handle`. -/
def TaskManager.setJoinHandle (m : TaskManager ρ) (taskId : String) (handle : Nat) :
    TaskManager ρ :=
  m.modify taskId fun entry => { entry with joinHandle := some handle }

/-- The text `complete` leaves. -/
def completedMessage : String := "Task completed successfully"

/-- `complete`: whatever the status was. -/
def TaskManager.complete (m : TaskManager ρ) (taskId : String) (result : ρ) (now : Clock) :
    TaskManager ρ :=
  m.modify taskId fun entry =>
    { entry with
      task :=
        { entry.task with
          status := .completed, statusMessage := some completedMessage
          lastUpdatedAt := formatTimestamp now.secs }
      result := some result
      finishedAt := some now.instant
      joinHandle := none }

/-- `fail`: whatever the status was, and a result stays where it is. -/
def TaskManager.fail (m : TaskManager ρ) (taskId : String) (error : String) (now : Clock) :
    TaskManager ρ :=
  m.modify taskId fun entry =>
    { entry with
      task :=
        { entry.task with
          status := .failed, statusMessage := some error
          lastUpdatedAt := formatTimestamp now.secs }
      finishedAt := some now.instant
      joinHandle := none }

/-- `update_progress`: of a working task only. -/
def TaskManager.updateProgress (m : TaskManager ρ) (taskId : String) (message : String)
    (now : Clock) : TaskManager ρ :=
  m.modify taskId fun entry =>
    if entry.task.status = .working then
      { entry with
        task :=
          { entry.task with
            statusMessage := some message, lastUpdatedAt := formatTimestamp now.secs } }
    else entry

/-- What `cancel` makes of a working entry. -/
def TaskEntry.cancel (entry : TaskEntry ρ) (now : Clock) : TaskEntry ρ :=
  { entry with
    task :=
      { entry.task with
        status := .cancelled, statusMessage := some "Task cancelled by client"
        lastUpdatedAt := formatTimestamp now.secs }
    finishedAt := some now.instant
    joinHandle := none
    cancellationToken := none }

/-- `cancel`: a working task only; its token is signalled and its worker aborted. -/
def TaskManager.cancel (m : TaskManager ρ) (taskId : String) (now : Clock) :
    TaskManager ρ × Option Task :=
  match m.tasks.lookup taskId with
  | none => (m, none)
  | some entry =>
      if entry.task.status ≠ .working then (m, some entry.task)
      else
        let cancelled := entry.cancel now
        ({ m with
            tasks := m.tasks.insert taskId cancelled
            signalled := m.signalled ++ entry.cancellationToken.toList
            aborted := m.aborted ++ entry.joinHandle.toList },
          some cancelled.task)

/-- `get_task`. -/
def TaskManager.getTask (m : TaskManager ρ) (taskId : String) (now : Nat) :
    TaskManager ρ × Option Task :=
  let m := m.pruneExpired now
  (m, (m.tasks.lookup taskId).map TaskEntry.task)

/-- `get_result`. -/
def TaskManager.getResult (m : TaskManager ρ) (taskId : String) (now : Nat) :
    TaskManager ρ × Option ρ :=
  let m := m.pruneExpired now
  (m, (m.tasks.lookup taskId).bind TaskEntry.result)

/-- `list_tasks`. -/
def TaskManager.listTasks (m : TaskManager ρ) (now : Nat) : TaskManager ρ × List Task :=
  let m := m.pruneExpired now
  (m, m.tasks.entries.map fun e => e.2.task)

/-- A call of the manager, with what it is given and the clocks it reads. -/
inductive TaskCall (ρ : Type) where
  | create (statusMessage : String) (joinHandle cancellationToken : Option Nat) (nanos : Nat)
      (now : Clock)
  | setJoinHandle (taskId : String) (handle : Nat)
  | complete (taskId : String) (result : ρ) (now : Clock)
  | fail (taskId : String) (error : String) (now : Clock)
  | updateProgress (taskId : String) (message : String) (now : Clock)
  | cancel (taskId : String) (now : Clock)
  | getTask (taskId : String) (now : Nat)
  | getResult (taskId : String) (now : Nat)
  | listTasks (now : Nat)
  deriving DecidableEq, Repr

def TaskManager.apply (m : TaskManager ρ) : TaskCall ρ → TaskManager ρ
  | .create statusMessage joinHandle cancellationToken nanos now =>
      (m.create statusMessage joinHandle cancellationToken nanos now).1
  | .setJoinHandle taskId handle => m.setJoinHandle taskId handle
  | .complete taskId result now => m.complete taskId result now
  | .fail taskId error now => m.fail taskId error now
  | .updateProgress taskId message now => m.updateProgress taskId message now
  | .cancel taskId now => (m.cancel taskId now).1
  | .getTask taskId now => (m.getTask taskId now).1
  | .getResult taskId now => (m.getResult taskId now).1
  | .listTasks now => (m.listTasks now).1

/-- The manager's mutex makes each call one step; every call is always allowed. -/
def TaskManager.step (m : TaskManager ρ) (call : TaskCall ρ) : Option (TaskManager ρ) :=
  some (m.apply call)

def TaskCall.creates : TaskCall ρ → Bool
  | create .. => true
  | _ => false

/-! ## The lifecycle -/

/-- What may become of a task between two looks at it. -/
structure TaskEntry.Evolves (before after : TaskEntry ρ) : Prop where
  once : after.task.status = before.task.status ∨
    before.task.status = .working ∧ after.task.status ≠ .working
  kept : before.task.status ≠ .working →
    after.task.status = before.task.status ∧
    after.task.statusMessage = before.task.statusMessage ∧
    after.result = before.result

/-- The lifecycle between two states of a run: a task only ever settles. -/
def TaskManager.Lifecycle (earlier later : TaskManager ρ) : Prop :=
  ∀ taskId before after, earlier.tasks.lookup taskId = some before →
    later.tasks.lookup taskId = some after → before.Evolves after

/-- What holds of the entries of one state; in particular no read drops a task that
still works. -/
structure TaskManager.Consistent (m : TaskManager ρ) : Prop where
  finished : ∀ taskId entry, m.tasks.lookup taskId = some entry →
    (entry.finishedAt.isSome ↔ entry.task.status ≠ .working)
  payload : ∀ taskId entry, m.tasks.lookup taskId = some entry →
    (entry.result.isSome ↔ entry.task.status = .completed)
  running : ∀ taskId entry now, m.tasks.lookup taskId = some entry →
    entry.task.status = .working → (m.pruneExpired now).tasks.lookup taskId = some entry

/-- `get_result` hands out a payload exactly of the completed tasks. -/
def TaskManager.AnswersCompleted (m : TaskManager ρ) : Prop :=
  ∀ taskId now, (m.getResult taskId now).2.isSome ↔
    ∃ task, (m.getTask taskId now).2 = some task ∧ task.status = .completed

/-- The lifecycle of a whole run: between any two of its states, and in each. -/
def LifecycleHolds (calls : List (TaskCall ρ)) : Prop :=
  ∀ past between future earlier later, calls = past ++ between ++ future →
    exec TaskManager.step .new past = some earlier →
    exec TaskManager.step earlier between = some later →
    earlier.Lifecycle later ∧ later.Consistent ∧ later.AnswersCompleted

/-- A worker's call finds its task working, gone, or ended in the very same way. -/
def TaskManager.Orderly (m : TaskManager ρ) : TaskCall ρ → Prop
  | .complete taskId result _ => ∀ entry, m.tasks.lookup taskId = some entry →
      entry.task.status = .working ∨
      entry.task.status = .completed ∧ entry.task.statusMessage = some completedMessage ∧
        entry.result = some result
  | .fail taskId error _ => ∀ entry, m.tasks.lookup taskId = some entry →
      entry.task.status = .working ∨
      entry.task.status = .failed ∧ entry.task.statusMessage = some error
  | _ => True

/-! ## Task ids are not drawn twice -/

/-- Two ids drawn before the counter wraps are equal only for one value of it. -/
theorem generateTaskId_seq {nanos nanos' seq seq' : Nat} (fits : seq < 2 ^ 64)
    (fits' : seq' < 2 ^ 64) (same : generateTaskId nanos seq = generateTaskId nanos' seq') :
    seq = seq' := by
  have chars := List.append_cancel_left (String.ofList_injective same)
  obtain ⟨clock, hash⟩ := List.append_inj chars (by simp)
  have clocks : nanos % 2 ^ 64 = nanos' % 2 ^ 64 :=
    hexDigits_injective (Nat.mod_lt _ (by omega)) (Nat.mod_lt _ (by omega)) clock
  have hashes : (nanos % 2 ^ 64 * 6364136223846793005 + seq) % 2 ^ 64 =
      (nanos' % 2 ^ 64 * 6364136223846793005 + seq') % 2 ^ 64 :=
    hexDigits_injective (Nat.mod_lt _ (by omega)) (Nat.mod_lt _ (by omega))
      (List.cons.inj hash).2
  rw [clocks] at hashes
  omega

/-! ## What a call does to one entry -/

/-- What a call makes of the entry stored under `key`; `none` when it is pruned. -/
def TaskCall.onEntry (call : TaskCall ρ) (key : String) (entry : TaskEntry ρ) :
    Option (TaskEntry ρ) :=
  match call with
  | .create .. => some entry
  | .setJoinHandle taskId handle =>
      if key = taskId then some { entry with joinHandle := some handle } else some entry
  | .complete taskId result now =>
      if key = taskId then
        some
          { entry with
            task :=
              { entry.task with
                status := .completed, statusMessage := some completedMessage
                lastUpdatedAt := formatTimestamp now.secs }
            result := some result
            finishedAt := some now.instant
            joinHandle := none }
      else some entry
  | .fail taskId error now =>
      if key = taskId then
        some
          { entry with
            task :=
              { entry.task with
                status := .failed, statusMessage := some error
                lastUpdatedAt := formatTimestamp now.secs }
            finishedAt := some now.instant
            joinHandle := none }
      else some entry
  | .updateProgress taskId message now =>
      if key = taskId ∧ entry.task.status = .working then
        some
          { entry with
            task :=
              { entry.task with
                statusMessage := some message, lastUpdatedAt := formatTimestamp now.secs } }
      else some entry
  | .cancel taskId now =>
      if key = taskId ∧ entry.task.status = .working then some (entry.cancel now)
      else some entry
  | .getTask _ now => if entry.expired now then none else some entry
  | .getResult _ now => if entry.expired now then none else some entry
  | .listTasks now => if entry.expired now then none else some entry

/-- The entry a call adds under `key`. -/
def TaskManager.added (m : TaskManager ρ) (call : TaskCall ρ) (key : String) :
    Option (TaskEntry ρ) :=
  match call with
  | .create statusMessage joinHandle cancellationToken nanos now =>
      if key = generateTaskId nanos m.counter then
        some
          { task := (m.create statusMessage joinHandle cancellationToken nanos now).2
            result := none, finishedAt := none
            joinHandle := joinHandle, cancellationToken := cancellationToken }
      else none
  | _ => none

theorem lookup_modify (m : TaskManager ρ) (taskId key : String)
    (write : TaskEntry ρ → TaskEntry ρ) :
    (m.modify taskId write).tasks.lookup key =
      (m.tasks.lookup key).bind fun entry =>
        if key = taskId then some (write entry) else some entry := by
  unfold TaskManager.modify
  by_cases here : key = taskId
  · subst here
    cases found : m.tasks.lookup key with
    | none => simp [found]
    | some entry => simp
  · cases m.tasks.lookup taskId <;> simp [here]

theorem lookup_pruneExpired (m : TaskManager ρ) (now : Nat) (key : String) :
    (m.pruneExpired now).tasks.lookup key =
      (m.tasks.lookup key).bind fun entry => if entry.expired now then none else some entry := by
  rw [TaskManager.pruneExpired, Rows.lookup_deleteWhere]
  cases m.tasks.lookup key with
  | none => rfl
  | some entry => cases expired : entry.expired now <;> simp [expired]

/-- **One call**: each key is the new one, or goes through `onEntry`. -/
theorem lookup_apply (m : TaskManager ρ) (call : TaskCall ρ) (key : String) :
    (m.apply call).tasks.lookup key =
      (m.added call key).or ((m.tasks.lookup key).bind (call.onEntry key)) := by
  cases call with
  | create statusMessage joinHandle cancellationToken nanos now =>
      simp only [TaskManager.apply, TaskManager.create, Rows.lookup_insert_if, TaskManager.added]
      by_cases here : key = generateTaskId nanos m.counter
      · simp [here]
      · cases found : m.tasks.lookup key <;> simp [here, TaskCall.onEntry]
  | setJoinHandle taskId handle => exact lookup_modify ..
  | complete taskId result now => exact lookup_modify ..
  | fail taskId error now => exact lookup_modify ..
  | updateProgress taskId message now =>
      refine (lookup_modify ..).trans ?_
      simp only [TaskManager.added, Option.none_or]
      congr 1
      funext entry
      by_cases here : key = taskId <;> by_cases working : entry.task.status = .working <;>
        simp [TaskCall.onEntry, here, working]
  | cancel taskId now =>
      simp only [TaskManager.apply, TaskManager.cancel, TaskManager.added, Option.none_or]
      by_cases here : key = taskId
      · subst here
        cases found : m.tasks.lookup key with
        | none => simp [found]
        | some entry =>
            by_cases working : entry.task.status = .working <;>
              simp [TaskCall.onEntry, working, found]
      · have same : TaskCall.onEntry (.cancel taskId now) key = (some : TaskEntry ρ → _) := by
          funext entry
          simp [TaskCall.onEntry, here]
        rw [same, Option.bind_fun_some]
        cases found : m.tasks.lookup taskId with
        | none => rfl
        | some entry =>
            by_cases working : entry.task.status = .working <;>
              simp [working, here]
  | getTask taskId now => exact lookup_pruneExpired ..
  | getResult taskId now => exact lookup_pruneExpired ..
  | listTasks now => exact lookup_pruneExpired ..

/-! ## One entry -/

section Entry

variable {m : TaskManager ρ} {call : TaskCall ρ} {key : String} {before after : TaskEntry ρ}

theorem TaskEntry.Evolves.refl (entry : TaskEntry ρ) : entry.Evolves entry :=
  ⟨.inl rfl, fun _ => ⟨rfl, rfl, rfl⟩⟩

theorem TaskEntry.Evolves.trans {entry : TaskEntry ρ} (first : before.Evolves entry)
    (second : entry.Evolves after) : before.Evolves after := by
  constructor
  · rcases first.once with same | ⟨working, ended⟩
    · rw [← same]
      exact second.once
    · exact .inr ⟨working, by rw [(second.kept ended).1]; exact ended⟩
  · intro ended
    obtain ⟨status, message, result⟩ := first.kept ended
    obtain ⟨status', message', result'⟩ := second.kept (by rwa [status])
    exact ⟨status'.trans status, message'.trans message, result'.trans result⟩

/-- What keeps status, message and result keeps the lifecycle. -/
theorem TaskEntry.Evolves.same (status : after.task.status = before.task.status)
    (message : after.task.statusMessage = before.task.statusMessage)
    (result : after.result = before.result) : before.Evolves after :=
  ⟨.inl status, fun _ => ⟨status, message, result⟩⟩

/-- A working task may become anything that has ended, or say something new. -/
theorem TaskEntry.Evolves.of_working (working : before.task.status = .working) :
    before.Evolves after := by
  refine ⟨?_, fun ended => absurd working ended⟩
  by_cases still : after.task.status = .working
  · exact .inl (still.trans working.symm)
  · exact .inr ⟨working, still⟩

/-- What a call writes into the entry stored under `key`. -/
inductive TaskCall.Writes (key : String) (before : TaskEntry ρ) : TaskCall ρ → TaskEntry ρ → Prop where
  | joinHandle (handle : Nat) :
      Writes key before (.setJoinHandle key handle) { before with joinHandle := some handle }
  | completed (result : ρ) (now : Clock) :
      Writes key before (.complete key result now)
        { before with
          task :=
            { before.task with
              status := .completed, statusMessage := some completedMessage
              lastUpdatedAt := formatTimestamp now.secs }
          result := some result
          finishedAt := some now.instant
          joinHandle := none }
  | failed (error : String) (now : Clock) :
      Writes key before (.fail key error now)
        { before with
          task :=
            { before.task with
              status := .failed, statusMessage := some error
              lastUpdatedAt := formatTimestamp now.secs }
          finishedAt := some now.instant
          joinHandle := none }
  | progress (message : String) (now : Clock) (working : before.task.status = .working) :
      Writes key before (.updateProgress key message now)
        { before with
          task :=
            { before.task with
              statusMessage := some message, lastUpdatedAt := formatTimestamp now.secs } }
  | canceled (now : Clock) (working : before.task.status = .working) :
      Writes key before (.cancel key now) (before.cancel now)

/-- An entry that stays in place is left alone or written by the call that names it. -/
theorem onEntry_cases (becomes : call.onEntry key before = some after) :
    after = before ∨ TaskCall.Writes key before call after := by
  cases call with
  | create => exact .inl (Option.some.inj becomes).symm
  | setJoinHandle taskId handle =>
      simp only [TaskCall.onEntry] at becomes
      split at becomes
      · rename_i here
        subst here
        cases becomes
        exact .inr (.joinHandle handle)
      · exact .inl (Option.some.inj becomes).symm
  | complete taskId result now =>
      simp only [TaskCall.onEntry] at becomes
      split at becomes
      · rename_i here
        subst here
        cases becomes
        exact .inr (.completed result now)
      · exact .inl (Option.some.inj becomes).symm
  | fail taskId error now =>
      simp only [TaskCall.onEntry] at becomes
      split at becomes
      · rename_i here
        subst here
        cases becomes
        exact .inr (.failed error now)
      · exact .inl (Option.some.inj becomes).symm
  | updateProgress taskId message now =>
      simp only [TaskCall.onEntry] at becomes
      split at becomes
      · rename_i here
        obtain ⟨rfl, working⟩ := here
        cases becomes
        exact .inr (.progress message now working)
      · exact .inl (Option.some.inj becomes).symm
  | cancel taskId now =>
      simp only [TaskCall.onEntry] at becomes
      split at becomes
      · rename_i here
        obtain ⟨rfl, working⟩ := here
        cases becomes
        exact .inr (.canceled now working)
      · exact .inl (Option.some.inj becomes).symm
  | getTask | getResult | listTasks =>
      simp only [TaskCall.onEntry] at becomes
      split at becomes
      · cases becomes
      · exact .inl (Option.some.inj becomes).symm

/-- **Orderly calls keep the lifecycle** of every entry they leave in place. -/
theorem onEntry_evolves (orderly : m.Orderly call) (found : m.tasks.lookup key = some before)
    (becomes : call.onEntry key before = some after) : before.Evolves after := by
  rcases onEntry_cases becomes with rfl | writes
  · exact .refl _
  · cases writes with
    | joinHandle handle => exact .same rfl rfl rfl
    | completed result now =>
        rcases orderly before found with working | ⟨status, message, payload⟩
        · exact .of_working working
        · exact .same status.symm message.symm payload.symm
    | failed error now =>
        rcases orderly before found with working | ⟨status, message⟩
        · exact .of_working working
        · exact .same status.symm message.symm rfl
    | progress message now working => exact .of_working working
    | canceled now working => exact .of_working working

/-- An entry that tells the truth about itself. -/
def TaskEntry.Truthful (entry : TaskEntry ρ) : Prop :=
  (entry.finishedAt.isSome ↔ entry.task.status ≠ .working) ∧
  (entry.result.isSome ↔ entry.task.status = .completed)

/-- A working task has no payload yet, so ending it tells the truth. -/
theorem TaskEntry.Truthful.no_result (truthful : before.Truthful)
    (working : before.task.status = .working) : before.result = none := by
  have := truthful.2
  rw [working] at this
  simpa using this

theorem onEntry_truthful (truthful : before.Truthful) (orderly : m.Orderly call)
    (found : m.tasks.lookup key = some before)
    (becomes : call.onEntry key before = some after) : after.Truthful := by
  rcases onEntry_cases becomes with rfl | writes
  · exact truthful
  · cases writes with
    | joinHandle handle => exact truthful
    | completed result now => simp [TaskEntry.Truthful]
    | failed error now =>
        rcases orderly before found with working | ⟨status, -⟩
        · simp [TaskEntry.Truthful, truthful.no_result working]
        · have payload := truthful.2
          rw [status] at payload
          simpa [TaskEntry.Truthful] using payload
    | progress message now working => exact truthful
    | canceled now working =>
        simp [TaskEntry.Truthful, TaskEntry.cancel, truthful.no_result working]

/-- What still works has no end time, and so never expires. -/
theorem TaskEntry.Truthful.not_expired (truthful : before.Truthful)
    (working : before.task.status = .working) (now : Nat) : before.expired now = false := by
  have unfinished : before.finishedAt = none := by
    have := truthful.1
    simpa [working] using this
  simp [TaskEntry.expired, unfinished]

theorem added_truthful (new : m.added call key = some after) : after.Truthful := by
  cases call with
  | create =>
      simp only [TaskManager.added] at new
      split at new
      · rw [Option.some.injEq] at new
        subst new
        simp [TaskEntry.Truthful, TaskManager.create]
      · simp at new
  | _ => simp [TaskManager.added] at new

end Entry

/-! ## Whole runs -/

section Lifecycle

variable {m m' earlier later : TaskManager ρ} {call : TaskCall ρ} {key : String}

/-- Every id in the table was drawn at an earlier value of the counter. -/
def TaskManager.Drawn (m : TaskManager ρ) : Prop :=
  ∀ key ∈ m.tasks, ∃ nanos seq, seq < m.counter ∧ key = generateTaskId nanos seq

theorem counter_apply (m : TaskManager ρ) (call : TaskCall ρ) :
    (m.apply call).counter = m.counter + if call.creates then 1 else 0 := by
  cases call with
  | create => rfl
  | cancel taskId now =>
      simp only [TaskManager.apply, TaskManager.cancel, TaskCall.creates]
      cases m.tasks.lookup taskId with
      | none => rfl
      | some entry => by_cases working : entry.task.status = .working <;> simp [working]
  | getTask | getResult | listTasks => rfl
  | setJoinHandle taskId | complete taskId | fail taskId | updateProgress taskId =>
      simp only [TaskManager.apply, TaskManager.setJoinHandle, TaskManager.complete,
        TaskManager.fail, TaskManager.updateProgress, TaskManager.modify, TaskCall.creates]
      cases m.tasks.lookup taskId <;> rfl

/-- A call adds an entry only under the id it draws. -/
theorem added_eq_some {entry : TaskEntry ρ} (new : m.added call key = some entry) :
    call.creates ∧ ∃ nanos, key = generateTaskId nanos m.counter := by
  cases call with
  | create statusMessage joinHandle cancellationToken nanos now =>
      simp only [TaskManager.added] at new
      split at new
      · rename_i drawn
        exact ⟨rfl, nanos, drawn⟩
      · simp at new
  | _ => simp [TaskManager.added] at new

/-- An entry after a call is a new one, or comes from the one before. -/
theorem lookup_apply_cases {after : TaskEntry ρ}
    (found : (m.apply call).tasks.lookup key = some after) :
    m.added call key = some after ∨
      ∃ before, m.tasks.lookup key = some before ∧ call.onEntry key before = some after := by
  rw [lookup_apply] at found
  cases new : m.added call key with
  | none =>
      rw [new, Option.none_or] at found
      exact .inr (Option.bind_eq_some_iff.mp found)
  | some entry =>
      rw [new, Option.some_or] at found
      exact .inl found

theorem TaskManager.Drawn.apply (drawn : m.Drawn) : (m.apply call).Drawn := by
  intro key mem
  obtain ⟨after, found⟩ := (Rows.mem_iff_lookup _ _).mp mem
  rw [counter_apply]
  rcases lookup_apply_cases found with new | ⟨before, old, -⟩
  · obtain ⟨creates, nanos, rfl⟩ := added_eq_some new
    exact ⟨nanos, m.counter, by simp [creates], rfl⟩
  · obtain ⟨nanos, seq, lt, rfl⟩ := drawn key ((Rows.mem_iff_lookup _ _).mpr ⟨before, old⟩)
    exact ⟨nanos, seq, by omega, rfl⟩

/-- An id that was drawn before is not drawn again, so its entry was there before. -/
theorem lookup_before {after : TaskEntry ρ} {nanos seq : Nat}
    (fits : call.creates → m.counter < 2 ^ 64) (lt : seq < m.counter)
    (found : (m.apply call).tasks.lookup (generateTaskId nanos seq) = some after) :
    ∃ before, m.tasks.lookup (generateTaskId nanos seq) = some before ∧
      call.onEntry (generateTaskId nanos seq) before = some after := by
  rcases lookup_apply_cases found with new | old
  · obtain ⟨creates, nanos', same⟩ := added_eq_some new
    have := fits creates
    have := generateTaskId_seq (by omega) (by omega) same
    omega
  · exact old

theorem consistent_of_truthful
    (truthful : ∀ key entry, m.tasks.lookup key = some entry → entry.Truthful) :
    m.Consistent where
  finished := fun key entry found => (truthful key entry found).1
  payload := fun key entry found => (truthful key entry found).2
  running := by
    intro key entry now found working
    rw [lookup_pruneExpired, found, Option.bind_some,
      (truthful key entry found).not_expired working now]
    rfl

theorem TaskManager.Consistent.truthful {entry : TaskEntry ρ} (consistent : m.Consistent)
    (found : m.tasks.lookup key = some entry) : entry.Truthful :=
  ⟨consistent.finished key entry found, consistent.payload key entry found⟩

theorem TaskManager.Consistent.apply (consistent : m.Consistent) (orderly : m.Orderly call) :
    (m.apply call).Consistent := by
  refine consistent_of_truthful fun key after found => ?_
  rcases lookup_apply_cases found with new | ⟨before, old, becomes⟩
  · exact added_truthful new
  · exact onEntry_truthful (consistent.truthful old) orderly old becomes

/-- `get_result` and `get_task` prune alike, and then look at one entry. -/
theorem TaskManager.Consistent.answers (consistent : m.Consistent) : m.AnswersCompleted := by
  intro key now
  simp only [TaskManager.getResult, TaskManager.getTask, lookup_pruneExpired]
  cases found : m.tasks.lookup key with
  | none => simp
  | some entry =>
      cases expired : entry.expired now with
      | true => simp [expired]
      | false => simpa [expired] using consistent.payload key entry found

theorem TaskManager.Lifecycle.refl (m : TaskManager ρ) : m.Lifecycle m := by
  intro key before after old new
  rw [old, Option.some.injEq] at new
  exact new ▸ .refl _

/-- **One more call** keeps the lifecycle between any earlier state and the last. -/
theorem TaskManager.Lifecycle.apply (life : earlier.Lifecycle m) (drawn : earlier.Drawn)
    (grown : earlier.counter ≤ m.counter) (orderly : m.Orderly call)
    (fits : call.creates → m.counter < 2 ^ 64) : earlier.Lifecycle (m.apply call) := by
  intro key before after old new
  obtain ⟨nanos, seq, lt, rfl⟩ := drawn key ((Rows.mem_iff_lookup _ _).mpr ⟨before, old⟩)
  obtain ⟨entry, found, becomes⟩ := lookup_before fits (by omega) new
  exact (life _ before entry old found).trans (onEntry_evolves orderly found becomes)

/-- Between the state at a cut of the run and a later one. -/
structure Since (earlier m : TaskManager ρ) : Prop where
  consistent : m.Consistent
  drawn : m.Drawn
  grown : earlier.counter ≤ m.counter
  life : earlier.Lifecycle m

theorem Since.step {call : TaskCall ρ} (since : Since earlier m) (drawn : earlier.Drawn)
    (orderly : m.Orderly call) (fits : call.creates → m.counter < 2 ^ 64) :
    Since earlier (m.apply call) where
  consistent := since.consistent.apply orderly
  drawn := since.drawn.apply
  grown := by
    rw [counter_apply]
    have := since.grown
    omega
  life := since.life.apply drawn since.grown orderly fits

theorem Since.refl (consistent : m.Consistent) (drawn : m.Drawn) : Since m m :=
  ⟨consistent, drawn, Nat.le_refl _, .refl m⟩

/-- What an orderly call needs besides: the counter has not wrapped. -/
def TaskManager.Admits (m : TaskManager ρ) (call : TaskCall ρ) : Prop :=
  m.Orderly call ∧ (call.creates → m.counter < 2 ^ 64)

theorem Since.run {calls : List (TaskCall ρ)} (since : Since earlier m) (drawn : earlier.Drawn)
    (admitted : EachStep TaskManager.step TaskManager.Admits m calls)
    (ran : exec TaskManager.step m calls = some later) : Since earlier later := by
  refine exec_invariant ?_ since admitted ran
  rintro m call _ since ⟨orderly, fits⟩ ⟨⟩
  exact since.step drawn orderly fits

/-- The counter stays in its word while fewer tasks than it counts are created. -/
theorem eachStep_fits {calls : List (TaskCall ρ)}
    (few : m.counter + calls.countP TaskCall.creates ≤ 2 ^ 64) :
    EachStep TaskManager.step (fun m call => call.creates → m.counter < 2 ^ 64) m calls := by
  induction calls generalizing m with
  | nil => trivial
  | cons call calls ih =>
      rw [List.countP_cons] at few
      refine ⟨fun creates => ?_, ?_⟩
      · simp only [creates, if_true] at few
        omega
      · rintro _ ⟨⟩
        apply ih
        rw [counter_apply]
        omega

theorem since_new : Since (.new : TaskManager ρ) .new :=
  .refl (consistent_of_truthful fun key entry found => by simp [TaskManager.new] at found)
    fun key mem => by simp [TaskManager.new] at mem

/-- Only an orderly call keeps the lifecycle from the state before it. -/
theorem orderly_of_lifecycle (life : m.Lifecycle (m.apply call)) : m.Orderly call := by
  cases call with
  | complete taskId result now =>
      intro entry found
      by_cases working : entry.task.status = .working
      · exact .inl working
      · obtain ⟨status, message, payload⟩ := (life taskId entry _ found
          (by rw [lookup_apply, found]; simp [TaskManager.added, TaskCall.onEntry]; rfl)).kept
          working
        exact .inr ⟨status.symm, message.symm, payload.symm⟩
  | fail taskId error now =>
      intro entry found
      by_cases working : entry.task.status = .working
      · exact .inl working
      · obtain ⟨status, message, -⟩ := (life taskId entry _ found
          (by rw [lookup_apply, found]; simp [TaskManager.added, TaskCall.onEntry]; rfl)).kept
          working
        exact .inr ⟨status.symm, message.symm⟩
  | _ => trivial

end Lifecycle

/-- **The task lifecycle.**  While the ids' counter does not wrap, a run keeps it, between
any two of its states and in every state, exactly when each `complete` and `fail` of the
run finds its task working, gone, or ended in the very same way. -/
theorem taskLifecycle_iff (calls : List (TaskCall ρ))
    (few : calls.countP TaskCall.creates ≤ 2 ^ 64) :
    LifecycleHolds calls ↔
      EachStep TaskManager.step TaskManager.Orderly .new calls := by
  constructor
  · intro holds
    refine eachStep_of_cuts fun past call future m split reached => ?_
    have := holds past [call] future m (m.apply call) (by simp [split]) reached rfl
    exact orderly_of_lifecycle this.1
  · intro orderly past between future earlier later split reached ran
    have admitted := orderly.and (eachStep_fits (m := .new) (by simpa [TaskManager.new] using few))
    rw [split] at admitted
    have before := since_new.run since_new.drawn admitted.append_left.append_left reached
    have after := (Since.refl before.consistent before.drawn).run before.drawn
      (admitted.append_left.append_right reached) ran
    exact ⟨after.life, after.consistent, after.consistent.answers⟩

end Manager

/-! ## Two runs -/

/-- The status a run leaves a task in. -/
def statusAfter (calls : List (TaskCall Nat)) (taskId : String) : Option TaskStatus :=
  (exec TaskManager.step .new calls).bind fun m =>
    (m.tasks.lookup taskId).map fun entry => entry.task.status

theorem statusAfter_eq_some {calls : List (TaskCall Nat)} {taskId : String} {status : TaskStatus}
    (settled : statusAfter calls taskId = some status) :
    ∃ m entry, exec TaskManager.step .new calls = some m ∧ m.tasks.lookup taskId = some entry ∧
      entry.task.status = status := by
  obtain ⟨m, ran, settled⟩ := Option.bind_eq_some_iff.mp settled
  obtain ⟨entry, found, rfl⟩ := Option.map_eq_some_iff.mp settled
  exact ⟨m, entry, ran, found, rfl⟩

/-- A fetch that is created and completed, and cancelled too late. -/
def fetchCalls : List (TaskCall Nat) :=
  [.create "fetching" none none 5 ⟨0, 0⟩, .complete (generateTaskId 5 0) 7 ⟨1, 1⟩,
    .cancel (generateTaskId 5 0) ⟨2, 2⟩, .getResult (generateTaskId 5 0) 3]

theorem taskLifecycle_iff_fetch :
    fetchCalls.countP TaskCall.creates ≤ 2 ^ 64 ∧ LifecycleHolds fetchCalls := by
  refine ⟨by decide, (taskLifecycle_iff fetchCalls (by decide)).mpr ?_⟩
  have created : statusAfter (fetchCalls.take 1) (generateTaskId 5 0) = some .working := by
    decide
  obtain ⟨m, entry, ⟨⟩, found, working⟩ := statusAfter_eq_some created
  refine .cons trivial rfl (.cons (fun entry' found' => .inl ?_) rfl
    (.cons trivial rfl (.cons trivial rfl trivial)))
  rw [found, Option.some.injEq] at found'
  exact found' ▸ working

/-- The worker finishes after the client has cancelled. -/
def lateCalls : List (TaskCall Nat) :=
  [.create "cloning" none none 5 ⟨0, 0⟩, .cancel (generateTaskId 5 0) ⟨1, 1⟩,
    .complete (generateTaskId 5 0) 7 ⟨2, 2⟩]

/-- **A cancelled task completes**: the client is told of both ends. -/
theorem cancelled_task_completes : ¬ LifecycleHolds lateCalls := by
  intro holds
  have cancelled : statusAfter (lateCalls.take 2) (generateTaskId 5 0) = some .cancelled := by
    decide
  have completed : statusAfter lateCalls (generateTaskId 5 0) = some .completed := by
    decide
  obtain ⟨earlier, before, ⟨⟩, old, ended⟩ := statusAfter_eq_some cancelled
  obtain ⟨later, after, ⟨⟩, new, status⟩ := statusAfter_eq_some completed
  have life := (holds (lateCalls.take 2) (lateCalls.drop 2) [] _ _ rfl rfl rfl).1
  have := ((life _ before after old new).kept (by rw [ended]; decide)).1
  rw [ended, status] at this
  cases this

end Ministr.Mcp
