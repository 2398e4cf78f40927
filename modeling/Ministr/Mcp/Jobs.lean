/-
# Mcp.Jobs — the indexer's job queue and its two backends

The query side enqueues jobs and the worker claims, reports on and finishes them.
`JobQueue` is the trait; `inMemory` keeps the jobs in a hash map, `sqlite` in a
table that holds the status both in a column and inside the job's blob.  Each
call is atomic: a write lock in one backend, one connection behind a mutex in
the other.

`QueueRun` is a queue with the calls it has seen, and `ContractHolds` what the
queue is for, said of the trait's own `get` and of the calls' answers.
-/

import Ministr.Theory.Rows
import Ministr.Theory.Run
import Ministr.Theory.Scan

namespace Ministr.Mcp

open Ministr.Theory

set_option autoImplicit false

/-! ## Records -/

/-- `JobTrigger`. -/
inductive JobTrigger where
  | manual
  | github (reference commit : String)
  | tenant (paths : List String) (cloneUrl : Option String)
  deriving DecidableEq, Repr

/-- `JobStatus`. -/
inductive JobStatus where
  | pending
  | running
  | completed
  | failed
  deriving DecidableEq, Repr

/-- `JobStatus::is_terminal`. -/
def JobStatus.isTerminal : JobStatus → Bool
  | completed | failed => true
  | pending | running => false

/-- `JobProgress`, with the values of its `Default`. -/
structure JobProgress where
  stage : String := ""
  totalFiles : Nat := 0
  processedFiles : Nat := 0
  currentFile : Option String := none
  sectionsDone : Nat := 0
  embeddingsTotal : Nat := 0
  embeddingsDone : Nat := 0
  deriving DecidableEq, Repr

/-- `Job`; a higher `priority` wins. -/
structure Job where
  id : String
  corpusId : String
  trigger : JobTrigger
  status : JobStatus
  progress : JobProgress
  createdAt : Nat
  updatedAt : Nat
  error : Option String
  priority : Int16
  deriving DecidableEq, Repr

/-- `JobQueueError`; JSON of a job never fails. -/
inductive JobQueueError where
  | backend (message : String)
  | notFound (jobId : String)
  deriving DecidableEq, Repr

/-- The record both backends enqueue. -/
def Job.new (id corpusId : String) (trigger : JobTrigger) (priority : Int16) (now : Nat) : Job where
  id := id
  corpusId := corpusId
  trigger := trigger
  status := .pending
  progress := {}
  createdAt := now
  updatedAt := now
  error := none
  priority := priority

/-- What `claim_next` makes of a job. -/
def Job.claimed (job : Job) (now : Nat) : Job :=
  { job with status := .running, updatedAt := now }

/-- What `update_progress` makes of a job. -/
def Job.progressed (job : Job) (progress : JobProgress) (now : Nat) : Job :=
  { job with progress := progress, updatedAt := now }

/-- What `finish` makes of a job. -/
def Job.finished (job : Job) (status : JobStatus) (error : Option String) (now : Nat) : Job :=
  { job with status := status, error := error, updatedAt := now }

/-- The trait `JobQueue`.  `now` is `epoch_now` inside the call, `id` the id that
`new_job_id` draws, and `order` the order in which a hash map is iterated. -/
structure JobQueue (σ : Type) where
  enqueue : σ → (id corpusId : String) → JobTrigger → Int16 → (now : Nat) →
    Except JobQueueError (σ × Job)
  get : σ → (jobId : String) → Option Job
  claimNext : σ → (order : List String) → (now : Nat) → σ × Option Job
  updateProgress : σ → (jobId : String) → JobProgress → (now : Nat) → Except JobQueueError σ
  finish : σ → (jobId : String) → JobStatus → Option String → (now : Nat) →
    Except JobQueueError σ

/-! ## In memory -/

namespace InMemory

/-- `jobs.values()`: the keys of `order` first, then the others. -/
def values (jobs : Rows String Job) (order : List String) : List Job :=
  (order.filter (· ∈ jobs) ++ jobs.keys.filter (· ∉ order)).filterMap jobs.lookup

/-- The order of the keys `(-j.priority, j.created_at)`; the negation is of an `i16`. -/
def sooner (a b : Job) : Bool :=
  decide (-a.priority < -b.priority ∨ (-a.priority = -b.priority ∧ a.createdAt < b.createdAt))

/-- `claim_next`. -/
def claimNext (jobs : Rows String Job) (order : List String) (now : Nat) :
    Rows String Job × Option Job :=
  let pending := (values jobs order).filter fun job => job.status = .pending
  match (scanBest sooner pending).map Job.id with
  | some id =>
      match jobs.lookup id with
      | some job => (jobs.insert id (job.claimed now), some (job.claimed now))
      | none => (jobs, none)
  | none => (jobs, none)

/-- `jobs.get_mut(job_id).ok_or_else(…)`, then a write to the job. -/
def rewrite (jobs : Rows String Job) (jobId : String) (write : Job → Job) :
    Except JobQueueError (Rows String Job) :=
  match jobs.lookup jobId with
  | some job => .ok (jobs.insert jobId (write job))
  | none => .error (.notFound jobId)

end InMemory

/-- `InMemoryJobQueue`. -/
def inMemory : JobQueue (Rows String Job) where
  enqueue jobs id corpusId trigger priority now :=
    let job := Job.new id corpusId trigger priority now
    .ok (jobs.insert job.id job, job)
  get jobs jobId := jobs.lookup jobId
  claimNext := InMemory.claimNext
  updateProgress jobs jobId progress now :=
    InMemory.rewrite jobs jobId fun job => job.progressed progress now
  finish jobs jobId status error now :=
    InMemory.rewrite jobs jobId fun job => job.finished status error now

/-! ## SQLite -/

namespace Sqlite

/-- `u64::cast_signed`. -/
def castSigned (n : Nat) : Int := (n : Int).bmod (2 ^ 64)

/-- `status_str`. -/
def statusStr : JobStatus → String
  | .pending => "pending"
  | .running => "running"
  | .completed => "completed"
  | .failed => "failed"

/-- A row of `indexer_jobs`; `data` is the job that its blob encodes. -/
structure JobRow where
  id : String
  corpusId : String
  status : String
  createdAt : Int
  updatedAt : Int
  data : Job
  deriving DecidableEq, Repr

/-- The table in the order of its row ids: rows are appended and never deleted. -/
abbrev Table := List JobRow

/-- `INSERT INTO indexer_jobs`; the primary key refuses an id that is there. -/
def insert (rows : Table) (row : JobRow) : Except JobQueueError Table :=
  if row.id ∈ rows.map JobRow.id then
    .error (.backend "enqueue: UNIQUE constraint failed: indexer_jobs.id")
  else .ok (rows ++ [row])

/-- `SELECT data FROM indexer_jobs WHERE id = ?`. -/
def select (rows : Table) (jobId : String) : Option Job :=
  (rows.find? fun row => row.id = jobId).map JobRow.data

/-- `UPDATE indexer_jobs SET … WHERE id = ?`. -/
def update (rows : Table) (jobId : String) (set : JobRow → JobRow) : Table :=
  rows.map fun row => if row.id = jobId then set row else row

/-- `SET status = ?, updated_at = ?, data = ?`. -/
def JobRow.setStatus (row : JobRow) (job : Job) : JobRow :=
  { row with
    status := statusStr job.status, updatedAt := castSigned job.updatedAt, data := job }

/-- `SET updated_at = ?, data = ?`: the status column stays. -/
def JobRow.setData (row : JobRow) (job : Job) : JobRow :=
  { row with updatedAt := castSigned job.updatedAt, data := job }

/-- `SELECT … WHERE status = 'pending' ORDER BY created_at LIMIT 1`, which the index on
`(status, created_at)` answers in the order of its entries, by row id within a second. -/
def oldestPending (rows : Table) : Option JobRow :=
  scanBest (fun a b => decide (a.createdAt < b.createdAt))
    (rows.filter fun row => row.status = "pending")

/-- `claim_next`. -/
def claimNext (rows : Table) (now : Nat) : Table × Option Job :=
  match oldestPending rows with
  | none => (rows, none)
  | some row =>
      let job := row.data.claimed now
      (update rows row.id fun row => row.setStatus job, some job)

/-- The blob is read, changed and written back; without one the job is not found. -/
def rewrite (rows : Table) (jobId : String) (set : JobRow → Job → JobRow) (write : Job → Job) :
    Except JobQueueError Table :=
  match select rows jobId with
  | some job => .ok (update rows jobId fun row => set row (write job))
  | none => .error (.notFound jobId)

end Sqlite

open Sqlite in
/-- `SqliteJobQueue`. -/
def sqlite : JobQueue Sqlite.Table where
  enqueue rows id corpusId trigger priority now :=
    let job := Job.new id corpusId trigger priority now
    (insert rows
      { id := job.id, corpusId := job.corpusId, status := statusStr job.status
        createdAt := castSigned job.createdAt, updatedAt := castSigned job.updatedAt
        data := job }).map fun rows => (rows, job)
  get := select
  claimNext rows _ now := claimNext rows now
  updateProgress rows jobId progress now :=
    rewrite rows jobId JobRow.setData fun job => job.progressed progress now
  finish rows jobId status error now :=
    rewrite rows jobId JobRow.setStatus fun job => job.finished status error now

/-! ## Runs -/

/-- A call of the queue. -/
inductive JobCall where
  | enqueue (id corpusId : String) (trigger : JobTrigger) (priority : Int16) (now : Nat)
  | get (jobId : String)
  | claimNext (order : List String) (now : Nat)
  | updateProgress (jobId : String) (progress : JobProgress) (now : Nat)
  | finish (jobId : String) (status : JobStatus) (error : Option String) (now : Nat)
  deriving DecidableEq, Repr

/-- A queue, the last time read, and the ids it has been given and has handed out. -/
structure QueueRun (σ : Type) where
  queue : σ
  clock : Nat
  enqueued : List String
  claims : List String

section Runs

variable {σ : Type} (Q : JobQueue σ)

def QueueRun.start (queue : σ) : QueueRun σ where
  queue := queue
  clock := 0
  enqueued := []
  claims := []

/-- The queue after a write that may not have found its job. -/
def QueueRun.settle (s : QueueRun σ) (now : Nat) : Except JobQueueError σ → QueueRun σ
  | .ok queue => { s with queue := queue, clock := now }
  | .error _ => { s with clock := now }

/-- One call; a call that fails changes nothing. -/
def QueueRun.apply (s : QueueRun σ) : JobCall → QueueRun σ
  | .enqueue id corpusId trigger priority now =>
      match Q.enqueue s.queue id corpusId trigger priority now with
      | .ok (queue, job) =>
          { s with queue := queue, clock := now, enqueued := s.enqueued ++ [job.id] }
      | .error _ => { s with clock := now }
  | .get _ => s
  | .claimNext order now =>
      let (queue, answer) := Q.claimNext s.queue order now
      { s with
        queue := queue, clock := now, claims := s.claims ++ (answer.map Job.id).toList }
  | .updateProgress jobId progress now =>
      s.settle now (Q.updateProgress s.queue jobId progress now)
  | .finish jobId status error now => s.settle now (Q.finish s.queue jobId status error now)

def QueueRun.step (s : QueueRun σ) (call : JobCall) : Option (QueueRun σ) :=
  some (s.apply Q call)

/-- What the queue is promised: ids are new, the clock of whole seconds does not run
backwards and fits the `i64` of the system's time, and only claimed jobs are finished. -/
def QueueRun.Legal (s : QueueRun σ) : JobCall → Prop
  | .enqueue id _ _ _ now => id ∉ s.enqueued ∧ s.clock ≤ now ∧ now < 2 ^ 63
  | .get _ => True
  | .claimNext _ now => s.clock ≤ now ∧ now < 2 ^ 63
  | .updateProgress _ _ now => s.clock ≤ now ∧ now < 2 ^ 63
  | .finish jobId _ _ now => jobId ∈ s.claims ∧ s.clock ≤ now ∧ now < 2 ^ 63

instance (s : QueueRun σ) : (call : JobCall) → Decidable (s.Legal call)
  | .enqueue id _ _ _ now =>
      inferInstanceAs (Decidable (id ∉ s.enqueued ∧ s.clock ≤ now ∧ now < 2 ^ 63))
  | .get _ => inferInstanceAs (Decidable True)
  | .claimNext _ now => inferInstanceAs (Decidable (s.clock ≤ now ∧ now < 2 ^ 63))
  | .updateProgress _ _ now => inferInstanceAs (Decidable (s.clock ≤ now ∧ now < 2 ^ 63))
  | .finish jobId _ _ now =>
      inferInstanceAs (Decidable (jobId ∈ s.claims ∧ s.clock ≤ now ∧ now < 2 ^ 63))

/-! ## The contract -/

/-- The jobs of the queue, as `get` tells them, in the order they were enqueued. -/
def QueueRun.jobs (s : QueueRun σ) : List Job := s.enqueued.filterMap (Q.get s.queue)

/-- The earliest of the pending jobs of highest rank. -/
def First (rank : Job → Int) (jobs : List Job) (job : Job) : Prop :=
  job.status = .pending ∧ ∃ before after, jobs = before ++ job :: after ∧
    (∀ other ∈ before, other.status = .pending → rank other < rank job) ∧
    (∀ other ∈ after, other.status = .pending → rank other ≤ rank job)

/-- What one call may do. -/
def QueueRun.Fulfils (rank : Job → Int) (s : QueueRun σ) (call : JobCall) (t : QueueRun σ) :
    Prop :=
  match call with
  | .claimNext _ _ =>
      (t.claims = s.claims ↔ ∀ job ∈ s.jobs Q, job.status ≠ .pending) ∧
      (∀ id, t.claims = s.claims ++ [id] → ∃ job, First rank (s.jobs Q) job ∧ job.id = id)
  | .updateProgress .. =>
      ∀ id, (Q.get t.queue id).map Job.status = (Q.get s.queue id).map Job.status
  | _ => True

/-- A finished job keeps its status. -/
def QueueRun.TerminalKept (earlier later : QueueRun σ) : Prop :=
  ∀ id job, Q.get earlier.queue id = some job → job.status.isTerminal →
    (Q.get later.queue id).map Job.status = some job.status

/-- The contract of a whole run: between any two of its states, in each of its states,
and of each of its calls. -/
def ContractHolds (rank : Job → Int) (start : QueueRun σ) (calls : List JobCall) : Prop :=
  ∀ past between future earlier later, calls = past ++ between ++ future →
    exec (QueueRun.step Q) start past = some earlier →
    exec (QueueRun.step Q) earlier between = some later →
    later.claims.Nodup ∧ QueueRun.TerminalKept Q earlier later ∧
    ∀ call, between = [call] → QueueRun.Fulfils Q rank earlier call later

end Runs

end Ministr.Mcp
