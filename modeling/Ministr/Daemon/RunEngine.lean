/-
# Daemon.RunEngine — the records of commands that run at once

`start` checks the directory, draws an id, spawns the command and inserts its row.  A supervisor
then waits for the command to end, for a cancel or for the time to run out, drains the output,
writes the outcome and only after that forgets the run.  The starts, outputs, cancels and
supervisors of many runs interleave, a write may fail, and the daemon may die at any point and come
up again with its counter at zero and the rows as they are.

A record is that of a start in an allowed directory, and it is finished with all that the command
put out, unless the run is still at work, its last write failed or the daemon died
(`records_spec`).  So is the record of each run that has left the map of running ones, which is
what `run` waits for (`run_barrier`).  What is finished stays as it is (`finished_kept`).
-/
import Ministr.Daemon.Capture
import Ministr.Theory.Decimal
import Ministr.Theory.Rows
import Ministr.Theory.Run

namespace Ministr.Daemon.RunEngine

open Ministr.Theory Ministr.Daemon.Capture

set_option autoImplicit false

inductive RunStatus where
  | running | exited | killed | timedOut
  deriving DecidableEq, Repr

def RunStatus.asStr : RunStatus → String
  | .running => "running"
  | .exited => "exited"
  | .killed => "killed"
  | .timedOut => "timed_out"

def RunStatus.parse (s : String) : RunStatus :=
  if s = "exited" then .exited
  else if s = "killed" then .killed
  else if s = "timed_out" then .timedOut
  else .running

/-- What the store writes of a status is read back. -/
@[simp] theorem RunStatus.parse_asStr (status : RunStatus) : parse status.asStr = status := by
  cases status <;> decide

/-- A request, without its timeout. -/
structure RunRequest where
  command : String
  cwd : String
  sessionId : Option String
  corpusId : Option String
  deriving DecidableEq, Repr

structure RunRecord where
  runId : String
  command : String
  cwd : String
  sessionId : Option String
  corpusId : Option String
  envFingerprint : String
  startedAtMs : Nat
  finishedAtMs : Option Nat
  exitCode : Option Int
  status : RunStatus
  log : String
  truncated : Bool
  bytesTotal : Nat
  deriving DecidableEq, Repr

inductive RunError where
  | policyDenied (text : String)
  deriving DecidableEq, Repr

/-! ## Where a command may run -/

/-- `canonicalize`: the names on the way from the root, or the text of an error. -/
abbrev Canonicalize := String → Except String (List String)

def pathText (canon : List String) : String := "/" ++ "/".intercalate canon

/-- `check_cwd`. -/
def checkCwd (canonicalize : Canonicalize) (cwd : String) (roots : List String) :
    Except RunError (List String) :=
  match canonicalize cwd with
  | .error e => .error (.policyDenied (cwd ++ ": " ++ e))
  | .ok canon =>
      let permitted := roots.any fun root =>
        match canonicalize root with
        | .error _ => false
        | .ok rootCanon => rootCanon.isPrefixOf canon
      if permitted then .ok canon
      else .error (.policyDenied (pathText canon ++ " is outside every allowed root"))

/-- `exec_engine_with_fresh_roots`: the registered paths are added to those already allowed. -/
def freshRoots (roots registered : List String) : List String :=
  registered.foldl (fun roots path => if path ∈ roots then roots else roots ++ [path]) roots

/-! ## The engine -/

/-- `run-<ms>-<seq>` -/
def runId (ms seq : Nat) : String := "run-" ++ toString ms ++ "-" ++ toString seq

/-- The record that `start` inserts. -/
def newRecord (runId : String) (req : RunRequest) (cwd : List String) (env : String)
    (startedAtMs : Nat) : RunRecord where
  runId := runId
  command := req.command
  cwd := pathText cwd
  sessionId := req.sessionId
  corpusId := req.corpusId
  envFingerprint := env
  startedAtMs := startedAtMs
  finishedAtMs := none
  exitCode := none
  status := .running
  log := ""
  truncated := false
  bytesTotal := 0

/-- `store::Finish`. -/
structure Finish where
  status : RunStatus
  exitCode : Option Int
  finishedAtMs : Nat
  log : String
  truncated : Bool
  bytesTotal : Nat
  deriving DecidableEq, Repr

/-- Where a start and then its supervisor are. -/
inductive Phase where
  | spawned (record : RunRecord)
  | recorded
  | waiting
  | draining (status : RunStatus) (exitCode : Option Int)
  | rendered (finished : Finish)
  | persisted
  deriving DecidableEq, Repr

/-- A run of the engine; the readers and the map of running ones share its buffer. -/
structure Task where
  phase : Phase
  capture : CaptureBuf
  deriving DecidableEq, Repr

structure RunEngineConfig where
  headCap : Nat
  tailCap : Nat
  deriving DecidableEq, Repr

/-- The daemon and its store.  A running entry is its cancellation token. -/
structure EngineState where
  roots : List String
  seq : Nat
  tasks : Rows String Task
  running : Rows String Bool
  rows : Rows String RunRecord

def EngineState.fresh : EngineState := ⟨[], 0, ∅, ∅, ∅⟩

inductive RunEvent where
  | freshRoots (registered : List String)
  | start (req : RunRequest) (canonicalize : Canonicalize) (ms startedAtMs : Nat) (env : String)
      (spawns : Bool)
  | insertRunning (id : String) (stores : Bool)
  | register (id : String)
  | output (id : String) (chunk : List UInt8)
  | cancel (id : String)
  | exits (id : String) (code : Option Int)
  | cancelled (id : String)
  | timesOut (id : String)
  | drained (id : String) (ms : Nat)
  | finish (id : String) (stores : Bool)
  | forget (id : String)
  | dies

/-- `insert_running`, on a row that is not there yet. -/
def stored (record : RunRecord) : RunRecord :=
  { record with status := .parse record.status.asStr }

/-- `store::finish`; the store holds at most `i64::MAX`. -/
def finishRow (f : Finish) (row : RunRecord) : RunRecord :=
  { row with
    finishedAtMs := some f.finishedAtMs
    exitCode := f.exitCode
    status := .parse f.status.asStr
    log := f.log
    truncated := f.truncated
    bytesTotal := min f.bytesTotal 9223372036854775807 }

namespace EngineState

variable (s : EngineState)

/-- A run goes on to its next phase. -/
def goes (id : String) (task : Task) : EngineState := { s with tasks := s.tasks.insert id task }

/-- `start`, up to the spawn. -/
def start (config : RunEngineConfig) (req : RunRequest) (canonicalize : Canonicalize)
    (ms startedAtMs : Nat) (env : String) (spawns : Bool) : EngineState :=
  match checkCwd canonicalize req.cwd s.roots with
  | .error _ => s
  | .ok cwd =>
      let id := runId ms s.seq
      let s := { s with seq := s.seq + 1 }
      if spawns then
        s.goes id ⟨.spawned (newRecord id req cwd env startedAtMs),
          CaptureBuf.new config.headCap config.tailCap⟩
      else s

/-- The supervisor stops waiting. -/
def stops (id : String) (status : RunStatus) (exitCode : Option Int) : Option EngineState :=
  match s.tasks.lookup id with
  | some ⟨.waiting, capture⟩ => some (s.goes id ⟨.draining status exitCode, capture⟩)
  | _ => none

/-- `live_snapshot`. -/
def liveSnapshot (id : String) : Option (String × Bool × Nat) :=
  (s.running.lookup id).bind fun _ => (s.tasks.lookup id).map fun task =>
    (task.capture.render.1, task.capture.render.2, task.capture.total)

/-- `cancel`: whether the run was active. -/
def cancel (id : String) : EngineState × Bool :=
  if id ∈ s.running then ({ s with running := s.running.insert id true }, true) else (s, false)

end EngineState

section Step

variable (config : RunEngineConfig)

/-- One step of a start, of a reader, of a supervisor or of a caller, or the end of the daemon. -/
def step (s : EngineState) : RunEvent → Option EngineState
  | .freshRoots registered => some { s with roots := freshRoots s.roots registered }
  | .start req canonicalize ms startedAtMs env spawns =>
      some (s.start config req canonicalize ms startedAtMs env spawns)
  | .insertRunning id stores =>
      match s.tasks.lookup id with
      | some ⟨.spawned record, capture⟩ =>
          if stores = true ∧ id ∉ s.rows then
            some { s.goes id ⟨.recorded, capture⟩ with rows := s.rows.insert id (stored record) }
          else some { s with tasks := s.tasks.erase id }
      | _ => none
  | .register id =>
      match s.tasks.lookup id with
      | some ⟨.recorded, capture⟩ =>
          some { s.goes id ⟨.waiting, capture⟩ with running := s.running.insert id false }
      | _ => none
  | .output id chunk =>
      match s.tasks.lookup id with
      | some ⟨.waiting, capture⟩ => some (s.goes id ⟨.waiting, capture.push chunk⟩)
      | some ⟨.draining status code, capture⟩ =>
          some (s.goes id ⟨.draining status code, capture.push chunk⟩)
      | _ => none
  | .cancel id => some (s.cancel id).1
  | .exits id code => s.stops id .exited code
  | .cancelled id => if s.running.lookup id = some true then s.stops id .killed none else none
  | .timesOut id => s.stops id .timedOut none
  | .drained id ms =>
      match s.tasks.lookup id with
      | some ⟨.draining status code, capture⟩ =>
          some (s.goes id
            ⟨.rendered ⟨status, code, ms, capture.render.1, capture.render.2, capture.total⟩,
              capture⟩)
      | _ => none
  | .finish id stores =>
      match s.tasks.lookup id with
      | some ⟨.rendered f, capture⟩ =>
          let rows := if stores then
              match s.rows.lookup id with
              | some row => s.rows.insert id (finishRow f row)
              | none => s.rows
            else s.rows
          some { s.goes id ⟨.persisted, capture⟩ with rows := rows }
      | _ => none
  | .forget id =>
      match s.tasks.lookup id with
      | some ⟨.persisted, _⟩ =>
          some { s with tasks := s.tasks.erase id, running := s.running.erase id }
      | _ => none
  | .dies => some { EngineState.fresh with rows := s.rows }

end Step

/-! ## What a record says -/

section Spec

variable (config : RunEngineConfig) (es : List RunEvent) (id : String)

/-- What a command has put out. -/
def outputs : List (List UInt8) :=
  es.filterMap fun
    | .output other chunk => if other = id then some chunk else none
    | _ => none

/-- The buffer that has taken it all in. -/
def captured : CaptureBuf :=
  (CaptureBuf.new config.headCap config.tailCap).pushes (outputs es id)

def RunRecord.unfinished (row : RunRecord) : RunRecord :=
  { row with
    finishedAtMs := none, exitCode := none, status := .running, log := "", truncated := false
    bytesTotal := 0 }

/-- A record is that of a start in a directory under a root that was registered before. -/
def Started (row : RunRecord) : Prop :=
  ∃ before req canonicalize ms startedAtMs env after n cwd,
    es = before ++ .start req canonicalize ms startedAtMs env true :: after ∧
    id = runId ms n ∧ row.unfinished = newRecord id req cwd env startedAtMs ∧
    canonicalize req.cwd = .ok cwd ∧
    ∃ registered root rootCanon, .freshRoots registered ∈ before ∧ root ∈ registered ∧
      canonicalize root = .ok rootCanon ∧ rootCanon <+: cwd

/-- How a run has ended. -/
inductive Ended : RunStatus → Option Int → Prop where
  | exited {code : Option Int} (exits : .exits id code ∈ es) : Ended .exited code
  | killed (asked : .cancel id ∈ es) : Ended .killed none
  | timedOut (late : .timesOut id ∈ es) : Ended .timedOut none

/-- A finished record has how the command ended and all that it put out. -/
structure Finished (row : RunRecord) : Prop where
  ended : Ended es id row.status row.exitCode
  log : (row.log, row.truncated) = (captured config es id).render
  bytes : row.bytesTotal = min (outputs es id).flatten.length 9223372036854775807
  time : ∃ ms, .drained id ms ∈ es ∧ row.finishedAtMs = some ms

/-- A record that no one will write again. -/
def Settled (row : RunRecord) : Prop :=
  Finished config es id row ∨
    row = row.unfinished ∧ (.finish id false ∈ es ∨ .dies ∈ es)

/-- Nothing was read of a run, and it was not among the running ones. -/
def Quiet : Prop := ∀ e ∈ es, e ≠ .register id ∧ ∀ chunk, e ≠ .output id chunk

/-- What the row, the task and the running entry of one run can be, and what they then have. -/
inductive View : Option RunRecord → Option Task → Option Bool → Prop where
  | absent (quiet : Quiet es id) : View none none none
  | spawned {record : RunRecord} {capture : CaptureBuf} (quiet : Quiet es id)
      (isNew : capture = CaptureBuf.new config.headCap config.tailCap)
      (started : Started es id record) (open_ : record = record.unfinished) :
      View none (some ⟨.spawned record, capture⟩) none
  | again {row record : RunRecord} {capture : CaptureBuf} (started : Started es id row)
      (settled : Settled config es id row) :
      View (some row) (some ⟨.spawned record, capture⟩) none
  | recorded {row : RunRecord} {capture : CaptureBuf} (quiet : Quiet es id)
      (isNew : capture = CaptureBuf.new config.headCap config.tailCap)
      (started : Started es id row) (open_ : row = row.unfinished) :
      View (some row) (some ⟨.recorded, capture⟩) none
  | waiting {row : RunRecord} {capture : CaptureBuf} {flag : Bool}
      (all : capture = captured config es id) (started : Started es id row)
      (open_ : row = row.unfinished) (asked : flag = true → .cancel id ∈ es) :
      View (some row) (some ⟨.waiting, capture⟩) (some flag)
  | draining {row : RunRecord} {capture : CaptureBuf} {flag : Bool} {status : RunStatus}
      {code : Option Int} (all : capture = captured config es id) (started : Started es id row)
      (open_ : row = row.unfinished) (asked : flag = true → .cancel id ∈ es)
      (ended : Ended es id status code) :
      View (some row) (some ⟨.draining status code, capture⟩) (some flag)
  | rendered {row : RunRecord} {capture : CaptureBuf} {flag : Bool} {status : RunStatus}
      {code : Option Int} {ms : Nat} (all : capture = captured config es id)
      (started : Started es id row) (open_ : row = row.unfinished)
      (asked : flag = true → .cancel id ∈ es) (ended : Ended es id status code)
      (time : .drained id ms ∈ es) :
      View (some row) (some ⟨.rendered
        ⟨status, code, ms, capture.render.1, capture.render.2, capture.total⟩, capture⟩) (some flag)
  | persisted {row : RunRecord} {capture : CaptureBuf} {flag : Bool} (started : Started es id row)
      (all : capture = captured config es id) (settled : Settled config es id row)
      (asked : flag = true → .cancel id ∈ es) :
      View (some row) (some ⟨.persisted, capture⟩) (some flag)
  | settled {row : RunRecord} (started : Started es id row) (settled : Settled config es id row) :
      View (some row) none none

/-- The view of each run, the ids that are in use, and the roots. -/
structure Inv (s : EngineState) : Prop where
  views : ∀ id, View config es id (s.rows.lookup id) (s.tasks.lookup id) (s.running.lookup id)
  drawn : ∀ id ∈ s.tasks, ∃ ms n, id = runId ms n ∧ n < s.seq
  roots : ∀ root ∈ s.roots, ∃ registered, .freshRoots registered ∈ es ∧ root ∈ registered

end Spec

/-! ## Ids -/

theorem runId_injective {ms ms' n n' : Nat} (same : runId ms n = runId ms' n') : n = n' := by
  have digit : ∀ (n : Nat), '-' ∉ (toString n).toList := fun n mem => by
    rw [Nat.toString_eq_repr, Nat.toList_repr] at mem
    have isDigit := Nat.isDigit_of_mem_toDigits (by decide) (by decide) mem
    revert isDigit
    decide
  have texts := congrArg String.toList same
  simp only [runId, String.toList_append, List.append_assoc, List.append_cancel_left_eq] at texts
  have tails : (toString n).toList = (toString n').toList := by
    have marked : (toString ms).toList ++ '-' :: (toString n).toList =
        (toString ms').toList ++ '-' :: (toString n').toList := texts
    exact ((List.append_cons_inj_of_notMem (digit ms) (digit n)).mp marked).2.2
  rw [Nat.toString_eq_repr, Nat.toString_eq_repr, Nat.toList_repr, Nat.toList_repr] at tails
  have read := congrArg (fun digits => Nat.ofDigitChars 10 digits 0) tails
  simpa only [Nat.ofDigitChars_ten_toDigits] using read

/-! ## What later steps leave as it is -/

section Later

variable {config : RunEngineConfig} {es : List RunEvent} {id : String} {row : RunRecord}
  (e : RunEvent)

theorem outputs_concat (other : ∀ chunk, e ≠ .output id chunk) :
    outputs (es ++ [e]) id = outputs es id := by
  rw [outputs, List.filterMap_append, List.filterMap_cons]
  cases e with
  | output other' chunk =>
      have apart : other' ≠ id := fun same => other chunk (by rw [same])
      simp [outputs, apart]
  | _ => simp [outputs]

theorem captured_concat (other : ∀ chunk, e ≠ .output id chunk) :
    captured config (es ++ [e]) id = captured config es id := by
  rw [captured, captured, outputs_concat e other]

/-- One more chunk. -/
theorem captured_output (chunk : List UInt8) :
    captured config (es ++ [.output id chunk]) id = (captured config es id).push chunk := by
  rw [captured, captured, outputs, List.filterMap_append]
  simp [outputs, CaptureBuf.pushes]

theorem Started.later (started : Started es id row) : Started (es ++ [e]) id row := by
  obtain ⟨before, req, canonicalize, ms, startedAtMs, env, after, n, cwd, rfl, rest⟩ := started
  exact ⟨before, req, canonicalize, ms, startedAtMs, env, after ++ [e], n, cwd, by simp, rest⟩

theorem Ended.later {status : RunStatus} {code : Option Int} (ended : Ended es id status code) :
    Ended (es ++ [e]) id status code := by
  cases ended with
  | exited exits => exact .exited (List.mem_append_left _ exits)
  | killed asked => exact .killed (List.mem_append_left _ asked)
  | timedOut late => exact .timedOut (List.mem_append_left _ late)

theorem Settled.later (other : ∀ chunk, e ≠ .output id chunk)
    (settled : Settled config es id row) : Settled config (es ++ [e]) id row := by
  rcases settled with finished | ⟨open_, failed⟩
  · obtain ⟨ms, drained, time⟩ := finished.time
    refine .inl ⟨finished.ended.later e, ?_, ?_, ms, List.mem_append_left _ drained, time⟩
    · rw [captured_concat e other]
      exact finished.log
    · rw [outputs_concat e other]
      exact finished.bytes
  · exact .inr ⟨open_, failed.imp (List.mem_append_left _) (List.mem_append_left _)⟩

theorem Quiet.later (other : ∀ chunk, e ≠ .output id chunk) (away : e ≠ .register id)
    (quiet : Quiet es id) : Quiet (es ++ [e]) id := fun e' mem => by
  rcases List.mem_append.mp mem with old | last
  · exact quiet e' old
  · rw [List.mem_singleton.mp last]
    exact ⟨away, other⟩

/-- Nothing has come yet of a run that nothing was read of. -/
theorem Quiet.captured (quiet : Quiet es id) :
    captured config es id = CaptureBuf.new config.headCap config.tailCap := by
  have none : outputs es id = [] := by
    rw [outputs, List.filterMap_eq_nil_iff]
    intro e mem
    cases e with
    | output other chunk =>
        have apart : other ≠ id := fun same => (quiet _ mem).2 chunk (by rw [same])
        simp [apart]
    | _ => rfl
  rw [RunEngine.captured, none]
  rfl

/-- A step that is not about a run leaves what is known of it. -/
theorem View.later {r : Option RunRecord} {t : Option Task} {b : Option Bool}
    (other : ∀ chunk, e ≠ .output id chunk) (away : e ≠ .register id)
    (view : View config es id r t b) : View config (es ++ [e]) id r t b := by
  have all : captured config (es ++ [e]) id = captured config es id := captured_concat e other
  cases view with
  | absent quiet => exact .absent (quiet.later e other away)
  | spawned quiet isNew started open_ =>
      exact .spawned (quiet.later e other away) isNew (started.later e) open_
  | again started settled => exact .again (started.later e) (settled.later e other)
  | recorded quiet isNew started open_ =>
      exact .recorded (quiet.later e other away) isNew (started.later e) open_
  | waiting same started open_ asked =>
      exact .waiting (same.trans all.symm) (started.later e) open_ fun flag =>
        List.mem_append_left _ (asked flag)
  | draining same started open_ asked ended =>
      exact .draining (same.trans all.symm) (started.later e) open_
        (fun flag => List.mem_append_left _ (asked flag)) (ended.later e)
  | rendered same started open_ asked ended time =>
      exact .rendered (same.trans all.symm) (started.later e) open_
        (fun flag => List.mem_append_left _ (asked flag)) (ended.later e)
        (List.mem_append_left _ time)
  | persisted started same settled asked =>
      exact .persisted (started.later e) (same.trans all.symm) (settled.later e other) fun flag =>
        List.mem_append_left _ (asked flag)
  | settled started settled => exact .settled (started.later e) (settled.later e other)

end Later

/-! ## Steps -/

section Steps

variable {config : RunEngineConfig} {es : List RunEvent} {s t : EngineState} {e : RunEvent}
  {id : String}

/-- The step is about this run alone. -/
def RunEvent.About (e : RunEvent) (id : String) : Prop :=
  ∀ other, other ≠ id → e ≠ .register other ∧ ∀ chunk, e ≠ .output other chunk

/-- What a step about one run changes. -/
structure Moves (s t : EngineState) (id : String) : Prop where
  rows : ∀ other, other ≠ id → t.rows.lookup other = s.rows.lookup other
  tasks : ∀ other, other ≠ id → t.tasks.lookup other = s.tasks.lookup other
  running : ∀ other, other ≠ id → t.running.lookup other = s.running.lookup other
  inUse : id ∈ t.tasks → id ∈ s.tasks
  seq : t.seq = s.seq
  roots : t.roots = s.roots

theorem Inv.moves (inv : Inv config es s) (moves : Moves s t id) (about : e.About id)
    (view : View config (es ++ [e]) id (t.rows.lookup id) (t.tasks.lookup id)
      (t.running.lookup id)) : Inv config (es ++ [e]) t where
  views other := by
    by_cases here : other = id
    · rw [here]
      exact view
    · rw [moves.rows other here, moves.tasks other here, moves.running other here]
      exact (inv.views other).later e (about other here).2 (about other here).1
  drawn other mem := by
    rw [moves.seq]
    by_cases here : other = id
    · subst here
      exact inv.drawn other (moves.inUse mem)
    · refine inv.drawn other ?_
      rw [← AList.lookup_isSome] at mem ⊢
      rwa [← moves.tasks other here]
  roots root mem := by
    rw [moves.roots] at mem
    obtain ⟨registered, refreshed, isIn⟩ := inv.roots root mem
    exact ⟨registered, List.mem_append_left _ refreshed, isIn⟩

theorem mem_of_lookup {task : Task} (found : s.tasks.lookup id = some task) : id ∈ s.tasks := by
  rw [← AList.lookup_isSome, found]
  rfl

/-- The run goes on; rows and running entries of others stay. -/
theorem moves_goes {rows : Rows String RunRecord} {running : Rows String Bool} {task : Task}
    (inUse : id ∈ s.tasks)
    (keptRows : ∀ other, other ≠ id → rows.lookup other = s.rows.lookup other)
    (keptRunning : ∀ other, other ≠ id → running.lookup other = s.running.lookup other) :
    Moves s { s.goes id task with rows := rows, running := running } id where
  rows := keptRows
  tasks _ away := AList.lookup_insert_ne away
  running := keptRunning
  inUse _ := inUse
  seq := rfl
  roots := rfl

/-- The run is over; its running entry may go too. -/
theorem moves_erase {running : Rows String Bool}
    (keptRunning : ∀ other, other ≠ id → running.lookup other = s.running.lookup other) :
    Moves s { s with tasks := s.tasks.erase id, running := running } id where
  rows _ _ := rfl
  tasks _ away := AList.lookup_erase_ne away
  running := keptRunning
  inUse mem := (AList.mem_erase.mp mem).2
  seq := rfl
  roots := rfl

theorem about_of (here : ∀ other, other ≠ id → e ≠ .register other)
    (quiet : ∀ other chunk, e ≠ .output other chunk) : e.About id :=
  fun other away => ⟨here other away, quiet other⟩

theorem Inv.insertRunning {stores : Bool} (inv : Inv config es s)
    (taken : step config s (.insertRunning id stores) = some t) :
    Inv config (es ++ [.insertRunning id stores]) t := by
  have view := inv.views id
  simp only [step] at taken
  split at taken
  · rename_i record capture found
    rw [found] at view
    have about : (RunEvent.insertRunning id stores).About id :=
      about_of (fun _ _ => by simp) (fun _ _ => by simp)
    split at taken
    · rename_i free
      obtain rfl := Option.some.inj taken
      have absent : s.rows.lookup id = none := AList.lookup_eq_none.mpr free.2
      have idle : s.running.lookup id = none := by
        generalize s.running.lookup id = flag at view
        rw [absent] at view
        cases view
        rfl
      refine inv.moves (moves_goes (mem_of_lookup found)
        (fun other away => AList.lookup_insert_ne away) fun _ _ => rfl) about ?_
      show View config _ id ((s.rows.insert id (stored record)).lookup id)
        ((s.tasks.insert id ⟨.recorded, capture⟩).lookup id) (s.running.lookup id)
      rw [AList.lookup_insert, AList.lookup_insert, idle]
      rw [absent, idle] at view
      cases view with
      | spawned quiet isNew started open_ =>
          have same : stored record = record := by rw [stored, RunStatus.parse_asStr]
          rw [same]
          exact .recorded (quiet.later _ (by simp) (by simp)) isNew (started.later _) open_
    · obtain rfl := Option.some.inj taken
      refine inv.moves (moves_erase fun _ _ => rfl) about ?_
      show View config _ id (s.rows.lookup id) ((s.tasks.erase id).lookup id) (s.running.lookup id)
      rw [AList.lookup_erase]
      generalize s.rows.lookup id = row at view
      generalize s.running.lookup id = flag at view
      cases view with
      | spawned quiet => exact .absent (quiet.later _ (by simp) (by simp))
      | again started settled => exact .settled (started.later _) (settled.later _ (by simp))
  · cases taken

theorem Inv.register (inv : Inv config es s) (taken : step config s (.register id) = some t) :
    Inv config (es ++ [.register id]) t := by
  have view := inv.views id
  simp only [step] at taken
  split at taken
  · rename_i capture found
    obtain rfl := Option.some.inj taken
    rw [found] at view
    refine inv.moves (moves_goes (mem_of_lookup found) (fun _ _ => rfl)
      fun other away => AList.lookup_insert_ne away)
      (about_of (fun other away => by simp [Ne.symm away]) (fun _ _ => by simp)) ?_
    show View config _ id (s.rows.lookup id) ((s.tasks.insert id ⟨.waiting, capture⟩).lookup id)
      ((s.running.insert id false).lookup id)
    rw [AList.lookup_insert, AList.lookup_insert]
    generalize s.rows.lookup id = row at view
    generalize s.running.lookup id = flag at view
    cases view with
    | recorded quiet isNew started open_ =>
        refine .waiting ?_ (started.later _) open_ nofun
        rw [captured_concat _ (by simp), quiet.captured, isNew]
  · cases taken

theorem Inv.output {chunk : List UInt8} (inv : Inv config es s)
    (taken : step config s (.output id chunk) = some t) :
    Inv config (es ++ [.output id chunk]) t := by
  have view := inv.views id
  have about : (RunEvent.output id chunk).About id := fun other away =>
    ⟨by simp, fun _ same => away (RunEvent.output.inj same).1.symm⟩
  have later : ∀ row, Started es id row → Started (es ++ [.output id chunk]) id row :=
    fun row started => started.later _
  simp only [step] at taken
  split at taken
  · rename_i capture found
    obtain rfl := Option.some.inj taken
    rw [found] at view
    refine inv.moves (moves_goes (mem_of_lookup found) (fun _ _ => rfl) fun _ _ => rfl) about ?_
    show View config _ id (s.rows.lookup id)
      ((s.tasks.insert id ⟨.waiting, capture.push chunk⟩).lookup id) (s.running.lookup id)
    rw [AList.lookup_insert]
    generalize s.rows.lookup id = row at view
    generalize s.running.lookup id = flag at view
    cases view with
    | waiting all started open_ asked =>
        refine .waiting ?_ (later _ started) open_ fun flag => List.mem_append_left _ (asked flag)
        rw [captured_output, all]
  · rename_i status code capture found
    obtain rfl := Option.some.inj taken
    rw [found] at view
    refine inv.moves (moves_goes (mem_of_lookup found) (fun _ _ => rfl) fun _ _ => rfl) about ?_
    show View config _ id (s.rows.lookup id)
      ((s.tasks.insert id ⟨.draining status code, capture.push chunk⟩).lookup id)
      (s.running.lookup id)
    rw [AList.lookup_insert]
    generalize s.rows.lookup id = row at view
    generalize s.running.lookup id = flag at view
    cases view with
    | draining all started open_ asked ended =>
        refine .draining ?_ (later _ started) open_
          (fun flag => List.mem_append_left _ (asked flag)) (ended.later _)
        rw [captured_output, all]
  · cases taken

theorem Inv.cancel (inv : Inv config es s) (taken : step config s (.cancel id) = some t) :
    Inv config (es ++ [.cancel id]) t := by
  have view := inv.views id
  have about : (RunEvent.cancel id).About id := about_of (fun _ _ => by simp) (fun _ _ => by simp)
  simp only [step, EngineState.cancel, Option.some.injEq] at taken
  subst taken
  split
  · rename_i active
    have moves : Moves s { s with running := s.running.insert id true } id :=
      ⟨fun _ _ => rfl, fun _ _ => rfl, fun _ away => AList.lookup_insert_ne away, fun mem => mem, rfl,
        rfl⟩
    refine inv.moves moves about ?_
    show View config _ id (s.rows.lookup id) (s.tasks.lookup id)
      ((s.running.insert id true).lookup id)
    rw [AList.lookup_insert]
    obtain ⟨flag, found⟩ := (Rows.mem_iff_lookup _ _).mp active
    rw [found] at view
    have asked : (.cancel id : RunEvent) ∈ es ++ [.cancel id] :=
      List.mem_append_right _ List.mem_cons_self
    have view := view.later (.cancel id) (by simp) (by simp)
    generalize s.rows.lookup id = row at view ⊢
    generalize s.tasks.lookup id = task at view ⊢
    cases view with
    | waiting all started open_ _ => exact .waiting all started open_ fun _ => asked
    | draining all started open_ _ ended => exact .draining all started open_ (fun _ => asked) ended
    | rendered all started open_ _ ended time =>
        exact .rendered all started open_ (fun _ => asked) ended time
    | persisted started all settled _ => exact .persisted started all settled fun _ => asked
  · have moves : Moves s s id :=
      ⟨fun _ _ => rfl, fun _ _ => rfl, fun _ _ => rfl, fun mem => mem, rfl, rfl⟩
    exact inv.moves moves about (view.later _ (by simp) (by simp))

/-- The supervisor stops waiting for a reason. -/
theorem Inv.stops {status : RunStatus} {code : Option Int} (inv : Inv config es s)
    (quiet : ∀ other chunk, e ≠ .output other chunk) (away : ∀ other, e ≠ .register other)
    (ended : ∀ flag, s.running.lookup id = some flag → (flag = true → .cancel id ∈ es) →
      Ended (es ++ [e]) id status code)
    (taken : s.stops id status code = some t) : Inv config (es ++ [e]) t := by
  have view := inv.views id
  rw [EngineState.stops] at taken
  split at taken
  · rename_i capture found
    obtain rfl := Option.some.inj taken
    rw [found] at view
    refine inv.moves (moves_goes (mem_of_lookup found) (fun _ _ => rfl) fun _ _ => rfl)
      (about_of (fun other _ => away other) quiet) ?_
    show View config _ id (s.rows.lookup id)
      ((s.tasks.insert id ⟨.draining status code, capture⟩).lookup id) (s.running.lookup id)
    rw [AList.lookup_insert]
    have view := view.later e (quiet id) (away id)
    have asks := inv.views id
    rw [found] at asks
    generalize s.rows.lookup id = row at view asks
    generalize s.running.lookup id = flag at view ended asks ⊢
    cases view with
    | waiting all started open_ asked =>
        cases asks with
        | waiting _ _ _ asked' => exact .draining all started open_ asked (ended _ rfl asked')
  · cases taken

theorem Inv.drained {ms : Nat} (inv : Inv config es s)
    (taken : step config s (.drained id ms) = some t) : Inv config (es ++ [.drained id ms]) t := by
  have view := inv.views id
  simp only [step] at taken
  split at taken
  · rename_i status code capture found
    obtain rfl := Option.some.inj taken
    rw [found] at view
    refine inv.moves (moves_goes (mem_of_lookup found) (fun _ _ => rfl) fun _ _ => rfl)
      (about_of (fun _ _ => by simp) (fun _ _ => by simp)) ?_
    show View config _ id (s.rows.lookup id) ((s.tasks.insert id ⟨.rendered
      ⟨status, code, ms, capture.render.1, capture.render.2, capture.total⟩, capture⟩).lookup id)
      (s.running.lookup id)
    rw [AList.lookup_insert]
    have view := view.later (.drained id ms) (by simp) (by simp)
    generalize s.rows.lookup id = row at view
    generalize s.running.lookup id = flag at view
    cases view with
    | draining all started open_ asked ended =>
        exact .rendered all started open_ asked ended (List.mem_append_right _ List.mem_cons_self)
  · cases taken

theorem total_captured (config : RunEngineConfig) (es : List RunEvent) (id : String) :
    (captured config es id).total = (outputs es id).flatten.length := by
  rw [captured, CaptureBuf.pushes_eq]
  rfl

/-- What the last write makes of an open record. -/
theorem finished_finishRow {row : RunRecord} {status : RunStatus} {code : Option Int} {ms : Nat}
    {capture : CaptureBuf} (all : capture = captured config es id)
    (ended : Ended es id status code) (time : .drained id ms ∈ es) :
    Finished config es id (finishRow
      ⟨status, code, ms, capture.render.1, capture.render.2, capture.total⟩ row) where
  ended := by
    show Ended es id (.parse status.asStr) code
    rwa [RunStatus.parse_asStr]
  log := by rw [← all]; rfl
  bytes := by
    rw [← total_captured config, ← all]
    rfl
  time := ⟨ms, time, rfl⟩

theorem started_finishRow {row : RunRecord} {f : Finish} (started : Started es id row) :
    Started es id (finishRow f row) := started

theorem Inv.finish {stores : Bool} (inv : Inv config es s)
    (taken : step config s (.finish id stores) = some t) :
    Inv config (es ++ [.finish id stores]) t := by
  have view := (inv.views id).later (.finish id stores) (by simp) (by simp)
  have about : (RunEvent.finish id stores).About id :=
    about_of (fun _ _ => by simp) (fun _ _ => by simp)
  simp only [step] at taken
  split at taken
  · rename_i f capture found
    obtain rfl := Option.some.inj taken
    rw [found] at view
    cases stores with
    | true =>
        obtain ⟨row, isRow⟩ : ∃ row, s.rows.lookup id = some row := by
          generalize s.rows.lookup id = row at view
          generalize s.running.lookup id = flag at view
          cases view
          exact ⟨_, rfl⟩
        rw [isRow] at view
        rw [if_pos rfl, isRow]
        refine inv.moves (moves_goes (mem_of_lookup found)
          (fun other away => AList.lookup_insert_ne away) fun _ _ => rfl) about ?_
        show View config _ id ((s.rows.insert id (finishRow f row)).lookup id)
          ((s.tasks.insert id ⟨.persisted, capture⟩).lookup id) (s.running.lookup id)
        rw [AList.lookup_insert, AList.lookup_insert]
        generalize s.running.lookup id = flag at view
        cases view with
        | rendered all started open_ asked ended time =>
            exact .persisted (started_finishRow started) all
              (.inl (finished_finishRow all ended time)) asked
    | false =>
        rw [if_neg Bool.false_ne_true]
        refine inv.moves (moves_goes (mem_of_lookup found) (fun _ _ => rfl) fun _ _ => rfl) about ?_
        show View config _ id (s.rows.lookup id)
          ((s.tasks.insert id ⟨.persisted, capture⟩).lookup id) (s.running.lookup id)
        rw [AList.lookup_insert]
        generalize s.rows.lookup id = row at view
        generalize s.running.lookup id = flag at view
        cases view with
        | rendered all started open_ asked ended time =>
            exact .persisted started all
              (.inr ⟨open_, .inl (List.mem_append_right _ List.mem_cons_self)⟩) asked
  · cases taken

theorem Inv.forget (inv : Inv config es s) (taken : step config s (.forget id) = some t) :
    Inv config (es ++ [.forget id]) t := by
  have view := (inv.views id).later (.forget id) (by simp) (by simp)
  simp only [step] at taken
  split at taken
  · rename_i capture found
    obtain rfl := Option.some.inj taken
    rw [found] at view
    refine inv.moves (moves_erase fun other away => AList.lookup_erase_ne away)
      (about_of (fun _ _ => by simp) (fun _ _ => by simp)) ?_
    show View config _ id (s.rows.lookup id) ((s.tasks.erase id).lookup id)
      ((s.running.erase id).lookup id)
    rw [AList.lookup_erase, AList.lookup_erase]
    generalize s.rows.lookup id = row at view
    generalize s.running.lookup id = flag at view
    cases view with
    | persisted started _ settled _ => exact .settled started settled
  · cases taken

/-- The end of the daemon leaves the records that were open as they are. -/
theorem Inv.dies (inv : Inv config es s) (taken : step config s .dies = some t) :
    Inv config (es ++ [.dies]) t := by
  simp only [step, Option.some.injEq] at taken
  subst taken
  refine ⟨fun id => ?_, fun id mem => absurd mem (AList.notMem_empty id),
    fun root mem => absurd mem List.not_mem_nil⟩
  have view := (inv.views id).later .dies (by simp) (by simp)
  show View config _ id (s.rows.lookup id) ((∅ : Rows String Task).lookup id)
    ((∅ : Rows String Bool).lookup id)
  rw [AList.lookup_empty, AList.lookup_empty]
  have died : (.dies : RunEvent) ∈ es ++ [.dies] := List.mem_append_right _ List.mem_cons_self
  generalize s.rows.lookup id = row at view ⊢
  generalize s.tasks.lookup id = task at view
  generalize s.running.lookup id = flag at view
  cases view with
  | absent quiet => exact .absent quiet
  | spawned quiet => exact .absent quiet
  | again started settled => exact .settled started settled
  | recorded _ _ started open_ => exact .settled started (.inr ⟨open_, .inr died⟩)
  | waiting _ started open_ => exact .settled started (.inr ⟨open_, .inr died⟩)
  | draining _ started open_ => exact .settled started (.inr ⟨open_, .inr died⟩)
  | rendered _ started open_ => exact .settled started (.inr ⟨open_, .inr died⟩)
  | persisted started _ settled _ => exact .settled started settled
  | settled started settled => exact .settled started settled

theorem mem_freshRoots {roots registered : List String} {root : String} :
    root ∈ freshRoots roots registered ↔ root ∈ roots ∨ root ∈ registered := by
  induction registered generalizing roots with
  | nil => simp [freshRoots]
  | cons path registered ih =>
      rw [freshRoots, List.foldl_cons, ← freshRoots, ih, List.mem_cons]
      split
      · rename_i known
        constructor
        · rintro (old | new)
          · exact .inl old
          · exact .inr (.inr new)
        · rintro (old | rfl | new)
          · exact .inl old
          · exact .inl known
          · exact .inr new
      · rw [List.mem_append, List.mem_singleton, or_assoc]

theorem Inv.freshRoots {registered : List String} (inv : Inv config es s)
    (taken : step config s (.freshRoots registered) = some t) :
    Inv config (es ++ [.freshRoots registered]) t := by
  simp only [step, Option.some.injEq] at taken
  subst taken
  refine ⟨fun id => (inv.views id).later _ (by simp) (by simp), inv.drawn, fun root mem => ?_⟩
  rcases mem_freshRoots.mp mem with old | new
  · obtain ⟨registered', refreshed, isIn⟩ := inv.roots root old
    exact ⟨registered', List.mem_append_left _ refreshed, isIn⟩
  · exact ⟨registered, List.mem_append_right _ List.mem_cons_self, new⟩

/-- Where a command is let run, one of the roots is above. -/
theorem checkCwd_eq_ok {canonicalize : Canonicalize} {cwd : String} {roots : List String}
    {canon : List String} (allowed : checkCwd canonicalize cwd roots = .ok canon) :
    canonicalize cwd = .ok canon ∧
      ∃ root ∈ roots, ∃ rootCanon, canonicalize root = .ok rootCanon ∧ rootCanon <+: canon := by
  rw [checkCwd] at allowed
  split at allowed
  · cases allowed
  · rename_i canon' found
    dsimp only at allowed
    split at allowed
    · rename_i permitted
      cases allowed
      obtain ⟨root, mem, above⟩ := List.any_eq_true.mp permitted
      refine ⟨found, root, mem, ?_⟩
      cases resolved : canonicalize root with
      | error text =>
          rw [resolved] at above
          cases above
      | ok rootCanon =>
          rw [resolved] at above
          exact ⟨rootCanon, rfl, List.isPrefixOf_iff_prefix.mp above⟩
    · cases allowed

/-- A start draws an id that no run has. -/
theorem Inv.start {req : RunRequest} {canonicalize : Canonicalize} {ms startedAtMs : Nat}
    {env : String} {spawns : Bool} (inv : Inv config es s)
    (taken : step config s (.start req canonicalize ms startedAtMs env spawns) = some t) :
    Inv config (es ++ [.start req canonicalize ms startedAtMs env spawns]) t := by
  have views := fun id => (inv.views id).later (.start req canonicalize ms startedAtMs env spawns)
    (by simp) (by simp)
  have roots : ∀ root ∈ s.roots, ∃ registered,
      .freshRoots registered ∈ es ++ [.start req canonicalize ms startedAtMs env spawns] ∧
        root ∈ registered := fun root mem => by
    obtain ⟨registered, refreshed, isIn⟩ := inv.roots root mem
    exact ⟨registered, List.mem_append_left _ refreshed, isIn⟩
  simp only [step, Option.some.injEq] at taken
  subst taken
  rw [EngineState.start]
  cases checked : checkCwd canonicalize req.cwd s.roots with
  | error text => exact ⟨views, inv.drawn, roots⟩
  | ok cwd =>
      dsimp only
      have drawn : ∀ id ∈ s.tasks, ∃ ms n, id = runId ms n ∧ n < s.seq + 1 := fun id mem => by
        obtain ⟨ms, n, same, less⟩ := inv.drawn id mem
        exact ⟨ms, n, same, by omega⟩
      cases spawns with
      | false => exact ⟨views, drawn, roots⟩
      | true =>
          rw [if_pos rfl]
          have free : runId ms s.seq ∉ s.tasks := fun mem => by
            obtain ⟨ms', n, same, less⟩ := inv.drawn _ mem
            have isSeq := runId_injective same
            omega
          refine ⟨fun id => ?_, fun id mem => ?_, roots⟩
          · show View config _ id (s.rows.lookup id) ((s.tasks.insert (runId ms s.seq)
              ⟨.spawned (newRecord (runId ms s.seq) req cwd env startedAtMs),
                CaptureBuf.new config.headCap config.tailCap⟩).lookup id) (s.running.lookup id)
            by_cases here : id = runId ms s.seq
            · subst here
              have view := views (runId ms s.seq)
              rw [AList.lookup_eq_none.mpr free] at view
              rw [AList.lookup_insert]
              obtain ⟨isCanon, root, mem, rootCanon, resolved, above⟩ := checkCwd_eq_ok checked
              obtain ⟨registered, refreshed, isIn⟩ := inv.roots root mem
              have started : Started (es ++ [.start req canonicalize ms startedAtMs env true])
                  (runId ms s.seq) (newRecord (runId ms s.seq) req cwd env startedAtMs) :=
                ⟨es, req, canonicalize, ms, startedAtMs, env, [], s.seq, cwd, rfl, rfl, rfl, isCanon,
                  registered, root, rootCanon, refreshed, isIn, resolved, above⟩
              generalize s.rows.lookup (runId ms s.seq) = row at view ⊢
              generalize s.running.lookup (runId ms s.seq) = flag at view ⊢
              cases view with
              | absent quiet => exact .spawned quiet rfl started rfl
              | settled started' settled => exact .again started' settled
            · rw [AList.lookup_insert_ne here]
              exact views id
          · rcases (AList.mem_insert _).mp mem with rfl | old
            · exact ⟨ms, s.seq, rfl, Nat.lt_succ_self _⟩
            · exact drawn id old

/-- Every step keeps what is known of each run. -/
theorem Inv.step (inv : Inv config es s) (taken : RunEngine.step config s e = some t) :
    Inv config (es ++ [e]) t := by
  cases e with
  | freshRoots registered => exact inv.freshRoots taken
  | start req canonicalize ms startedAtMs env spawns => exact inv.start taken
  | insertRunning id stores => exact inv.insertRunning taken
  | register id => exact inv.register taken
  | output id chunk => exact inv.output taken
  | cancel id => exact inv.cancel taken
  | exits id code =>
      exact inv.stops (by simp) (by simp)
        (fun _ _ _ => .exited (List.mem_append_right _ List.mem_cons_self)) taken
  | cancelled id =>
      simp only [RunEngine.step] at taken
      split at taken
      · rename_i flagged
        refine inv.stops (by simp) (by simp) (fun flag found asked => ?_) taken
        rw [flagged] at found
        exact .killed (List.mem_append_left _ (asked (Option.some.inj found).symm))
      · cases taken
  | timesOut id =>
      exact inv.stops (by simp) (by simp)
        (fun _ _ _ => .timedOut (List.mem_append_right _ List.mem_cons_self)) taken
  | drained id ms => exact inv.drained taken
  | finish id stores => exact inv.finish taken
  | forget id => exact inv.forget taken
  | dies => exact inv.dies taken

theorem Inv.fresh : Inv config [] .fresh where
  views _ := .absent fun _ mem => absurd mem List.not_mem_nil
  drawn id mem := absurd mem (AList.notMem_empty id)
  roots _ mem := absurd mem List.not_mem_nil

/-- What is known of each run after every history of the engine. -/
theorem inv_of_exec (ran : exec (RunEngine.step config) .fresh es = some s) : Inv config es s := by
  have whole : ∀ (later done : List RunEvent) (m : EngineState), Inv config done m →
      exec (RunEngine.step config) m later = some s → Inv config (done ++ later) s := by
    intro later
    induction later with
    | nil =>
        intro done m inv ran
        obtain rfl := Option.some.inj ran
        rwa [List.append_nil]
    | cons e later ih =>
        intro done m inv ran
        obtain ⟨m', taken, rest⟩ := (exec_cons_eq_some _).mp ran
        have next := ih (done ++ [e]) m' (inv.step taken) rest
        rwa [List.append_assoc, List.singleton_append] at next
  exact whole es [] .fresh .fresh ran

theorem stops_rows {status : RunStatus} {code : Option Int}
    (taken : s.stops id status code = some t) : s.rows = t.rows := by
  rw [EngineState.stops] at taken
  split at taken
  · obtain rfl := Option.some.inj taken
    rfl
  · cases taken

/-- A step leaves a finished record as it is. -/
theorem Inv.keeps (inv : Inv config es s) (taken : RunEngine.step config s e = some t)
    {row : RunRecord} (found : s.rows.lookup id = some row) (closed : row.status ≠ .running) :
    t.rows.lookup id = some row := by
  cases e with
  | insertRunning other stores =>
      simp only [RunEngine.step] at taken
      split at taken
      · split at taken
        · rename_i free
          obtain rfl := Option.some.inj taken
          have apart : id ≠ other := by
            rintro rfl
            exact free.2 ((Rows.mem_iff_lookup _ _).mpr ⟨row, found⟩)
          exact (AList.lookup_insert_ne apart).trans found
        · obtain rfl := Option.some.inj taken
          exact found
      · cases taken
  | finish other stores =>
      simp only [RunEngine.step] at taken
      split at taken
      · rename_i f capture isTask
        obtain rfl := Option.some.inj taken
        have apart : id ≠ other := by
          rintro rfl
          have view := inv.views id
          rw [found, isTask] at view
          generalize s.running.lookup id = flag at view
          cases view with
          | rendered _ _ open_ => exact closed (by rw [open_]; rfl)
        show (if stores = true then _ else s.rows).lookup id = some row
        split
        · split
          · exact (AList.lookup_insert_ne apart).trans found
          · exact found
        · exact found
      · cases taken
  | freshRoots registered =>
      simp only [RunEngine.step, Option.some.injEq] at taken
      subst taken
      exact found
  | start req canonicalize ms startedAtMs env spawns =>
      simp only [RunEngine.step, Option.some.injEq] at taken
      subst taken
      rw [EngineState.start]
      split
      · exact found
      · dsimp only
        split
        · exact found
        · exact found
  | cancel other =>
      simp only [RunEngine.step, EngineState.cancel, Option.some.injEq] at taken
      subst taken
      split
      · exact found
      · exact found
  | dies =>
      simp only [RunEngine.step, Option.some.injEq] at taken
      subst taken
      exact found
  | exits other code => exact stops_rows taken ▸ found
  | timesOut other => exact stops_rows taken ▸ found
  | cancelled other =>
      simp only [RunEngine.step] at taken
      split at taken
      · exact stops_rows taken ▸ found
      · cases taken
  | register other =>
      simp only [RunEngine.step] at taken
      split at taken
      · obtain rfl := Option.some.inj taken
        exact found
      · cases taken
  | output other chunk =>
      simp only [RunEngine.step] at taken
      split at taken
      · obtain rfl := Option.some.inj taken
        exact found
      · obtain rfl := Option.some.inj taken
        exact found
      · cases taken
  | drained other ms =>
      simp only [RunEngine.step] at taken
      split at taken
      · obtain rfl := Option.some.inj taken
        exact found
      · cases taken
  | forget other =>
      simp only [RunEngine.step] at taken
      split at taken
      · obtain rfl := Option.some.inj taken
        exact found
      · cases taken

end Steps

/-! ## Records -/

/-- A row is in the store and its outcome is still to be written. -/
def Phase.AtWork : Phase → Prop
  | .spawned _ => False
  | .persisted => False
  | _ => True

/-- A build prints two bytes and exits while a second start fails to be stored. -/
def buildRun : List RunEvent :=
  [.freshRoots ["/srv"],
    .start ⟨"make", "/srv", none, none⟩ (fun _ => .ok ["srv"]) 7 7 "env" true,
    .insertRunning "run-7-0" true, .register "run-7-0", .output "run-7-0" [104, 105],
    .start ⟨"ls", "/srv", none, none⟩ (fun _ => .ok ["srv"]) 8 8 "env" true,
    .insertRunning "run-8-1" false, .exits "run-7-0" (some 0), .drained "run-7-0" 9,
    .finish "run-7-0" true, .forget "run-7-0"]

def buildConfig : RunEngineConfig := ⟨1, 4⟩

theorem buildRun_ends : ∃ s row, exec (step buildConfig) .fresh buildRun = some s ∧
    s.rows.lookup "run-7-0" = some row ∧ row.status = .exited ∧ "run-7-0" ∉ s.running := by
  have ends : (((exec (step buildConfig) .fresh buildRun).map fun s =>
      ((s.rows.lookup "run-7-0").map RunRecord.status, decide ("run-7-0" ∈ s.running))) =
        some (some .exited, false)) := by decide
  obtain ⟨s, ran, same⟩ := Option.map_eq_some_iff.mp ends
  obtain ⟨status, gone⟩ := Prod.mk.inj same
  obtain ⟨row, found, exited⟩ := Option.map_eq_some_iff.mp status
  exact ⟨s, row, ran, found, exited, of_decide_eq_false gone⟩

section Records

variable {config : RunEngineConfig} {es : List RunEvent} {s t : EngineState} {id : String}
  {row : RunRecord}

/-- **Every record is that of an allowed start, and finished with all that was put out, unless the
run is at work, its last write failed or the daemon died.** -/
theorem records_spec (ran : exec (step config) .fresh es = some s)
    (found : s.rows.lookup id = some row) :
    Started es id row ∧ (Finished config es id row ∨
      row = row.unfinished ∧
        ((∃ task, s.tasks.lookup id = some task ∧ task.phase.AtWork) ∨
          .finish id false ∈ es ∨ .dies ∈ es)) := by
  have view := (inv_of_exec ran).views id
  rw [found] at view
  have settles : ∀ settled : Settled config es id row, Finished config es id row ∨
      row = row.unfinished ∧ ((∃ task, s.tasks.lookup id = some task ∧ task.phase.AtWork) ∨
        .finish id false ∈ es ∨ .dies ∈ es) :=
    fun settled => settled.imp_right fun ⟨open_, failed⟩ => ⟨open_, .inr failed⟩
  generalize s.tasks.lookup id = task at view settles ⊢
  generalize s.running.lookup id = flag at view
  cases view with
  | again started settled => exact ⟨started, settles settled⟩
  | recorded _ _ started open_ => exact ⟨started, .inr ⟨open_, .inl ⟨_, rfl, trivial⟩⟩⟩
  | waiting _ started open_ _ => exact ⟨started, .inr ⟨open_, .inl ⟨_, rfl, trivial⟩⟩⟩
  | draining _ started open_ _ _ => exact ⟨started, .inr ⟨open_, .inl ⟨_, rfl, trivial⟩⟩⟩
  | rendered _ started open_ _ _ _ => exact ⟨started, .inr ⟨open_, .inl ⟨_, rfl, trivial⟩⟩⟩
  | persisted started _ settled _ => exact ⟨started, settles settled⟩
  | settled started settled => exact ⟨started, settles settled⟩

theorem records_spec_build : ∃ s row, exec (step buildConfig) .fresh buildRun = some s ∧
    s.rows.lookup "run-7-0" = some row ∧ Started buildRun "run-7-0" row ∧
      (Finished buildConfig buildRun "run-7-0" row ∨ row = row.unfinished ∧
        ((∃ task, s.tasks.lookup "run-7-0" = some task ∧ task.phase.AtWork) ∨
          .finish "run-7-0" false ∈ buildRun ∨ .dies ∈ buildRun)) := by
  obtain ⟨s, row, ran, found, -, -⟩ := buildRun_ends
  exact ⟨s, row, ran, found, records_spec ran found⟩

/-- **What is no longer among the running runs has its final record**, or the last write failed or
the daemon died. -/
theorem run_barrier (ran : exec (step config) .fresh es = some s) (registered : .register id ∈ es)
    (gone : id ∉ s.running) :
    ∃ row, s.rows.lookup id = some row ∧ (Finished config es id row ∨
      row = row.unfinished ∧ (.finish id false ∈ es ∨ .dies ∈ es)) := by
  have view := (inv_of_exec ran).views id
  rw [AList.lookup_eq_none.mpr gone] at view
  have loud : ¬Quiet es id := fun quiet => (quiet _ registered).1 rfl
  generalize s.rows.lookup id = row at view ⊢
  generalize s.tasks.lookup id = task at view
  cases view with
  | absent quiet => exact absurd quiet loud
  | spawned quiet => exact absurd quiet loud
  | again _ settled => exact ⟨_, rfl, settled⟩
  | recorded quiet => exact absurd quiet loud
  | settled _ settled => exact ⟨_, rfl, settled⟩

theorem run_barrier_build : ∃ s, exec (step buildConfig) .fresh buildRun = some s ∧
    ∃ row, s.rows.lookup "run-7-0" = some row ∧ (Finished buildConfig buildRun "run-7-0" row ∨
      row = row.unfinished ∧ (.finish "run-7-0" false ∈ buildRun ∨ .dies ∈ buildRun)) := by
  obtain ⟨s, -, ran, -, -, gone⟩ := buildRun_ends
  exact ⟨s, ran, run_barrier ran (by simp [buildRun]) gone⟩

/-- **A finished record stays as it is**, whatever runs, fails or dies later. -/
theorem finished_kept (ran : exec (step config) .fresh es = some s) {later : List RunEvent}
    (more : exec (step config) s later = some t) (found : s.rows.lookup id = some row)
    (closed : row.status ≠ .running) : t.rows.lookup id = some row := by
  have whole : ∀ (later done : List RunEvent) (m : EngineState), Inv config done m →
      m.rows.lookup id = some row → exec (step config) m later = some t →
        t.rows.lookup id = some row := by
    intro later
    induction later with
    | nil =>
        intro done m _ found more
        obtain rfl := Option.some.inj more
        exact found
    | cons e later ih =>
        intro done m inv found more
        obtain ⟨m', taken, rest⟩ := (exec_cons_eq_some _).mp more
        exact ih (done ++ [e]) m' (inv.step taken) (inv.keeps taken found closed) rest
  exact whole later es s (inv_of_exec ran) found more

theorem finished_kept_build : ∃ s row t, exec (step buildConfig) .fresh buildRun = some s ∧
    s.rows.lookup "run-7-0" = some row ∧ exec (step buildConfig) s [.dies] = some t ∧
      t.rows.lookup "run-7-0" = some row := by
  obtain ⟨s, row, ran, found, exited, -⟩ := buildRun_ends
  have closed : row.status ≠ .running := by
    rw [exited]
    decide
  have more : exec (step buildConfig) s [.dies] = some _ := rfl
  exact ⟨s, row, _, ran, found, more, finished_kept ran more found closed⟩

/-- What is seen of a running run is what its command has put out so far. -/
theorem liveSnapshot_eq (ran : exec (step config) .fresh es = some s)
    {snapshot : String × Bool × Nat} (seen : s.liveSnapshot id = some snapshot) :
    snapshot = ((captured config es id).render.1, (captured config es id).render.2,
      (outputs es id).flatten.length) := by
  have view := (inv_of_exec ran).views id
  rw [← total_captured config]
  simp only [EngineState.liveSnapshot, Option.bind_eq_some_iff, Option.map_eq_some_iff] at seen
  obtain ⟨flag, active, task, isTask, rfl⟩ := seen
  rw [active, isTask] at view
  generalize s.rows.lookup id = row at view
  cases view with
  | waiting all => rw [all]
  | draining all => rw [all]
  | rendered all => rw [all]
  | persisted _ all => rw [all]

end Records

end Ministr.Daemon.RunEngine
