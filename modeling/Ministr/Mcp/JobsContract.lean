/-
# Mcp.JobsContract — both backends keep a ledger in the order of enqueueing

The abstract queue is a `List Job` in the order the jobs came.  `Implements` says
that a backend is such a list behind its own representation: the hash map has the
same jobs by id, the table has them row by row.  The contract is then proved once,
of the list.

What differs is `claim_next`.  The table's index breaks ties of one second by row
id, so `sqlite_implements` asks nothing.  The hash map has nothing to break them
with, and negates an `i16`: `inMemory_implements` asks that the jobs be
`Distinguished`.  `jobQueue_contract` is the contract of both backends, and
`burst_overtakes` two jobs of one second that leave in the wrong order.
-/

import Ministr.Mcp.Jobs

namespace Ministr.Mcp

open Ministr.Theory

set_option autoImplicit false

/-! ## The ledger -/

section LedgerLists

variable {jobs : List Job} {id id' : String} {job : Job} {write : Job → Job}

def findJob (jobs : List Job) (id : String) : Option Job := jobs.find? fun job => job.id = id

def rewriteJob (jobs : List Job) (id : String) (write : Job → Job) : List Job :=
  jobs.map fun job => if job.id = id then write job else job

theorem findJob_eq_some (found : findJob jobs id = some job) : job ∈ jobs ∧ job.id = id := by
  refine ⟨List.mem_of_find?_eq_some found, ?_⟩
  simpa using List.find?_some found

theorem findJob_of_mem (nodup : (jobs.map Job.id).Nodup) (mem : job ∈ jobs) :
    findJob jobs job.id = some job := by
  induction jobs with
  | nil => cases mem
  | cons first jobs ih =>
      rw [List.map_cons, List.nodup_cons] at nodup
      rcases List.mem_cons.mp mem with rfl | later
      · simp [findJob]
      · have other : first.id ≠ job.id := by
          intro same
          exact nodup.1 (same ▸ List.mem_map_of_mem later)
        simpa [findJob, other] using ih nodup.2 later

theorem findJob_append (fresh : job.id ∉ jobs.map Job.id) (id : String) :
    findJob (jobs ++ [job]) id = if id = job.id then some job else findJob jobs id := by
  unfold findJob
  rw [List.find?_append]
  by_cases here : id = job.id
  · subst here
    have absent : jobs.find? (fun other => other.id = job.id) = none := by
      rw [List.find?_eq_none]
      intro other mem same
      exact fresh (by simpa using ⟨other, mem, by simpa using same⟩)
    simp [absent]
  · have : job.id ≠ id := fun same => here same.symm
    simp [here, this]

theorem findJob_rewriteJob (kept : ∀ job, (write job).id = job.id) (id id' : String) :
    findJob (rewriteJob jobs id write) id' =
      if id' = id then (findJob jobs id).map write else findJob jobs id' := by
  induction jobs with
  | nil => simp [findJob, rewriteJob]
  | cons first jobs ih =>
      simp only [findJob, rewriteJob] at ih ⊢
      rw [List.map_cons, List.find?_cons, List.find?_cons, List.find?_cons, ih]
      by_cases here : first.id = id <;> by_cases there : id' = id <;>
        by_cases match' : first.id = id' <;> simp_all

theorem map_id_rewriteJob (kept : ∀ job, (write job).id = job.id) :
    (rewriteJob jobs id write).map Job.id = jobs.map Job.id := by
  rw [rewriteJob, List.map_map]
  refine List.map_congr_left fun job _ => ?_
  by_cases here : job.id = id <;> simp [here, kept]

theorem rewriteJob_of_absent (absent : id ∉ jobs.map Job.id) : rewriteJob jobs id write = jobs := by
  rw [rewriteJob]
  refine (List.map_congr_left fun job mem => ?_).trans (List.map_id jobs)
  have : job.id ≠ id := fun same => absent (by simpa using ⟨job, mem, same⟩)
  simp [this]

end LedgerLists

/-- The times of the ledger: jobs came in order, none after `clock`. -/
structure Timely (jobs : List Job) (clock : Nat) : Prop where
  sorted : jobs.Pairwise fun a b => a.createdAt ≤ b.createdAt
  past : ∀ job ∈ jobs, job.createdAt ≤ clock
  fits : ∀ job ∈ jobs, job.createdAt < 2 ^ 63

theorem Timely.append {jobs : List Job} {clock : Nat} (timely : Timely jobs clock) {job : Job}
    (later : clock ≤ job.createdAt) (fits : job.createdAt < 2 ^ 63) :
    Timely (jobs ++ [job]) job.createdAt where
  sorted := by
    rw [List.pairwise_append]
    refine ⟨timely.sorted, List.pairwise_singleton _ _, fun a mem b here => ?_⟩
    rw [List.mem_singleton.mp here]
    have := timely.past a mem
    omega
  past := by
    intro a mem
    rcases List.mem_append.mp mem with old | here
    · have := timely.past a old
      omega
    · rw [List.mem_singleton.mp here]
  fits := by
    intro a mem
    rcases List.mem_append.mp mem with old | here
    · exact timely.fits a old
    · rw [List.mem_singleton.mp here]
      exact fits

theorem Timely.rewriteJob {jobs : List Job} {clock now : Nat} (timely : Timely jobs clock)
    {id : String} {write : Job → Job} (kept : ∀ job, (write job).createdAt = job.createdAt)
    (later : clock ≤ now) : Timely (rewriteJob jobs id write) now := by
  have same : ∀ job, (if job.id = id then write job else job).createdAt = job.createdAt := by
    intro job
    by_cases here : job.id = id <;> simp [here, kept]
  refine ⟨?_, ?_, ?_⟩
  · rw [Mcp.rewriteJob, List.pairwise_map]
    exact timely.sorted.imp fun le => by rw [same, same]; exact le
  · intro job mem
    obtain ⟨old, inside, rfl⟩ := List.mem_map.mp mem
    rw [same]
    have := timely.past old inside
    omega
  · intro job mem
    obtain ⟨old, inside, rfl⟩ := List.mem_map.mp mem
    rw [same]
    exact timely.fits old inside

/-! ## What a backend must do -/

section Backends

variable {σ : Type}

/-- A write by id has reached the job, or there is none. -/
def Rewritten (holds : σ → List Job → Prop) (jobs : List Job) (id : String) (write : Job → Job)
    (answer : Except JobQueueError σ) : Prop :=
  (∃ queue, answer = .ok queue ∧ holds queue (rewriteJob jobs id write)) ∨
  (answer = .error (.notFound id) ∧ id ∉ jobs.map Job.id)

/-- `claim_next` has answered `none`, or the first job. -/
def Claimed (holds : σ → List Job → Prop) (rank : Job → Int) (queue : σ) (jobs : List Job)
    (now : Nat) (answer : σ × Option Job) : Prop :=
  (answer = (queue, none) ∧ ∀ job ∈ jobs, job.status ≠ .pending) ∨
  ∃ job queue', First rank jobs job ∧ answer = (queue', some (job.claimed now)) ∧
    holds queue' (rewriteJob jobs job.id fun job => job.claimed now)

/-- A backend that keeps the ledger; `clear` is what its `claim_next` needs of the jobs. -/
structure Implements (Q : JobQueue σ) (rank : Job → Int) (clear : List Job → Prop)
    (holds : σ → List Job → Prop) : Prop where
  get : ∀ {queue jobs}, holds queue jobs → ∀ id, Q.get queue id = findJob jobs id
  enqueue : ∀ {queue jobs}, holds queue jobs → ∀ id corpusId trigger priority now,
    id ∉ jobs.map Job.id → ∃ queue',
      Q.enqueue queue id corpusId trigger priority now =
        .ok (queue', .new id corpusId trigger priority now) ∧
      holds queue' (jobs ++ [.new id corpusId trigger priority now])
  claimNext : ∀ {queue jobs clock}, holds queue jobs → (jobs.map Job.id).Nodup →
    Timely jobs clock → clear jobs →
    ∀ order now, Claimed holds rank queue jobs now (Q.claimNext queue order now)
  updateProgress : ∀ {queue jobs}, holds queue jobs → (jobs.map Job.id).Nodup →
    ∀ id progress now, Rewritten holds jobs id (fun job => job.progressed progress now)
      (Q.updateProgress queue id progress now)
  finish : ∀ {queue jobs}, holds queue jobs → (jobs.map Job.id).Nodup →
    ∀ id status error now, Rewritten holds jobs id (fun job => job.finished status error now)
      (Q.finish queue id status error now)

end Backends

/-! ## The hash map -/

section Memory

variable {queue : Rows String Job} {jobs : List Job} {clock : Nat}

/-- The map has the ledger's jobs under their ids. -/
def MemoryHolds (queue : Rows String Job) (jobs : List Job) : Prop :=
  ∀ id, queue.lookup id = findJob jobs id

/-- A pending job with no pending job before it, by priority and then by second. -/
def AtFront (jobs : List Job) (job : Job) : Prop :=
  job.status = .pending ∧ ∀ other ∈ jobs, other.status = .pending →
    other.priority < job.priority ∨
    (other.priority = job.priority ∧ job.createdAt ≤ other.createdAt)

instance (jobs : List Job) (job : Job) : Decidable (AtFront jobs job) :=
  inferInstanceAs (Decidable (job.status = .pending ∧ ∀ other ∈ jobs, other.status = .pending →
    other.priority < job.priority ∨
      (other.priority = job.priority ∧ job.createdAt ≤ other.createdAt)))

/-- One job at most is at the front, and no pending job has the one priority whose
negation overflows, unless all have. -/
structure Distinguished (jobs : List Job) : Prop where
  front : ∀ a ∈ jobs, ∀ b ∈ jobs, AtFront jobs a → AtFront jobs b → a = b
  negatable : ∀ a ∈ jobs, a.status = .pending → a.priority = Int16.minValue →
    ∀ b ∈ jobs, b.status = .pending → b.priority = Int16.minValue

instance (jobs : List Job) : Decidable (Distinguished jobs) :=
  decidable_of_iff ((∀ a ∈ jobs, ∀ b ∈ jobs, AtFront jobs a → AtFront jobs b → a = b) ∧
      ∀ a ∈ jobs, a.status = .pending → a.priority = Int16.minValue →
        ∀ b ∈ jobs, b.status = .pending → b.priority = Int16.minValue)
    ⟨fun both => ⟨both.1, both.2⟩, fun distinguished => ⟨distinguished.1, distinguished.2⟩⟩

theorem mem_values {order : List String} {job : Job} :
    job ∈ InMemory.values queue order ↔ ∃ id, queue.lookup id = some job := by
  unfold InMemory.values
  rw [List.mem_filterMap]
  constructor
  · rintro ⟨id, -, found⟩
    exact ⟨id, found⟩
  · rintro ⟨id, found⟩
    refine ⟨id, ?_, found⟩
    have mem : id ∈ queue := (Rows.mem_iff_lookup _ _).mpr ⟨job, found⟩
    by_cases listed : id ∈ order
    · exact List.mem_append_left _ (by simpa using ⟨listed, mem⟩)
    · exact List.mem_append_right _ (by simpa [listed] using AList.mem_keys.mp mem)

theorem MemoryHolds.mem_values_iff (holds : MemoryHolds queue jobs)
    (nodup : (jobs.map Job.id).Nodup) {order : List String} {job : Job} :
    job ∈ InMemory.values queue order ↔ job ∈ jobs := by
  rw [mem_values]
  constructor
  · rintro ⟨id, found⟩
    rw [holds] at found
    exact (findJob_eq_some found).1
  · intro mem
    exact ⟨job.id, by rw [holds]; exact findJob_of_mem nodup mem⟩

theorem toInt_neg_of_ne {a : Int16} (negatable : a ≠ Int16.minValue) :
    (-a).toInt = -a.toInt := by
  have low := a.minValue_le_toInt
  have high := a.toInt_le
  have : a.toInt ≠ Int16.minValue.toInt := fun same => negatable (Int16.toInt_inj.mp same)
  rw [Int16.toInt_minValue] at low this
  rw [Int16.toInt_maxValue] at high
  rw [Int16.toInt_neg]
  apply Int.bmod_eq_of_le <;> omega

/-- Negation reverses the order of two priorities, unless it wraps one of them. -/
theorem neg_lt_neg_of {a b : Int16} (negatable : a = Int16.minValue ↔ b = Int16.minValue) :
    -a < -b ↔ b < a := by
  by_cases least : a = Int16.minValue
  · rw [least, negatable.mp least]
    simp
  · rw [Int16.lt_iff_toInt_lt, Int16.lt_iff_toInt_lt, toInt_neg_of_ne least,
      toInt_neg_of_ne fun same => least (negatable.mpr same)]
    omega

theorem sooner_trans (a b c : Job) (first : InMemory.sooner a b = true)
    (second : InMemory.sooner b c = true) : InMemory.sooner a c = true := by
  simp only [InMemory.sooner, decide_eq_true_eq, Int16.lt_iff_toInt_lt,
    ← Int16.toInt_inj] at first second ⊢
  omega

theorem sooner_irrefl (a : Job) : InMemory.sooner a a = false := by
  simp [InMemory.sooner]

/-- What the scan over the hash map ends with is at the front. -/
theorem atFront_of_scan (distinguished : Distinguished jobs) {best : Job} {pending : List Job}
    (all : ∀ job, job ∈ pending ↔ job ∈ jobs ∧ job.status = .pending)
    (chosen : scanBest InMemory.sooner pending = some best) : AtFront jobs best := by
  obtain ⟨inside, waits⟩ := (all best).mp (scanBest_mem chosen)
  refine ⟨waits, fun other mem waits' => ?_⟩
  have unbeaten := scanBest_least sooner_trans sooner_irrefl chosen other
    ((all other).mpr ⟨mem, waits'⟩)
  simp only [InMemory.sooner, decide_eq_false_iff_not, not_or, not_and] at unbeaten
  obtain ⟨notBefore, sameSecond⟩ := unbeaten
  rw [neg_lt_neg_of ⟨fun least => distinguished.negatable other mem waits' least best inside waits,
    fun least => distinguished.negatable best inside waits least other mem waits'⟩] at notBefore
  by_cases equal : other.priority = best.priority
  · exact .inr ⟨equal, Nat.le_of_not_lt (sameSecond (by rw [equal]))⟩
  · left
    rw [Int16.lt_iff_toInt_lt] at notBefore ⊢
    have : other.priority.toInt ≠ best.priority.toInt := fun same =>
      equal (Int16.toInt_inj.mp same)
    omega

/-- The one job at the front is the first of those of its priority. -/
theorem first_of_atFront (nodup : (jobs.map Job.id).Nodup) (timely : Timely jobs clock)
    (distinguished : Distinguished jobs) {best : Job} (mem : best ∈ jobs)
    (front : AtFront jobs best) : First (fun job => job.priority.toInt) jobs best := by
  obtain ⟨before, after, rfl⟩ := List.append_of_mem mem
  refine ⟨front.1, before, after, rfl, fun other inside waits => ?_, fun other inside waits => ?_⟩
  · have mem' : other ∈ before ++ best :: after := List.mem_append_left _ inside
    rcases front.2 other mem' waits with lower | ⟨equal, notLater⟩
    · exact Int16.lt_iff_toInt_lt.mp lower
    · -- an equal that came first is of the same second, and so at the front as well
      have sooner : other.createdAt ≤ best.createdAt :=
        (List.pairwise_append.mp timely.sorted).2.2 other inside best List.mem_cons_self
      have alsoFront : AtFront (before ++ best :: after) other := by
        refine ⟨waits, fun third mem waits => ?_⟩
        rcases front.2 third mem waits with lower | ⟨equal', notLater'⟩
        · exact .inl (equal ▸ lower)
        · exact .inr ⟨equal'.trans equal.symm, by omega⟩
      have same := distinguished.front other mem' best mem alsoFront front
      subst same
      rw [List.map_append, List.map_cons, List.nodup_append] at nodup
      exact absurd rfl (nodup.2.2 _ (List.mem_map_of_mem inside) _ List.mem_cons_self)
  · have mem' : other ∈ before ++ best :: after :=
      List.mem_append_right _ (List.mem_cons_of_mem _ inside)
    rcases front.2 other mem' waits with lower | ⟨equal, -⟩
    · exact Int.le_of_lt (Int16.lt_iff_toInt_lt.mp lower)
    · exact Int.le_of_eq (congrArg Int16.toInt equal)

theorem MemoryHolds.rewrite (holds : MemoryHolds queue jobs) {id : String} (write : Job → Job)
    {job : Job} (found : queue.lookup id = some job) (kept : ∀ job, (write job).id = job.id) :
    MemoryHolds (queue.insert id (write job)) (rewriteJob jobs id write) := by
  intro id'
  rw [Rows.lookup_insert_if, findJob_rewriteJob kept, ← holds, ← holds, found]
  rfl

theorem MemoryHolds.rewritten (holds : MemoryHolds queue jobs) (id : String) {write : Job → Job}
    (kept : ∀ job, (write job).id = job.id) :
    Rewritten MemoryHolds jobs id write (InMemory.rewrite queue id write) := by
  unfold InMemory.rewrite
  cases found : queue.lookup id with
  | some job => exact .inl ⟨_, rfl, holds.rewrite write found kept⟩
  | none =>
      refine .inr ⟨rfl, fun mem => ?_⟩
      obtain ⟨job, inside, rfl⟩ := List.mem_map.mp mem
      rw [holds, findJob, List.find?_eq_none] at found
      exact found job inside (by simp)

theorem MemoryHolds.claimed (holds : MemoryHolds queue jobs) (nodup : (jobs.map Job.id).Nodup)
    (timely : Timely jobs clock) (distinguished : Distinguished jobs) (order : List String)
    (now : Nat) :
    Claimed MemoryHolds (fun job => job.priority.toInt) queue jobs now
      (InMemory.claimNext queue order now) := by
  have all : ∀ job, job ∈ (InMemory.values queue order).filter (fun job => job.status = .pending) ↔
      job ∈ jobs ∧ job.status = .pending := by
    intro job
    simp [holds.mem_values_iff nodup]
  unfold InMemory.claimNext
  cases chosen : scanBest InMemory.sooner
      ((InMemory.values queue order).filter fun job => job.status = .pending) with
  | none =>
      refine .inl ⟨by simp [chosen], fun job mem waits => ?_⟩
      have := (all job).mpr ⟨mem, waits⟩
      rw [scanBest_eq_none.mp chosen] at this
      cases this
  | some best =>
      have mem := ((all best).mp (scanBest_mem chosen)).1
      have found : queue.lookup best.id = some best := by
        rw [holds]
        exact findJob_of_mem nodup mem
      refine .inr ⟨best, queue.insert best.id (best.claimed now), ?_, ?_, ?_⟩
      · exact first_of_atFront nodup timely distinguished mem
          (atFront_of_scan distinguished all chosen)
      · simp [chosen, found]
      · exact holds.rewrite (fun job => job.claimed now) found fun _ => rfl

/-- **The hash map keeps the ledger**, as long as its jobs can be told apart. -/
theorem inMemory_implements :
    Implements inMemory (fun job => job.priority.toInt) Distinguished MemoryHolds where
  get := fun holds id => holds id
  enqueue := by
    intro queue jobs holds id corpusId trigger priority now fresh
    refine ⟨_, rfl, fun id' => ?_⟩
    rw [Rows.lookup_insert_if, findJob_append (by exact fresh), holds]
  claimNext := fun holds nodup timely distinguished order now =>
    holds.claimed nodup timely distinguished order now
  updateProgress := fun holds _ id _ _ => holds.rewritten id fun _ => rfl
  finish := fun holds _ id _ _ _ => holds.rewritten id fun _ => rfl

end Memory

/-! ## The table -/

section Table

open Sqlite

variable {rows : Table} {jobs : List Job} {clock : Nat}

/-- The row of a job, its columns as its blob has them. -/
def rowOf (job : Job) : JobRow where
  id := job.id
  corpusId := job.corpusId
  status := statusStr job.status
  createdAt := castSigned job.createdAt
  updatedAt := castSigned job.updatedAt
  data := job

theorem setStatus_claimed (job : Job) (now : Nat) :
    (rowOf job).setStatus (job.claimed now) = rowOf (job.claimed now) := by
  simp only [rowOf, JobRow.setStatus, Job.claimed]

theorem setData_progressed (job : Job) (progress : JobProgress) (now : Nat) :
    (rowOf job).setData (job.progressed progress now) = rowOf (job.progressed progress now) := by
  simp only [rowOf, JobRow.setData, Job.progressed]

theorem setStatus_finished (job : Job) (status : JobStatus) (error : Option String) (now : Nat) :
    (rowOf job).setStatus (job.finished status error now) =
      rowOf (job.finished status error now) := by
  simp only [rowOf, JobRow.setStatus, Job.finished]

/-- The table has the ledger's jobs row by row. -/
def TableHolds (rows : Table) (jobs : List Job) : Prop := rows = jobs.map rowOf

theorem castSigned_of_lt {n : Nat} (fits : n < 2 ^ 63) : castSigned n = n := by
  unfold castSigned
  apply Int.bmod_eq_of_le <;> omega

theorem statusStr_pending {status : JobStatus} : statusStr status = "pending" ↔ status = .pending := by
  cases status <;> simp [statusStr]

theorem TableHolds.select (holds : TableHolds rows jobs) (id : String) :
    Sqlite.select rows id = findJob jobs id := by
  subst holds
  rw [Sqlite.select, List.find?_map, Option.map_map]
  exact congrFun Option.map_id _

theorem TableHolds.update (holds : TableHolds rows jobs) (nodup : (jobs.map Job.id).Nodup)
    {job : Job} (mem : job ∈ jobs) (set : JobRow → JobRow) (write : Job → Job)
    (writes : set (rowOf job) = rowOf (write job)) :
    TableHolds (Sqlite.update rows job.id set) (rewriteJob jobs job.id write) := by
  subst holds
  rw [TableHolds, Sqlite.update, rewriteJob, List.map_map, List.map_map]
  refine List.map_congr_left fun other inside => ?_
  by_cases here : other.id = job.id
  · have same : other = job := List.inj_on_of_nodup_map nodup inside mem here
    subst same
    simp [rowOf] at writes ⊢
    exact writes
  · simp [rowOf, here]

theorem TableHolds.rewritten (holds : TableHolds rows jobs) (nodup : (jobs.map Job.id).Nodup)
    (id : String) {set : JobRow → Job → JobRow} {write : Job → Job}
    (writes : ∀ job, set (rowOf job) (write job) = rowOf (write job)) :
    Rewritten TableHolds jobs id write (Sqlite.rewrite rows id set write) := by
  rw [Sqlite.rewrite, holds.select]
  cases found : findJob jobs id with
  | some job =>
      obtain ⟨mem, rfl⟩ := findJob_eq_some found
      exact .inl ⟨_, rfl, holds.update nodup mem _ write (writes job)⟩
  | none =>
      refine .inr ⟨rfl, fun mem => ?_⟩
      obtain ⟨job, inside, rfl⟩ := List.mem_map.mp mem
      rw [findJob_of_mem nodup inside] at found
      cases found

/-- Rows came in the order of their seconds, so the oldest pending row is the first. -/
theorem TableHolds.oldestPending (holds : TableHolds rows jobs) (timely : Timely jobs clock) :
    Sqlite.oldestPending rows =
      (jobs.find? fun job => job.status = .pending).map rowOf := by
  subst holds
  have sorted : (jobs.map rowOf).Pairwise
      fun a b => decide (b.createdAt < a.createdAt) = false := by
    rw [List.pairwise_map]
    refine timely.sorted.imp_of_mem fun {a b} inA inB le => ?_
    simp only [rowOf, castSigned_of_lt (timely.fits a inA), castSigned_of_lt (timely.fits b inB),
      decide_eq_false_iff_not]
    omega
  rw [Sqlite.oldestPending, scanBest_of_sorted (sorted.sublist List.filter_sublist),
    List.head?_filter, List.find?_map]
  congr 2
  funext job
  simp [rowOf, statusStr_pending]

theorem TableHolds.claimed (holds : TableHolds rows jobs) (nodup : (jobs.map Job.id).Nodup)
    (timely : Timely jobs clock) (now : Nat) :
    Claimed TableHolds (fun _ => 0) rows jobs now (Sqlite.claimNext rows now) := by
  unfold Sqlite.claimNext
  rw [holds.oldestPending timely]
  cases found : jobs.find? fun job => job.status = .pending with
  | none =>
      refine .inl ⟨rfl, fun job mem => ?_⟩
      simpa using List.find?_eq_none.mp found job mem
  | some job =>
      obtain ⟨waits, before, after, split, notBefore⟩ := List.find?_eq_some_iff_append.mp found
      have mem : job ∈ jobs := List.mem_of_find?_eq_some found
      refine .inr ⟨job, _, ⟨by simpa using waits, before, after, split, ?_, ?_⟩, rfl, ?_⟩
      · intro other inside waits'
        have := notBefore other inside
        simp [waits'] at this
      · exact fun _ _ _ => Int.le_refl 0
      · exact holds.update nodup mem _ (fun job => job.claimed now) (setStatus_claimed job now)

/-- **The table keeps the ledger**, whatever its jobs are. -/
theorem sqlite_implements :
    Implements sqlite (fun _ => 0) (fun _ => True) TableHolds where
  get := fun holds id => holds.select id
  enqueue := by
    intro rows jobs holds id corpusId trigger priority now fresh
    refine ⟨rows ++ [rowOf (.new id corpusId trigger priority now)], ?_, ?_⟩
    · have absent : id ∉ rows.map JobRow.id := by
        rw [holds, List.map_map]
        exact fresh
      simp only [sqlite, Sqlite.insert, Job.new, absent, if_false]
      rfl
    · rw [TableHolds, holds, List.map_append]
      rfl
  claimNext := fun holds nodup timely _ _ now => holds.claimed nodup timely now
  updateProgress := fun holds nodup id progress now =>
    holds.rewritten nodup id fun job => setData_progressed job progress now
  finish := fun holds nodup id status error now =>
    holds.rewritten nodup id fun job => setStatus_finished job status error now

end Table

/-! ## One call -/

section Calls

variable {σ : Type} {Q : JobQueue σ} {rank : Job → Int} {clear : List Job → Prop}
  {holds : σ → List Job → Prop} {s : QueueRun σ} {jobs : List Job}

/-- The ledger behind a state of a run. -/
structure Ledger (holds : σ → List Job → Prop) (s : QueueRun σ) (jobs : List Job) : Prop where
  stored : holds s.queue jobs
  ids : jobs.map Job.id = s.enqueued
  nodup : s.enqueued.Nodup
  timely : Timely jobs s.clock
  claims : s.claims.Nodup
  claimed : ∀ id ∈ s.claims, ∃ job ∈ jobs, job.id = id ∧ job.status ≠ .pending

/-- What a call must respect for the contract: a claim finds the jobs `clear`, and a job
is finished once. -/
def QueueRun.Calm (Q : JobQueue σ) (clear : List Job → Prop) (s : QueueRun σ) : JobCall → Prop
  | .claimNext _ _ => clear (s.jobs Q)
  | .finish jobId status _ _ => ∀ job, Q.get s.queue jobId = some job →
      status = job.status ∨ job.status = .running ∧ status.isTerminal
  | _ => True

instance (Q : JobQueue σ) (clear : List Job → Prop) [DecidablePred clear] (s : QueueRun σ) :
    (call : JobCall) → Decidable (s.Calm Q clear call)
  | .claimNext _ _ => inferInstanceAs (Decidable (clear (s.jobs Q)))
  | .finish jobId status _ _ => inferInstanceAs (Decidable (∀ job, Q.get s.queue jobId = some job →
      status = job.status ∨ job.status = .running ∧ status.isTerminal))
  | .enqueue _ _ _ _ _ | .get _ | .updateProgress _ _ _ => inferInstanceAs (Decidable True)

theorem Ledger.ids_nodup (ledger : Ledger holds s jobs) : (jobs.map Job.id).Nodup := by
  rw [ledger.ids]
  exact ledger.nodup

theorem Ledger.jobs_eq (implements : Implements Q rank clear holds)
    (ledger : Ledger holds s jobs) : s.jobs Q = jobs := by
  rw [QueueRun.jobs, ← ledger.ids, List.filterMap_map]
  refine (List.filterMap_congr fun job mem => ?_).trans List.filterMap_some
  rw [Function.comp_apply, implements.get ledger.stored]
  exact findJob_of_mem ledger.ids_nodup mem

/-- A write that keeps id and time, and reopens no job. -/
structure Writes (jobs : List Job) (id : String) (write : Job → Job) : Prop where
  sameId : ∀ job, (write job).id = job.id
  sameTime : ∀ job, (write job).createdAt = job.createdAt
  keepsTaken : ∀ job ∈ jobs, job.id = id → job.status ≠ .pending → (write job).status ≠ .pending
  keepsTerminal : ∀ job ∈ jobs, job.id = id → job.status.isTerminal →
    (write job).status = job.status

theorem Ledger.rewritten (ledger : Ledger holds s jobs) {id : String} {write : Job → Job}
    (writes : Writes jobs id write) {queue : σ} {now : Nat}
    (stored : holds queue (rewriteJob jobs id write)) (later : s.clock ≤ now) :
    Ledger holds { s with queue := queue, clock := now } (rewriteJob jobs id write) where
  stored := stored
  ids := (map_id_rewriteJob writes.sameId).trans ledger.ids
  nodup := ledger.nodup
  timely := ledger.timely.rewriteJob writes.sameTime later
  claims := ledger.claims
  claimed := by
    intro claimedId mem
    obtain ⟨job, inside, rfl, taken⟩ := ledger.claimed claimedId mem
    refine ⟨_, List.mem_map_of_mem inside, ?_⟩
    by_cases here : job.id = id
    · rw [if_pos here]
      exact ⟨writes.sameId job, writes.keepsTaken job inside here taken⟩
    · rw [if_neg here]
      exact ⟨rfl, taken⟩

/-- A write that finds no job leaves the ledger as it is, which is what writing it makes. -/
theorem Ledger.settle (ledger : Ledger holds s jobs) {id : String} {write : Job → Job}
    (writes : Writes jobs id write) {answer : Except JobQueueError σ} {now : Nat}
    (rewritten : Rewritten holds jobs id write answer) (later : s.clock ≤ now) :
    Ledger holds (s.settle now answer) (rewriteJob jobs id write) := by
  rcases rewritten with ⟨queue, rfl, stored⟩ | ⟨rfl, absent⟩
  · exact ledger.rewritten writes stored later
  · refine ledger.rewritten writes ?_ later
    rw [rewriteJob_of_absent absent]
    exact ledger.stored

/-- The terminal statuses of one ledger are those of the other. -/
def KeepsTerminal (jobs jobs' : List Job) : Prop :=
  ∀ id job, findJob jobs id = some job → job.status.isTerminal →
    (findJob jobs' id).map Job.status = some job.status

theorem Writes.keeps {id : String} {write : Job → Job} (writes : Writes jobs id write) :
    KeepsTerminal jobs (rewriteJob jobs id write) := by
  intro id' job found ended
  rw [findJob_rewriteJob writes.sameId]
  obtain ⟨mem, rfl⟩ := findJob_eq_some found
  by_cases here : job.id = id
  · subst here
    rw [if_pos rfl, found]
    exact congrArg some (writes.keepsTerminal job mem rfl ended)
  · rw [if_neg here, found]
    rfl

theorem keepsTerminal_append {job : Job} (fresh : job.id ∉ jobs.map Job.id) :
    KeepsTerminal jobs (jobs ++ [job]) := by
  intro id old found _
  rw [findJob_append fresh]
  obtain ⟨mem, rfl⟩ := findJob_eq_some found
  have : old.id ≠ job.id := fun same => fresh (same ▸ List.mem_map_of_mem mem)
  rw [if_neg this, found]
  rfl

theorem First.mem {job : Job} (first : First rank jobs job) : job ∈ jobs := by
  obtain ⟨-, before, after, rfl, -⟩ := first
  simp

/-- A claim writes one pending job. -/
theorem First.writes {job : Job} (first : First rank jobs job) (nodup : (jobs.map Job.id).Nodup)
    (now : Nat) : Writes jobs job.id fun job => job.claimed now where
  sameId := fun _ => rfl
  sameTime := fun _ => rfl
  keepsTaken := fun _ _ _ _ => by simp [Job.claimed]
  keepsTerminal := by
    intro other mem here ended
    have same : other = job := List.inj_on_of_nodup_map nodup mem first.mem here
    subst same
    rw [first.1] at ended
    cases ended

theorem writes_progressed (jobs : List Job) (id : String) (progress : JobProgress) (now : Nat) :
    Writes jobs id fun job => job.progressed progress now :=
  ⟨fun _ => rfl, fun _ => rfl, fun _ _ _ taken => taken, fun _ _ _ _ => rfl⟩

/-- A calm `finish` moves a running job on, or says again what is so. -/
theorem writes_finished (implements : Implements Q rank clear holds)
    (ledger : Ledger holds s jobs) {id : String} {status : JobStatus} {error : Option String}
    {now : Nat} (calm : s.Calm Q clear (.finish id status error now)) :
    Writes jobs id fun job => job.finished status error now := by
  have each : ∀ job ∈ jobs, job.id = id →
      status = job.status ∨ job.status = .running ∧ status.isTerminal := by
    rintro job mem rfl
    refine calm job ?_
    rw [implements.get ledger.stored]
    exact findJob_of_mem ledger.ids_nodup mem
  refine ⟨fun _ => rfl, fun _ => rfl, fun job mem here taken => ?_, fun job mem here ended => ?_⟩
  · rcases each job mem here with same | ⟨-, ends⟩
    · exact same ▸ taken
    · intro pending
      simp only [Job.finished] at pending
      rw [pending] at ends
      cases ends
  · rcases each job mem here with same | ⟨running, -⟩
    · exact same
    · rw [running] at ended
      cases ended

theorem KeepsTerminal.refl (jobs : List Job) : KeepsTerminal jobs jobs := by
  intro id job found _
  rw [found]
  rfl

theorem KeepsTerminal.trans {first second third : List Job} (one : KeepsTerminal first second)
    (two : KeepsTerminal second third) : KeepsTerminal first third := by
  intro id job found ended
  obtain ⟨job', found', same⟩ := Option.map_eq_some_iff.mp (one id job found ended)
  rw [← same]
  exact two id job' found' (same ▸ ended)

/-- What a call leaves: a ledger again, terminal statuses kept, the contract met. -/
structure Goes (Q : JobQueue σ) (rank : Job → Int) (holds : σ → List Job → Prop)
    (s : QueueRun σ) (jobs : List Job) (call : JobCall) (jobs' : List Job) : Prop where
  ledger : Ledger holds (s.apply Q call) jobs'
  kept : KeepsTerminal jobs jobs'
  fulfils : QueueRun.Fulfils Q rank s call (s.apply Q call)

theorem Ledger.enqueue (implements : Implements Q rank clear holds) (ledger : Ledger holds s jobs)
    {id corpusId : String} {trigger : JobTrigger} {priority : Int16} {now : Nat}
    (legal : s.Legal (.enqueue id corpusId trigger priority now)) :
    Goes Q rank holds s jobs (.enqueue id corpusId trigger priority now)
      (jobs ++ [.new id corpusId trigger priority now]) := by
  obtain ⟨fresh, later, fits⟩ := legal
  have absent : id ∉ jobs.map Job.id := by
    rw [ledger.ids]
    exact fresh
  obtain ⟨queue, answer, stored⟩ :=
    implements.enqueue ledger.stored id corpusId trigger priority now absent
  refine ⟨?_, keepsTerminal_append absent, trivial⟩
  simp only [QueueRun.apply, answer]
  refine ⟨stored, ?_, ?_, ledger.timely.append later fits, ledger.claims, ?_⟩
  · rw [List.map_append, ledger.ids]
    rfl
  · refine List.nodup_append.mpr ⟨ledger.nodup, List.nodup_singleton _, fun a mem b here same => ?_⟩
    have drawn : a = id := same.trans (List.mem_singleton.mp here)
    exact fresh (drawn ▸ mem)
  · intro claimedId mem
    obtain ⟨job, inside, rest⟩ := ledger.claimed claimedId mem
    exact ⟨job, List.mem_append_left _ inside, rest⟩

/-- A pending job has not been claimed. -/
theorem Ledger.unclaimed (ledger : Ledger holds s jobs) {job : Job} (mem : job ∈ jobs)
    (waits : job.status = .pending) : job.id ∉ s.claims := by
  intro claimed
  obtain ⟨other, inside, same, taken⟩ := ledger.claimed job.id claimed
  exact taken (List.inj_on_of_nodup_map ledger.ids_nodup inside mem same ▸ waits)

theorem Ledger.claimNext (implements : Implements Q rank clear holds)
    (ledger : Ledger holds s jobs) {order : List String} {now : Nat}
    (legal : s.Legal (.claimNext order now)) (calm : s.Calm Q clear (.claimNext order now)) :
    ∃ jobs', Goes Q rank holds s jobs (.claimNext order now) jobs' := by
  have known := ledger.jobs_eq implements
  have answer := implements.claimNext ledger.stored ledger.ids_nodup ledger.timely
    (known ▸ calm) order now
  rcases answer with ⟨answer, idle⟩ | ⟨job, queue, first, answer, stored⟩
  · refine ⟨jobs, ?_, .refl jobs, ?_⟩
    · simp only [QueueRun.apply, answer, Option.map_none, Option.toList_none, List.append_nil]
      exact { ledger with timely :=
        ⟨ledger.timely.sorted, fun job mem => Nat.le_trans (ledger.timely.past job mem) legal.1,
          ledger.timely.fits⟩ }
    · simp only [QueueRun.Fulfils, QueueRun.apply, answer, known]
      exact ⟨⟨fun _ => idle, fun _ => by simp⟩, fun id same => by simp at same⟩
  · have writes := first.writes ledger.ids_nodup now
    have next := ledger.rewritten writes stored legal.1
    refine ⟨_, ?_, writes.keeps, ?_⟩
    · simp only [QueueRun.apply, answer, Option.map_some, Option.toList_some]
      refine { next with claims := ?_, claimed := ?_ }
      · refine List.nodup_append.mpr ⟨ledger.claims, List.nodup_singleton _,
          fun a mem b here same => ?_⟩
        rw [List.mem_singleton.mp here] at same
        exact ledger.unclaimed first.mem first.1 (same ▸ mem)
      · intro id mem
        rcases List.mem_append.mp mem with old | new
        · exact next.claimed id old
        · rw [List.mem_singleton.mp new]
          refine ⟨job.claimed now, ?_, rfl, by simp [Job.claimed]⟩
          exact List.mem_map.mpr ⟨job, first.mem, by simp⟩
    · simp only [QueueRun.Fulfils, QueueRun.apply, answer, known]
      refine ⟨⟨fun same => by simp at same, fun idle => ?_⟩, fun id same => ⟨job, first, ?_⟩⟩
      · exact absurd first.1 (idle job first.mem)
      · simpa [Job.claimed] using same

/-- **One call** of a backend that keeps the ledger. -/
theorem Ledger.goes (implements : Implements Q rank clear holds) (ledger : Ledger holds s jobs)
    {call : JobCall} (legal : s.Legal call) (calm : s.Calm Q clear call) :
    ∃ jobs', Goes Q rank holds s jobs call jobs' := by
  cases call with
  | enqueue => exact ⟨_, ledger.enqueue implements legal⟩
  | get => exact ⟨jobs, ledger, .refl jobs, trivial⟩
  | claimNext => exact ledger.claimNext implements legal calm
  | updateProgress id progress now =>
      have writes := writes_progressed jobs id progress now
      have next := ledger.settle writes
        (implements.updateProgress ledger.stored ledger.ids_nodup id progress now) legal.1
      refine ⟨_, next, writes.keeps, fun id' => ?_⟩
      rw [implements.get ledger.stored]
      refine (congrArg _ (implements.get next.stored id')).trans ?_
      rw [findJob_rewriteJob writes.sameId]
      by_cases here : id' = id
      · rw [if_pos here, Option.map_map, here]
        rfl
      · rw [if_neg here]
  | finish id status error now =>
      have writes := writes_finished implements ledger calm
      exact ⟨_, ledger.settle writes
        (implements.finish ledger.stored ledger.ids_nodup id status error now) legal.2.1,
        writes.keeps, trivial⟩

/-! ## Whole runs -/

/-- The calls of a run are what the queue is promised, and calm. -/
def CalmRun (Q : JobQueue σ) (clear : List Job → Prop) (start : QueueRun σ)
    (calls : List JobCall) : Prop :=
  EachStep (QueueRun.step Q) (fun s call => s.Legal call ∧ s.Calm Q clear call) start calls

instance (Q : JobQueue σ) (clear : List Job → Prop) [DecidablePred clear] (start : QueueRun σ)
    (calls : List JobCall) : Decidable (CalmRun Q clear start calls) :=
  inferInstanceAs (Decidable (EachStep (QueueRun.step Q)
    (fun s call => s.Legal call ∧ s.Calm Q clear call) start calls))

/-- There is a ledger, and it has kept the terminal statuses of an earlier one. -/
def LedgerSince (holds : σ → List Job → Prop) (jobs : List Job) (t : QueueRun σ) : Prop :=
  ∃ jobs', Ledger holds t jobs' ∧ KeepsTerminal jobs jobs'

theorem Ledger.run (implements : Implements Q rank clear holds) (ledger : Ledger holds s jobs)
    {calls : List JobCall} {t : QueueRun σ} (calm : CalmRun Q clear s calls)
    (ran : exec (QueueRun.step Q) s calls = some t) : LedgerSince holds jobs t := by
  have start : LedgerSince holds jobs s := ⟨jobs, ledger, .refl jobs⟩
  refine exec_invariant ?_ start calm ran
  rintro m call _ ⟨now, ledger, kept⟩ ⟨legal, calm⟩ ⟨⟩
  obtain ⟨jobs', goes⟩ := ledger.goes implements legal calm
  exact ⟨jobs', goes.ledger, kept.trans goes.kept⟩

/-- **The contract of any backend that keeps the ledger.** -/
theorem contract_of_implements (implements : Implements Q rank clear holds)
    (ledger : Ledger holds s jobs) {calls : List JobCall} (calm : CalmRun Q clear s calls) :
    ContractHolds Q rank s calls := by
  intro past between future earlier later split reached ran
  rw [CalmRun, split] at calm
  obtain ⟨jobs', before, -⟩ := ledger.run implements calm.append_left.append_left reached
  have rest := calm.append_left.append_right reached
  obtain ⟨jobs'', after, kept⟩ := before.run implements rest ran
  refine ⟨after.claims, ?_, ?_⟩
  · intro id job found ended
    rw [implements.get before.stored] at found
    rw [implements.get after.stored]
    exact kept id job found ended
  · rintro call rfl
    obtain ⟨_, goes⟩ := before.goes implements rest.1.1 rest.1.2
    cases ran
    exact goes.fulfils

theorem ledger_start {queue : σ} (stored : holds queue []) : Ledger holds (.start queue) [] where
  stored := stored
  ids := rfl
  nodup := List.nodup_nil
  timely := ⟨List.Pairwise.nil, nofun, nofun⟩
  claims := List.nodup_nil
  claimed := nofun

end Calls

/-- **The job queue's contract.**  In every run of legal calls in which a finished job is
not finished another way, the table meets the whole contract; the hash map does when, in
addition, the pending jobs of each claim are `Distinguished`. -/
theorem jobQueue_contract (calls : List JobCall) :
    (CalmRun inMemory Distinguished (.start ∅) calls →
      ContractHolds inMemory (fun job => job.priority.toInt) (.start ∅) calls) ∧
    (CalmRun sqlite (fun _ => True) (.start []) calls →
      ContractHolds sqlite (fun _ => 0) (.start []) calls) :=
  ⟨contract_of_implements inMemory_implements (ledger_start fun _ => rfl),
    contract_of_implements sqlite_implements (ledger_start rfl)⟩

/-! ## Two runs -/

/-- Four jobs of three priorities and three seconds, claimed while others wait and run. -/
def severalJobs : List JobCall :=
  [.enqueue "a" "corpus" .manual 0 5, .enqueue "b" "docs" .manual 2 5,
    .enqueue "c" "corpus" .manual 2 6, .enqueue "d" "docs" .manual (-1) 7,
    .claimNext ["d", "c", "b", "a"] 8, .claimNext ["a", "c"] 8,
    .updateProgress "b" { stage := "parse", totalFiles := 3 } 9, .finish "b" .completed none 9,
    .claimNext ["d", "b"] 10, .finish "c" .failed (some "no disk") 11, .claimNext [] 12,
    .claimNext [] 12]

/-- Both backends meet their contracts: the hash map hands out by priority, and the table in the
order of the requests. -/
theorem jobQueue_contract_severalJobs :
    ((exec (QueueRun.step inMemory) (.start ∅) severalJobs).map QueueRun.claims =
        some ["b", "c", "a", "d"] ∧
      ContractHolds inMemory (fun job => job.priority.toInt) (.start ∅) severalJobs) ∧
    (exec (QueueRun.step sqlite) (.start []) severalJobs).map QueueRun.claims =
        some ["a", "b", "c", "d"] ∧
      ContractHolds sqlite (fun _ => 0) (.start []) severalJobs :=
  ⟨⟨by decide, (jobQueue_contract severalJobs).1 (by decide)⟩,
    by decide, (jobQueue_contract severalJobs).2 (by decide)⟩

/-- Two jobs of one priority within one second, and a hash map that is iterated from the
second one. -/
def burst : List JobCall :=
  [.enqueue "a" "corpus" .manual 0 5, .enqueue "b" "corpus" .manual 0 5, .claimNext ["b"] 6]

/-- **The later job overtakes**: the hash map hands out the second job of a burst. -/
theorem burst_overtakes :
    EachStep (QueueRun.step inMemory) QueueRun.Legal (.start ∅) burst ∧
    ¬ ContractHolds inMemory (fun job => job.priority.toInt) (.start ∅) burst := by
  refine ⟨by decide, ?_⟩
  intro holds
  have fulfils := (holds (burst.take 2) (burst.drop 2) [] _ _ rfl rfl rfl).2.2 _ rfl
  obtain ⟨job, ⟨-, before, after, split, first, -⟩, named⟩ := fulfils.2 "b" (by decide)
  cases before with
  | nil =>
      have : job = Job.new "a" "corpus" .manual 0 5 := (List.cons.inj split).1.symm
      rw [this] at named
      exact absurd named (by decide)
  | cons other before =>
      have here : other = Job.new "a" "corpus" .manual 0 5 := (List.cons.inj split).1.symm
      have lower := first other List.mem_cons_self (by rw [here]; rfl)
      have later : job ∈ [Job.new "b" "corpus" .manual 0 5] := by
        rw [show [Job.new "b" "corpus" .manual 0 5] = before ++ job :: after from
          (List.cons.inj split).2]
        simp
      rw [List.mem_singleton.mp later, here] at lower
      exact absurd lower (by decide)

end Ministr.Mcp
