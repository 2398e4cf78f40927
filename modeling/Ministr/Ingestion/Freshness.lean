/-
# Ingestion.Freshness — is the index up to date, file by file

`compute_freshness` walks the roots again and compares every file with the record that
ingestion left for it.  Files are keyed as ingestion keys them; where nothing is stored under the
key of a file, the key without its root id and the path itself are tried, for records of older
indexes, and a record that was matched is taken out of the map.

The report has one entry for each file, with the right state, exactly when the keys tell the
files apart and no file without a record finds the record of another one by such a fallback
(`freshness_agrees_iff`).  A new `docs/README.md` next to the source `README.md` does
(`readme_takes_record`).
-/
import Ministr.Daemon.CorpusId
import Ministr.Ingestion.Roots
import Ministr.Theory.RowSweep
import Mathlib.Data.Char
import Mathlib.Data.List.Lex
import Mathlib.Data.List.Sort

namespace Ministr.Ingestion.Freshness

open Ministr.Theory Ministr.Theory.UnixPath Ministr.Ingestion.Roots
open Ministr.Daemon (hexByte)

set_option autoImplicit false

inductive FreshnessState where
  | current
  | stale
  | new
  | missing
  deriving DecidableEq, Repr

structure FileFreshness where
  path : List Char
  state : FreshnessState
  deriving DecidableEq, Repr

/-- The files on disk, without symbolic links.  The content is `none` for bytes that are no UTF-8,
`shows root names` says whether the walk of a root comes upon an entry below it: the file is
supported, and no ignore rule hides it. -/
structure WorkingTree where
  cwd : List Name
  disk : Rows (List Name) (Option String)
  shows : List Char → List Name → Bool

namespace WorkingTree

variable (t : WorkingTree)

def isFile (path : List Char) : Bool := decide (resolve t.cwd path ∈ t.disk)

def isDir (path : List Char) : Bool :=
  t.disk.keys.any fun file =>
    decide (resolve t.cwd path <+: file ∧ resolve t.cwd path ≠ file)

/-- `discover_files_with_ignores`: the files below a directory in the order of their paths, or
the root itself, when it is a file. -/
def discoverFilesWithIgnores (root : List Char) : List (List Char) :=
  if t.isFile root then if t.shows root [] then [root] else []
  else
    let under := t.disk.keys.filter fun file => resolve t.cwd root <+: file
    let names := under.map fun file => file.drop (resolve t.cwd root).length
    ((names.filter (t.shows root)).insertionSort fun a b => a ≤ b).map (descend root)

section Hashed

variable (sha256 : List UInt8 → List UInt8) (contentHash : String → String)
  (roots : List (List Char))

/-- `compute_root_id`. -/
def computeRootId (path : List Char) : List Char :=
  "root-".toList ++
    ((sha256 (utf8 (String.ofList (canonicalize t.cwd path)))).take 8).flatMap hexByte

def dirRoots : List SourceRoot :=
  (roots.filter t.isDir).map fun path => ⟨path, t.computeRootId sha256 path⟩

/-- The files found, root after root. -/
def found : List (List Char) := roots.flatMap t.discoverFilesWithIgnores

def displayKey (file : List Char) : List Char :=
  relativeStorageKey t.cwd file (t.dirRoots sha256 roots) roots.length

/-- The key without its root id, and the path. -/
def fallbackKeys (file : List Char) : List (List Char) :=
  let key := t.displayKey sha256 roots file
  [(stripRootPrefix key).getD key, forwardSlashes file]

/-- `hash_working_file`. -/
def hashWorkingFile (location : List Name) : Option String :=
  (t.disk.lookup location).join.map contentHash

def stateOf (location : List Name) : Option String → FreshnessState
  | none => .new
  | some hash => if t.hashWorkingFile contentHash location = some hash then .current else .stale

/-- `compute_freshness`. -/
def computeFreshness (records : Rows (List Char) String) : List FileFreshness :=
  let swept := sweep (t.displayKey sha256 roots) (t.fallbackKeys sha256 roots) records
    (t.found roots)
  let matched : List FileFreshness := swept.out.map fun e =>
    ⟨t.displayKey sha256 roots e.1, t.stateOf contentHash (resolve t.cwd e.1) e.2⟩
  let left : List FileFreshness := swept.table.keys.map fun path => ⟨path, .missing⟩
  (matched ++ left).insertionSort fun a b => a.path ≤ b.path

end Hashed

end WorkingTree

/-! ## What ingestion wrote, and what the report should say -/

section Report

variable (t : WorkingTree) (sha256 : List UInt8 → List UInt8) (contentHash : String → String)
  (roots : List (List Char))

/-- The records of an index: the path of each file that ingestion wrote one for, with the hash of
the content it saw.  The table has one row for a key, a file has one record, and the files are
among those found now, or are found no longer. -/
structure Ingested where
  written : List (List Char × String)
  oneRow : (written.map fun w => t.displayKey sha256 roots w.1).Nodup
  oneRecord : (written.map fun w => resolve t.cwd w.1).Nodup
  origin : ∀ w ∈ written, w.1 ∈ t.found roots ∨
    ∀ file ∈ t.found roots, resolve t.cwd file ≠ resolve t.cwd w.1

namespace Ingested

variable {t sha256 roots} (i : Ingested t sha256 roots)

def records : Rows (List Char) String := writtenTable (t.displayKey sha256 roots) i.written

/-- The paths found now, and those that records were written for. -/
def known : List (List Char) := t.found roots ++ i.written.map Prod.fst

/-- The hash recorded for the file at a place. -/
def recordAt (location : List Name) : Option String :=
  (i.written.find? fun w => resolve t.cwd w.1 = location).map Prod.snd

/-- The entry is under a key of the file at the place. -/
def About (e : FileFreshness) (location : List Name) : Prop :=
  ∃ path ∈ i.known, resolve t.cwd path = location ∧ t.displayKey sha256 roots path = e.path

/-- A file that is found is new without a record, current with one of the hash of its content,
else stale; a file that is found no longer is missing. -/
def expected (location : List Name) : FreshnessState :=
  if ∃ file ∈ t.found roots, resolve t.cwd file = location then
    t.stateOf contentHash location (i.recordAt location)
  else .missing

/-- Every file has one entry, with its state, and every entry is that of one file. -/
structure Agrees (report : List FileFreshness) : Prop where
  once : report.Nodup
  files : ∀ path ∈ i.known, ∃ e ∈ report, i.About e (resolve t.cwd path) ∧
    e.state = i.expected contentHash (resolve t.cwd path) ∧
    ∀ other ∈ report, i.About other (resolve t.cwd path) → other = e
  entries : ∀ e ∈ report, ∃ location, i.About e location ∧
    ∀ other, i.About e other → other = location

/-- The sweep that the report is made from. -/
def swept : Sweep (List Char) (List Char) String :=
  sweep (t.displayKey sha256 roots) (t.fallbackKeys sha256 roots) i.records (t.found roots)

def report : List FileFreshness := t.computeFreshness sha256 contentHash roots i.records

theorem mem_report {e : FileFreshness} :
    e ∈ i.report contentHash ↔
      (∃ x ∈ i.swept.out, e = ⟨t.displayKey sha256 roots x.1,
        t.stateOf contentHash (resolve t.cwd x.1) x.2⟩) ∨
      ∃ k ∈ i.swept.table, e = ⟨k, .missing⟩ := by
  have sorted : (i.report contentHash).Perm _ := List.perm_insertionSort _ _
  rw [sorted.mem_iff, List.mem_append, List.mem_map, List.mem_map]
  simp only [swept, AList.mem_keys, eq_comm]

theorem recordAt_eq_some {location : List Name} {hash : String} :
    i.recordAt location = some hash ↔
      ∃ w ∈ i.written, resolve t.cwd w.1 = location ∧ w.2 = hash := by
  constructor
  · intro found
    obtain ⟨w, chosen, rfl⟩ := Option.map_eq_some_iff.mp found
    exact ⟨w, List.mem_of_find?_eq_some chosen, by simpa using List.find?_some chosen, rfl⟩
  · rintro ⟨w, mem, here, rfl⟩
    obtain ⟨w', chosen⟩ : ∃ w', i.written.find? (fun w => resolve t.cwd w.1 = location) = some w' :=
      Option.isSome_iff_exists.mp (List.find?_isSome.mpr ⟨w, mem, by simpa using here⟩)
    have there : resolve t.cwd w'.1 = location := by simpa using List.find?_some chosen
    rw [recordAt, chosen, List.inj_on_of_nodup_map i.oneRecord mem
      (List.mem_of_find?_eq_some chosen) (here.trans there.symm)]
    rfl

theorem sees : Sees (t.displayKey sha256 roots) (t.found roots) i.swept :=
  sees_sweep _ _ _ _

/-- Every file that is found has an entry under its key. -/
theorem exists_entry {file : List Char} (mem : file ∈ t.found roots) :
    ∃ x ∈ i.swept.out, t.displayKey sha256 roots x.1 = t.displayKey sha256 roots file := by
  have seen := (i.sees.out _).mpr ((i.sees.seen _).mpr ⟨file, mem, rfl⟩)
  simpa using List.mem_map.mp seen

theorem about_found {e : FileFreshness} {file : List Char} (mem : file ∈ t.found roots)
    (key : e.path = t.displayKey sha256 roots file) : i.About e (resolve t.cwd file) :=
  ⟨file, List.mem_append_left _ mem, rfl, key.symm⟩

/-- A known path is found, or a record was written for it and nothing is found there. -/
theorem known_cases {path : List Char} (known : path ∈ i.known) :
    path ∈ t.found roots ∨ ∃ w ∈ i.written, w.1 = path ∧
      ∀ file ∈ t.found roots, resolve t.cwd file ≠ resolve t.cwd path := by
  rcases List.mem_append.mp known with found | recorded
  · exact .inl found
  · obtain ⟨w, mem, rfl⟩ := List.mem_map.mp recorded
    exact (i.origin w mem).imp_right fun gone => ⟨w, mem, rfl, gone⟩

/-- A report that agrees with the files tells their keys apart. -/
theorem Agrees.keysTell {i : Ingested t sha256 roots} {contentHash : String → String}
    (agrees : i.Agrees contentHash (i.report contentHash)) :
    KeysTell (t.displayKey sha256 roots) (resolve t.cwd) i.known := by
  have entryOf : ∀ file ∈ t.found roots, ∃ e ∈ i.report contentHash,
      e.path = t.displayKey sha256 roots file := by
    intro file mem
    obtain ⟨x, listed, key⟩ := i.exists_entry mem
    exact ⟨_, (i.mem_report contentHash).mpr (.inl ⟨x, listed, rfl⟩), key⟩
  have shared : ∀ file ∈ t.found roots, ∀ path ∈ i.known,
      t.displayKey sha256 roots file = t.displayKey sha256 roots path →
      resolve t.cwd file = resolve t.cwd path := by
    intro file mem path known same
    obtain ⟨e, listed, key⟩ := entryOf file mem
    obtain ⟨location, -, only⟩ := agrees.entries e listed
    exact (only _ (i.about_found mem key)).trans
      (only _ ⟨path, known, rfl, same.symm.trans key.symm⟩).symm
  have split : ∀ file ∈ t.found roots, ∀ other ∈ t.found roots,
      resolve t.cwd file = resolve t.cwd other →
      t.displayKey sha256 roots file = t.displayKey sha256 roots other := by
    intro file mem other mem' here
    obtain ⟨e, listed, key⟩ := entryOf file mem
    obtain ⟨e', listed', key'⟩ := entryOf other mem'
    obtain ⟨one, -, -, -, only⟩ := agrees.files file (List.mem_append_left _ mem)
    have same := (only e listed (i.about_found mem key)).trans
      (only e' listed' (here ▸ i.about_found mem' key')).symm
    rw [← key, ← key', same]
  intro p knownP q knownQ
  rcases i.known_cases knownP with memP | ⟨w, memW, rfl, goneP⟩
  · rcases i.known_cases knownQ with memQ | ⟨w, memW, rfl, goneQ⟩
    · exact ⟨shared p memP q knownQ, split p memP q memQ⟩
    · exact ⟨shared p memP w.1 knownQ, fun here => absurd here (goneQ p memP)⟩
  · rcases i.known_cases knownQ with memQ | ⟨w', memW', rfl, goneQ⟩
    · exact ⟨fun same => (shared q memQ w.1 knownP same.symm).symm,
        fun here => absurd here.symm (goneP q memQ)⟩
    · refine ⟨fun same => ?_, fun here => ?_⟩
      · rw [List.inj_on_of_nodup_map i.oneRow memW memW' same]
      · rw [List.inj_on_of_nodup_map i.oneRecord memW memW' here]

theorem stateOf_ne_new (location : List Name) (hash : String) :
    t.stateOf contentHash location (some hash) ≠ .new := by
  rw [WorkingTree.stateOf]
  split <;> decide

/-- What the files are keyed by tells them apart, and nothing shares a record. -/
def KeyedApart : Prop :=
  KeysTell (t.displayKey sha256 roots) (resolve t.cwd) i.known ∧
    NoneShared (t.displayKey sha256 roots) (t.fallbackKeys sha256 roots) (resolve t.cwd) i.written
      (t.found roots)

/-- A report that agrees with the files matches no file with the record of another. -/
theorem Agrees.keyedApart {i : Ingested t sha256 roots} {contentHash : String → String}
    (agrees : i.Agrees contentHash (i.report contentHash)) : i.KeyedApart := by
  have tell := agrees.keysTell
  refine ⟨tell, ?_⟩
  rcases sweep_cases i.oneRow i.oneRecord tell with ⟨none, -⟩ | ⟨-, x, mem, taken, bare⟩
  · exact none
  · exfalso
    obtain ⟨hash, given⟩ := Option.ne_none_iff_exists'.mp taken
    have file := i.sees.things x mem
    obtain ⟨e, -, -, state, only⟩ := agrees.files x.1 (List.mem_append_left _ file)
    have here := only _ ((i.mem_report contentHash).mpr (.inl ⟨x, mem, rfl⟩))
      (i.about_found file rfl)
    have new : i.recordAt (resolve t.cwd x.1) = none :=
      Option.eq_none_iff_forall_ne_some.mpr fun hash found => by
        obtain ⟨w, listed, there, -⟩ := i.recordAt_eq_some.mp found
        exact bare w listed there
    rw [expected, if_pos ⟨x.1, file, rfl⟩, new, ← here, given] at state
    exact stateOf_ne_new contentHash _ _ state

section Keyed

variable {i : Ingested t sha256 roots} (apart : i.KeyedApart)
include apart

theorem KeyedApart.settles :
    Settles (t.displayKey sha256 roots) (resolve t.cwd) i.written (t.found roots) i.swept := by
  rcases sweep_cases i.oneRow i.oneRecord apart.1 with ⟨-, settles⟩ | ⟨shared, -⟩
  · exact settles
  · exact absurd apart.2 shared

/-- The rows that are left are those of files found no longer. -/
theorem KeyedApart.left {k : List Char} (mem : k ∈ i.swept.table) :
    ∃ w ∈ i.written, t.displayKey sha256 roots w.1 = k ∧
      ∀ file ∈ t.found roots, resolve t.cwd file ≠ resolve t.cwd w.1 := by
  obtain ⟨hash, there⟩ := (Rows.mem_iff_lookup _ _).mp mem
  obtain ⟨w, listed, key, -, gone⟩ := (apart.settles.left k hash).mp there
  exact ⟨w, listed, key, gone⟩

theorem KeyedApart.paths_nodup : ((i.report contentHash).map FileFreshness.path).Nodup := by
  have sorted : (i.report contentHash).Perm _ := List.perm_insertionSort _ _
  rw [(sorted.map FileFreshness.path).nodup_iff, List.map_append, List.map_map, List.map_map]
  refine List.nodup_append.mpr ⟨i.sees.once, ?_, fun k mem other left => ?_⟩
  · simpa [Function.comp_def, swept] using i.swept.table.keys_nodup
  · rintro rfl
    obtain ⟨x, listed, rfl⟩ := List.mem_map.mp mem
    have row : t.displayKey sha256 roots x.1 ∈ i.swept.table := by
      rw [AList.mem_keys]
      simpa [Function.comp_def, swept] using left
    obtain ⟨w, written, key, gone⟩ := apart.left row
    have file := i.sees.things x listed
    refine gone x.1 file ?_
    exact (apart.1 x.1 (List.mem_append_left _ file) w.1
      (List.mem_append_right _ (List.mem_map_of_mem written))).mp key.symm

/-- An entry under the key of a file is its only one. -/
theorem KeyedApart.only {path : List Char} (known : path ∈ i.known) {e : FileFreshness}
    (mem : e ∈ i.report contentHash) (key : e.path = t.displayKey sha256 roots path)
    {other : FileFreshness} (mem' : other ∈ i.report contentHash)
    (about : i.About other (resolve t.cwd path)) : other = e := by
  obtain ⟨path', known', here, key'⟩ := about
  have same := (apart.1 path' known' path known).mpr here
  exact List.inj_on_of_nodup_map (apart.paths_nodup contentHash) mem' mem
    (key'.symm.trans (same.trans key.symm))

theorem KeyedApart.agrees : i.Agrees contentHash (i.report contentHash) := by
  refine ⟨(apart.paths_nodup contentHash).of_map _, fun path known => ?_, fun e mem => ?_⟩
  · by_cases there : ∃ file ∈ t.found roots, resolve t.cwd file = resolve t.cwd path
    · obtain ⟨file, found, here⟩ := there
      obtain ⟨x, listed, key⟩ := i.exists_entry found
      have fileX := i.sees.things x listed
      have knownX : x.1 ∈ i.known := List.mem_append_left _ fileX
      have place : resolve t.cwd x.1 = resolve t.cwd path :=
        ((apart.1 x.1 knownX file (List.mem_append_left _ found)).mp key).trans here
      have row : x.2 = i.recordAt (resolve t.cwd path) := by
        refine Option.ext fun hash => ?_
        rw [apart.settles.own x listed hash, i.recordAt_eq_some, place]
      have entry := (i.mem_report contentHash).mpr (.inl ⟨x, listed, rfl⟩)
      have keyed := (apart.1 x.1 knownX path known).mpr place
      refine ⟨_, entry, ⟨path, known, rfl, keyed.symm⟩, ?_, fun other mem' about =>
        apart.only contentHash known entry keyed mem' about⟩
      rw [expected, if_pos ⟨file, found, here⟩, place, row]
    · rcases i.known_cases known with found | ⟨w, written, rfl, gone⟩
      · exact absurd ⟨path, found, rfl⟩ there
      · have row : t.displayKey sha256 roots w.1 ∈ i.swept.table :=
          (Rows.mem_iff_lookup _ _).mpr
            ⟨w.2, (apart.settles.left _ _).mpr ⟨w, written, rfl, rfl, gone⟩⟩
        have entry := (i.mem_report contentHash).mpr (.inr ⟨_, row, rfl⟩)
        refine ⟨_, entry, ⟨w.1, known, rfl, rfl⟩, ?_, fun other mem' about =>
          apart.only contentHash known entry rfl mem' about⟩
        rw [expected, if_neg there]
  · obtain ⟨path, known, key⟩ : ∃ path ∈ i.known, t.displayKey sha256 roots path = e.path := by
      rcases (i.mem_report contentHash).mp mem with ⟨x, listed, rfl⟩ | ⟨k, row, rfl⟩
      · exact ⟨x.1, List.mem_append_left _ (i.sees.things x listed), rfl⟩
      · obtain ⟨w, written, key, -⟩ := apart.left row
        exact ⟨w.1, List.mem_append_right _ (List.mem_map_of_mem written), key⟩
    refine ⟨resolve t.cwd path, ⟨path, known, rfl, key⟩, ?_⟩
    rintro other ⟨path', known', rfl, key'⟩
    exact (apart.1 path' known' path known).mp (key'.trans key.symm)

end Keyed

end Ingested

end Report

/-- **Freshness agrees with ingestion** exactly where the keys tell the files apart and no file
without a record finds that of another one by a fallback. -/
theorem freshness_agrees_iff (t : WorkingTree) (sha256 : List UInt8 → List UInt8)
    (contentHash : String → String) (roots : List (List Char)) (i : Ingested t sha256 roots) :
    i.Agrees contentHash (t.computeFreshness sha256 contentHash roots i.records) ↔ i.KeyedApart :=
  ⟨fun agrees => agrees.keyedApart, fun apart => apart.agrees contentHash⟩

/-- Right after a complete run every entry is current, where the keys tell the files apart. -/
theorem current_after_ingest (t : WorkingTree) (sha256 : List UInt8 → List UInt8)
    (contentHash : String → String) (roots : List (List Char)) (i : Ingested t sha256 roots)
    (tell : KeysTell (t.displayKey sha256 roots) (resolve t.cwd) i.known)
    (complete : ∀ file ∈ t.found roots, ∃ w ∈ i.written, resolve t.cwd w.1 = resolve t.cwd file)
    (fresh : ∀ w ∈ i.written, w.1 ∈ t.found roots ∧
      t.hashWorkingFile contentHash (resolve t.cwd w.1) = some w.2) :
    ∀ e ∈ t.computeFreshness sha256 contentHash roots i.records, e.state = .current := by
  have apart : i.KeyedApart := by
    refine ⟨tell, fun before file after whole shares => ?_⟩
    obtain ⟨w, written, here⟩ := complete file (by simp [whole])
    exact shares.2.1 w written here
  intro e mem
  have agrees := apart.agrees contentHash
  obtain ⟨location, ⟨path, known, rfl, key⟩, -⟩ := agrees.entries e mem
  obtain ⟨e', -, -, state, only⟩ := agrees.files path known
  have found : path ∈ t.found roots := by
    rcases i.known_cases known with found | ⟨w, written, rfl, gone⟩
    · exact found
    · exact (fresh w written).1
  obtain ⟨w, written, here⟩ := complete path found
  have row := i.recordAt_eq_some.mpr ⟨w, written, here, rfl⟩
  have hashed := (fresh w written).2
  rw [here] at hashed
  rw [only e mem ⟨path, known, rfl, key⟩, state, Ingested.expected, if_pos ⟨path, found, rfl⟩, row,
    WorkingTree.stateOf, if_pos hashed]

/-- Two sources, a directory and a file beside it. -/
def readmeTree : WorkingTree where
  cwd := ["w".toList]
  disk := Rows.upsertAll ∅ [(["w".toList, "README.md".toList], some "hello"),
    (["w".toList, "docs".toList, "README.md".toList], some "docs")]
  shows := fun _ _ => true

def zeroHash (_ : List UInt8) : List UInt8 := List.replicate 32 0

/-- `README.md` was ingested, `docs/README.md` is new. -/
def readmeIngested : Ingested readmeTree zeroHash ["docs".toList, "README.md".toList] where
  written := [("README.md".toList, "hello")]
  oneRow := by simp
  oneRecord := by simp
  origin := by
    intro w mem
    rw [List.mem_singleton.mp mem]
    exact .inl (by decide)

/-- The new file takes the record of the other, and that one is reported as new. -/
theorem readme_takes_record :
    readmeTree.computeFreshness zeroHash id ["docs".toList, "README.md".toList]
        readmeIngested.records =
      [⟨"README.md".toList, .new⟩, ⟨"root-0000000000000000/README.md".toList, .stale⟩] ∧
    readmeIngested.expected id ["w".toList, "README.md".toList] = .current ∧
    readmeIngested.expected id ["w".toList, "docs".toList, "README.md".toList] = .new := by
  decide

end Ministr.Ingestion.Freshness
