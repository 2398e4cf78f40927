/-
# Ingestion.StatMerkle — the fingerprint of a file tree

A rooted corpus remembers what its last run saw: one hash over the stat entries
(relative path, mtime, size) of all files, and one hash for each directory over the
entries of the files directly in it.  Equal hashes mean equal entries
(`statEntries_of_rootHash`, `dirEntries_of_nodeHash`), provided the hash function has no
collision; a file name cannot hold the NUL byte that ends a path in the encoding.

The fingerprint writes `/` for `\`, so two paths may share one spelling in it.
-/
import Ministr.Ingestion.Workspace
import Ministr.Theory.Bytes
import Mathlib.Data.String.Basic

namespace Ministr.Ingestion

open Ministr.Theory Ministr.Content

set_option autoImplicit false

/-- A discovered file.  `modified` is the time since the epoch in nanoseconds, where the
file system has one; `text` is `none` for bytes that are no UTF-8. -/
structure File where
  modified : Option Nat
  size : UInt64
  text : Option String
  deriving DecidableEq, Repr

/-- What `i64::try_from` makes of the modification time. -/
def File.nanos (file : File) : Option Nat := file.modified.filter fun n => n < 2 ^ 63

/-- `file_mtime_nanos`. -/
def File.mtimeNanos (file : File) : Option Int := file.nanos.map Int.ofNat

/-- The entry of a file in the fingerprint: its spelling, `mtime_ns` and size. -/
@[ext] structure StatEntry where
  rel : String
  mtimeNs : Nat
  size : UInt64
  deriving DecidableEq, Repr

/-- The order of the tuples: path, then mtime, then size. -/
def StatEntry.le (a b : StatEntry) : Bool :=
  a.rel < b.rel ∨ a.rel = b.rel ∧ (a.mtimeNs < b.mtimeNs ∨ a.mtimeNs = b.mtimeNs ∧ a.size ≤ b.size)

/-- `to_string_lossy().replace('\\', "/")`. -/
def spelling (path : String) : String :=
  String.ofList (path.toList.map fun c => if c = '\\' then '/' else c)

/-- The stat entry of a path; a file without a modification time counts as 0. -/
def statEntry (path : String) (file : File) : StatEntry where
  rel := spelling path
  mtimeNs := file.nanos.getD 0
  size := file.size

/-- The part of a spelling before its last slash. -/
def dirOf (rel : String) : String :=
  String.ofList ((rel.toList.reverse.dropWhile fun c => c ≠ '/').drop 1).reverse

/-- The mtime and the size of an entry, and the newline behind them. -/
def StatEntry.fields (entry : StatEntry) : List UInt8 :=
  leBytes 8 entry.mtimeNs ++ leBytes 8 entry.size.toNat ++ [10]

/-- The bytes a list of entries is hashed as: `v1\0`, then each entry. -/
def fingerprint (entries : List StatEntry) : List UInt8 :=
  utf8 "v1" ++ 0 :: entries.flatMap fun entry => utf8 entry.rel ++ 0 :: entry.fields

theorem StatEntry.le_trans (a b c : StatEntry) (ab : a.le b = true) (bc : b.le c = true) :
    a.le c = true := by
  simp only [StatEntry.le, decide_eq_true_eq] at *
  rcases ab with ab | ⟨ab, ab'⟩
  · rcases bc with bc | ⟨bc, -⟩
    · exact .inl (String.lt_trans ab bc)
    · exact .inl (bc ▸ ab)
  · rcases bc with bc | ⟨bc, bc'⟩
    · exact .inl (ab ▸ bc)
    · refine .inr ⟨ab.trans bc, ?_⟩
      rcases ab' with ab' | ⟨ab', sizeAB⟩
      · rcases bc' with bc' | ⟨bc', -⟩ <;> exact .inl (by omega)
      · rcases bc' with bc' | ⟨bc', sizeBC⟩
        · exact .inl (by omega)
        · exact .inr ⟨ab'.trans bc', UInt64.le_trans sizeAB sizeBC⟩

theorem StatEntry.le_total (a b : StatEntry) : (a.le b || b.le a) = true := by
  simp only [StatEntry.le, Bool.or_eq_true_iff, decide_eq_true_eq]
  rcases lt_trichotomy a.rel b.rel with less | same | more
  · exact .inl (.inl less)
  · rcases Nat.lt_trichotomy a.mtimeNs b.mtimeNs with less | sameTime | more
    · exact .inl (.inr ⟨same, .inl less⟩)
    · rcases UInt64.le_total a.size b.size with small | large
      · exact .inl (.inr ⟨same, .inr ⟨sameTime, small⟩⟩)
      · exact .inr (.inr ⟨same.symm, .inr ⟨sameTime.symm, large⟩⟩)
    · exact .inr (.inr ⟨same.symm, .inl more⟩)
  · exact .inr (.inl more)

theorem StatEntry.le_antisymm {a b : StatEntry} (ab : a.le b = true) (ba : b.le a = true) :
    a = b := by
  simp only [StatEntry.le, decide_eq_true_eq] at *
  rcases ab with ab | ⟨same, ab⟩
  · rcases ba with ba | ⟨same, -⟩
    · exact absurd ab (String.lt_asymm ba)
    · exact absurd ab (same ▸ String.lt_irrefl _)
  · rcases ba with ba | ⟨-, ba⟩
    · exact absurd ba (same ▸ String.lt_irrefl _)
    · rcases ab with ab | ⟨sameTime, ab⟩
      · rcases ba with ba | ⟨sameTime, -⟩ <;> omega
      · rcases ba with ba | ⟨-, ba⟩
        · omega
        · exact StatEntry.ext same sameTime (UInt64.le_antisymm ab ba)

/-- The files a walk turns up, by path relative to the root. -/
structure FileTree where
  files : Rows String File
  nulFree : ∀ path ∈ files, '\x00' ∉ path.toList

namespace FileTree

def empty : FileTree where
  files := ∅
  nulFree := fun path mem => absurd mem (AList.notMem_empty path)

/-- The discovered paths, sorted. -/
def paths (tree : FileTree) : List String := tree.files.keys.mergeSort fun a b => a ≤ b

/-- The stat entries of all files, in the order of the table. -/
def statEntries (tree : FileTree) : List StatEntry :=
  (tree.files.select fun _ _ => true).map fun e => statEntry e.1 e.2

/-- The entries in the order `compute_corpus_stat_merkle` hashes them. -/
def sortedEntries (tree : FileTree) : List StatEntry :=
  tree.statEntries.mergeSort fun a b => a.rel ≤ b.rel

/-- The entries of one directory, sorted as `compute_dir_merkle_nodes` sorts them. -/
def dirEntries (tree : FileTree) (dir : String) : List StatEntry :=
  (tree.statEntries.filter fun entry => dirOf entry.rel = dir).mergeSort StatEntry.le

/-- The directories that hold a file. -/
def dirs (tree : FileTree) : List String :=
  (tree.statEntries.map fun entry => dirOf entry.rel).dedup.mergeSort fun a b => a ≤ b

section Hashes

variable (blake3 : List UInt8 → String)

/-- The root hash of `compute_corpus_stat_merkle`. -/
def rootHash (tree : FileTree) : String := blake3 (fingerprint tree.sortedEntries)

/-- The hash of one directory. -/
def nodeHash (tree : FileTree) (dir : String) : String :=
  blake3 (fingerprint (tree.dirEntries dir))

/-- `compute_dir_merkle_nodes`. -/
def dirMerkleNodes (tree : FileTree) : List (String × String) :=
  tree.dirs.map fun dir => (dir, tree.nodeHash blake3 dir)

end Hashes

/-! ## Reading the entries back -/

theorem mem_paths {tree : FileTree} {path : String} : path ∈ tree.paths ↔ path ∈ tree.files := by
  unfold paths
  rw [List.mem_mergeSort]
  exact AList.mem_keys

theorem mem_statEntries {tree : FileTree} {entry : StatEntry} :
    entry ∈ tree.statEntries ↔
      ∃ path file, tree.files.lookup path = some file ∧ entry = statEntry path file := by
  simp only [statEntries, List.mem_map, Prod.exists, Rows.mem_select]
  constructor
  · rintro ⟨path, file, ⟨found, -⟩, rfl⟩
    exact ⟨path, file, found, rfl⟩
  · rintro ⟨path, file, found, rfl⟩
    exact ⟨path, file, ⟨found, trivial⟩, rfl⟩

theorem mem_sortedEntries {tree : FileTree} {entry : StatEntry} :
    entry ∈ tree.sortedEntries ↔ entry ∈ tree.statEntries :=
  List.mem_mergeSort

theorem mem_dirEntries {tree : FileTree} {dir : String} {entry : StatEntry} :
    entry ∈ tree.dirEntries dir ↔ entry ∈ tree.statEntries ∧ dirOf entry.rel = dir := by
  simp [dirEntries, List.mem_mergeSort]

theorem mem_dirs {tree : FileTree} {dir : String} :
    dir ∈ tree.dirs ↔ ∃ entry ∈ tree.statEntries, dirOf entry.rel = dir := by
  simp [dirs, List.mem_mergeSort, List.mem_dedup]

/-- What the encoding needs of an entry. -/
def Encodable (entry : StatEntry) : Prop :=
  (0 : UInt8) ∉ utf8 entry.rel ∧ entry.mtimeNs < 2 ^ 63

theorem encodable {tree : FileTree} {entry : StatEntry} (mem : entry ∈ tree.statEntries) :
    Encodable entry := by
  obtain ⟨path, file, found, rfl⟩ := mem_statEntries.mp mem
  refine ⟨zero_notMem_utf8 ?_, ?_⟩
  · have plain := tree.nulFree path ((Rows.mem_iff_lookup _ _).mpr ⟨file, found⟩)
    simp only [statEntry, spelling, String.toList_ofList, List.mem_map, not_exists, not_and]
    intro c listed
    split
    · decide
    · rintro rfl
      exact plain listed
  · simp only [statEntry, File.nanos]
    cases file.modified with
    | none => decide
    | some n =>
        simp only [Option.filter, decide_eq_true_eq]
        split
        · assumption
        · decide

/-- **The fingerprint keeps its entries**, whatever the 64 bits of the mtimes. -/
theorem fingerprint_injective_of_width {entries entries' : List StatEntry}
    (good : ∀ entry ∈ entries, (0 : UInt8) ∉ utf8 entry.rel ∧ entry.mtimeNs < 2 ^ 64)
    (good' : ∀ entry ∈ entries', (0 : UInt8) ∉ utf8 entry.rel ∧ entry.mtimeNs < 2 ^ 64)
    (same : fingerprint entries = fingerprint entries') : entries = entries' := by
  have records := (List.cons.inj (List.append_cancel_left same)).2
  have width : ∀ entry : StatEntry, entry.fields.length = 17 := by
    intro entry
    simp [StatEntry.fields]
  refine flatMap_separated_injective width ?_ (fun entry mem => (good entry mem).1)
    (fun entry mem => (good' entry mem).1) records
  · intro a memA b memB names fields
    obtain ⟨front, -⟩ := List.append_inj fields (by simp)
    obtain ⟨mtimes, sizes⟩ := List.append_inj front (by simp)
    have mtime : a.mtimeNs = b.mtimeNs := by
      have fits := (good a memA).2
      have fits' := (good' b memB).2
      exact leBytes_injective (by omega) (by omega) mtimes
    have size : a.size = b.size :=
      UInt64.toNat_inj.mp (leBytes_injective a.size.toNat_lt b.size.toNat_lt sizes)
    exact StatEntry.ext (utf8_injective names) mtime size

theorem fingerprint_injective {entries entries' : List StatEntry}
    (good : ∀ entry ∈ entries, Encodable entry) (good' : ∀ entry ∈ entries', Encodable entry)
    (same : fingerprint entries = fingerprint entries') : entries = entries' := by
  have narrow : ∀ entry, Encodable entry → (0 : UInt8) ∉ utf8 entry.rel ∧ entry.mtimeNs < 2 ^ 64 :=
    fun entry good => ⟨good.1, Nat.lt_trans good.2 (by decide)⟩
  exact fingerprint_injective_of_width (fun entry mem => narrow entry (good entry mem))
    (fun entry mem => narrow entry (good' entry mem)) same

/-- The same entries, sorted, are the same list. -/
theorem dirEntries_congr {tree tree' : FileTree} (same : tree.statEntries.Perm tree'.statEntries)
    (dir : String) : tree.dirEntries dir = tree'.dirEntries dir := by
  have perm : (tree.dirEntries dir).Perm (tree'.dirEntries dir) :=
    (List.mergeSort_perm _ _).trans ((same.filter _).trans (List.mergeSort_perm _ _).symm)
  refine perm.eq_of_pairwise (fun a b _ _ ab ba => StatEntry.le_antisymm ab ba) ?_ ?_
  · exact List.pairwise_mergeSort StatEntry.le_trans StatEntry.le_total _
  · exact List.pairwise_mergeSort StatEntry.le_trans StatEntry.le_total _

section Collisions

variable {blake3 : List UInt8 → String} (collisionFree : Function.Injective blake3)

include collisionFree

/-- Equal root hashes mean equal entries. -/
theorem statEntries_of_rootHash {tree tree' : FileTree}
    (same : tree.rootHash blake3 = tree'.rootHash blake3) :
    tree.statEntries.Perm tree'.statEntries := by
  have sorted : tree.sortedEntries = tree'.sortedEntries := by
    refine fingerprint_injective ?_ ?_ (collisionFree same)
    · intro entry mem
      exact encodable (mem_sortedEntries.mp mem)
    · intro entry mem
      exact encodable (mem_sortedEntries.mp mem)
  have perm : tree.sortedEntries.Perm tree.statEntries := List.mergeSort_perm _ _
  have perm' : tree'.sortedEntries.Perm tree'.statEntries := List.mergeSort_perm _ _
  rw [sorted] at perm
  exact perm.symm.trans perm'

/-- Equal node hashes mean equal directories. -/
theorem dirEntries_of_nodeHash {tree tree' : FileTree} {dir : String}
    (same : tree.nodeHash blake3 dir = tree'.nodeHash blake3 dir) :
    tree.dirEntries dir = tree'.dirEntries dir := by
  refine fingerprint_injective ?_ ?_ (collisionFree same)
  · intro entry mem
    exact encodable (mem_dirEntries.mp mem).1
  · intro entry mem
    exact encodable (mem_dirEntries.mp mem).1

end Collisions

end FileTree

/-- A tree of one file. -/
def oneFile (path : String) (plain : '\x00' ∉ path.toList) (file : File) : FileTree where
  files := (∅ : Rows String File).insert path file
  nulFree := by
    intro path' mem
    rcases (AList.mem_insert _).mp mem with rfl | mem
    · exact plain
    · exact absurd mem (AList.notMem_empty path')

end Ministr.Ingestion
