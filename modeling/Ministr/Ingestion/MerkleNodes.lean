/-
# Ingestion.MerkleNodes — the root hash and the nodes say the same

`compute_corpus_stat_merkle` hashes all entries of a tree in one string, sorted by path;
`compute_dir_merkle_nodes` hashes each directory by itself, its entries sorted as tuples.

* `fingerprint_injective_of_width`: no byte of a 64-bit field is taken for a separator;
* `dirs_flatMap_dirEntries`: the groups of the nodes are a partition of the entries;
* `sortedEntries_congr`: the walk leaves no trace, if no two files share a spelling;
* `rootHash_eq_iff_nodes`: the two functions tell the same trees apart.

Two files share a spelling where their paths differ in `\` against `/` only; the entries do
not tell such paths apart (`backslash_path_lost`).
-/
import Ministr.Ingestion.StatMerkle
import Ministr.Theory.Grouping
import Ministr.Theory.LeastFirst
import Mathlib.Data.Set.Function

namespace Ministr.Ingestion

open Ministr.Theory Ministr.Content

set_option autoImplicit false

namespace FileTree

/-- No two files of the tree share a spelling. -/
def SpelledApart (tree : FileTree) : Prop :=
  (tree.statEntries.map StatEntry.rel).Nodup

/-- The byte strings the two functions hash for a tree. -/
def Hashed (tree : FileTree) (bytes : List UInt8) : Prop :=
  bytes = fingerprint tree.sortedEntries ∨ ∃ dir, bytes = fingerprint (tree.dirEntries dir)

/-- BLAKE3 has no collision among what it is given for the two trees. -/
def NoCollision (blake3 : List UInt8 → String) (tree tree' : FileTree) : Prop :=
  Set.InjOn blake3 {bytes | tree.Hashed bytes ∨ tree'.Hashed bytes}

/-! ## Equal bytes -/

theorem sortedEntries_encodable (tree : FileTree) :
    ∀ entry ∈ tree.sortedEntries, Encodable entry :=
  fun _ mem => encodable (mem_sortedEntries.mp mem)

theorem dirEntries_encodable (tree : FileTree) (dir : String) :
    ∀ entry ∈ tree.dirEntries dir, Encodable entry :=
  fun _ mem => encodable (mem_dirEntries.mp mem).1

theorem SpelledApart.nodup {tree : FileTree} (apart : tree.SpelledApart) :
    tree.statEntries.Nodup :=
  List.Nodup.of_map _ apart

theorem SpelledApart.perm_iff {tree tree' : FileTree} (apart : tree.SpelledApart)
    (apart' : tree'.SpelledApart) :
    tree.statEntries.Perm tree'.statEntries ↔
      ∀ entry, entry ∈ tree.statEntries ↔ entry ∈ tree'.statEntries :=
  List.perm_ext_iff_of_nodup apart.nodup apart'.nodup

/-- **The order of the walk leaves no trace in the bytes.** -/
theorem sortedEntries_congr {tree tree' : FileTree} (apart : tree.SpelledApart)
    (same : tree.statEntries.Perm tree'.statEntries) :
    tree.sortedEntries = tree'.sortedEntries := by
  have perm : tree.sortedEntries.Perm tree'.sortedEntries :=
    (List.mergeSort_perm _ _).trans (same.trans (List.mergeSort_perm _ _).symm)
  have sorted : ∀ t : FileTree, t.sortedEntries.Pairwise fun a b => a.rel ≤ b.rel :=
    fun t => pairwise_sortByKey t.statEntries
  refine perm.eq_of_pairwise ?_ (sorted tree) (sorted tree')
  intro a b memA memB ab ba
  have spelled : a.rel = b.rel := le_antisymm ab ba
  have listed := mem_sortedEntries.mp memA
  have listed' : b ∈ tree.statEntries := same.mem_iff.mpr (mem_sortedEntries.mp memB)
  exact List.inj_on_of_nodup_map apart listed listed' spelled

theorem statEntries_of_sortedEntries {tree tree' : FileTree}
    (same : tree.sortedEntries = tree'.sortedEntries) :
    tree.statEntries.Perm tree'.statEntries := by
  have perm : tree.sortedEntries.Perm tree.statEntries := List.mergeSort_perm _ _
  have perm' : tree'.sortedEntries.Perm tree'.statEntries := List.mergeSort_perm _ _
  rw [same] at perm
  exact perm.symm.trans perm'

/-! ## The partition -/

theorem nodup_dirs (tree : FileTree) : tree.dirs.Nodup :=
  (List.mergeSort_perm _ _).nodup_iff.mpr (List.nodup_dedup _)

/-- **The nodes split the entries by their directory**, each into exactly one group. -/
theorem dirs_flatMap_dirEntries (tree : FileTree) :
    (tree.dirs.flatMap tree.dirEntries).Perm tree.statEntries := by
  have grouped := flatMap_filter_perm (f := fun entry : StatEntry => dirOf entry.rel)
    tree.nodup_dirs (l := tree.statEntries)
    fun entry mem => mem_dirs.mpr ⟨entry, mem, rfl⟩
  refine List.Perm.trans ?_ grouped
  exact List.Perm.flatMap_left _ fun dir _ => List.mergeSort_perm _ _

theorem dirEntries_ne_nil {tree : FileTree} {dir : String} (mem : dir ∈ tree.dirs) :
    tree.dirEntries dir ≠ [] := by
  obtain ⟨entry, listed, here⟩ := mem_dirs.mp mem
  exact List.ne_nil_of_mem (mem_dirEntries.mpr ⟨listed, here⟩)

theorem dirs_congr {tree tree' : FileTree} (same : tree.statEntries.Perm tree'.statEntries) :
    tree.dirs = tree'.dirs := by
  have perm : tree.dirs.Perm tree'.dirs := by
    refine (List.perm_ext_iff_of_nodup tree.nodup_dirs tree'.nodup_dirs).mpr fun dir => ?_
    simp only [mem_dirs, same.mem_iff]
  have sorted : ∀ t : FileTree, t.dirs.Pairwise fun a b => a ≤ b := by
    intro t
    show (sortByKey (fun dir : String => dir) _).Pairwise _
    exact pairwise_sortByKey _
  exact perm.eq_of_pairwise (fun _ _ _ _ ab ba => le_antisymm ab ba) (sorted tree) (sorted tree')

/-! ## Equal hashes -/

section Collisions

variable {blake3 : List UInt8 → String} {tree tree' : FileTree}

theorem mem_dirMerkleNodes {dir hash : String} :
    (dir, hash) ∈ tree.dirMerkleNodes blake3 ↔
      dir ∈ tree.dirs ∧ hash = tree.nodeHash blake3 dir := by
  simp only [dirMerkleNodes, List.mem_map, Prod.mk.injEq]
  constructor
  · rintro ⟨d, listed, rfl, rfl⟩
    exact ⟨listed, rfl⟩
  · rintro ⟨listed, rfl⟩
    exact ⟨dir, listed, rfl, rfl⟩

theorem dirMerkleNodes_congr (same : tree.statEntries.Perm tree'.statEntries) :
    tree.dirMerkleNodes blake3 = tree'.dirMerkleNodes blake3 := by
  unfold dirMerkleNodes
  rw [dirs_congr same]
  refine List.map_congr_left fun dir _ => ?_
  rw [nodeHash, nodeHash, dirEntries_congr same]

variable (collisionFree : NoCollision blake3 tree tree')

include collisionFree

theorem NoCollision.statEntries (same : tree.rootHash blake3 = tree'.rootHash blake3) :
    tree.statEntries.Perm tree'.statEntries := by
  have bytes := collisionFree (.inl (.inl rfl)) (.inr (.inl rfl)) same
  exact statEntries_of_sortedEntries
    (fingerprint_injective tree.sortedEntries_encodable tree'.sortedEntries_encodable bytes)

theorem NoCollision.dirEntries {dir : String}
    (same : tree.nodeHash blake3 dir = tree'.nodeHash blake3 dir) :
    tree.dirEntries dir = tree'.dirEntries dir := by
  have bytes := collisionFree (.inl (.inr ⟨dir, rfl⟩)) (.inr (.inr ⟨dir, rfl⟩)) same
  exact fingerprint_injective (tree.dirEntries_encodable dir) (tree'.dirEntries_encodable dir) bytes

/-- An unchanged node: the entries of its directory are unchanged. -/
theorem NoCollision.mem_of_node {dir hash : String}
    (node : (dir, hash) ∈ tree.dirMerkleNodes blake3)
    (node' : (dir, hash) ∈ tree'.dirMerkleNodes blake3) {entry : StatEntry}
    (here : dirOf entry.rel = dir) :
    entry ∈ tree.statEntries ↔ entry ∈ tree'.statEntries := by
  obtain ⟨-, rfl⟩ := mem_dirMerkleNodes.mp node
  obtain ⟨-, same⟩ := mem_dirMerkleNodes.mp node'
  have group := collisionFree.dirEntries same
  have listed : ∀ t : FileTree, entry ∈ t.statEntries ↔ entry ∈ t.dirEntries dir := by
    intro t
    rw [mem_dirEntries, and_iff_left here]
  rw [listed, listed, group]

theorem NoCollision.statEntries_of_nodes
    (same : tree.dirMerkleNodes blake3 = tree'.dirMerkleNodes blake3) :
    tree.statEntries.Perm tree'.statEntries := by
  have fst : ∀ t : FileTree, (t.dirMerkleNodes blake3).map Prod.fst = t.dirs := by
    intro t
    rw [dirMerkleNodes, List.map_map]
    exact List.map_id _
  have dirs : tree.dirs = tree'.dirs := by rw [← fst, same, fst]
  have groups : ∀ dir ∈ tree.dirs, tree.dirEntries dir = tree'.dirEntries dir := by
    intro dir mem
    have node : (dir, tree.nodeHash blake3 dir) ∈ tree.dirMerkleNodes blake3 :=
      mem_dirMerkleNodes.mpr ⟨mem, rfl⟩
    rw [same] at node
    exact collisionFree.dirEntries (mem_dirMerkleNodes.mp node).2
  have split : tree.dirs.flatMap tree.dirEntries = tree'.dirs.flatMap tree'.dirEntries := by
    rw [← dirs]
    exact List.flatMap_congr groups
  have parts := tree.dirs_flatMap_dirEntries
  rw [split] at parts
  exact parts.symm.trans tree'.dirs_flatMap_dirEntries

/-- The root hash and the nodes tell the same trees apart. -/
theorem rootHash_eq_iff_nodes (apart : tree.SpelledApart) :
    tree.rootHash blake3 = tree'.rootHash blake3 ↔
      tree.dirMerkleNodes blake3 = tree'.dirMerkleNodes blake3 := by
  constructor
  · intro same
    exact dirMerkleNodes_congr (collisionFree.statEntries same)
  · intro same
    rw [rootHash, rootHash, sortedEntries_congr apart (collisionFree.statEntries_of_nodes same)]

end Collisions

/-- **The fingerprints identify a tree and its directories.** -/
theorem statMerkle_identifies (blake3 : List UInt8 → String) (tree tree' : FileTree)
    (apart : tree.SpelledApart) (apart' : tree'.SpelledApart)
    (collisionFree : NoCollision blake3 tree tree') :
    (fingerprint tree.sortedEntries = fingerprint tree'.sortedEntries ↔
        ∀ entry, entry ∈ tree.statEntries ↔ entry ∈ tree'.statEntries) ∧
      (∀ entries entries' : List StatEntry,
        (∀ entry ∈ entries, '\x00' ∉ entry.rel.toList ∧ entry.mtimeNs < 2 ^ 64) →
        (∀ entry ∈ entries', '\x00' ∉ entry.rel.toList ∧ entry.mtimeNs < 2 ^ 64) →
        fingerprint entries = fingerprint entries' → entries = entries') ∧
      ((tree.dirs.flatMap tree.dirEntries).Perm tree.statEntries ∧ tree.dirs.Nodup ∧
        ∀ dir ∈ tree.dirs, tree.dirEntries dir ≠ [] ∧
          ∀ entry, entry ∈ tree.dirEntries dir ↔ entry ∈ tree.statEntries ∧ dirOf entry.rel = dir) ∧
      (tree.rootHash blake3 = tree'.rootHash blake3 ↔
        tree.dirMerkleNodes blake3 = tree'.dirMerkleNodes blake3) ∧
      ∀ dir hash, (dir, hash) ∈ tree.dirMerkleNodes blake3 →
        (dir, hash) ∈ tree'.dirMerkleNodes blake3 →
        ∀ entry, dirOf entry.rel = dir →
          (entry ∈ tree.statEntries ↔ entry ∈ tree'.statEntries) := by
  refine ⟨⟨fun same => ?_, fun same => ?_⟩, fun entries entries' good good' same => ?_,
    ⟨tree.dirs_flatMap_dirEntries, tree.nodup_dirs, ?_⟩, rootHash_eq_iff_nodes collisionFree apart, ?_⟩
  · exact (apart.perm_iff apart').mp (statEntries_of_sortedEntries
      (fingerprint_injective tree.sortedEntries_encodable tree'.sortedEntries_encodable same))
  · rw [sortedEntries_congr apart ((apart.perm_iff apart').mpr same)]
  · refine fingerprint_injective_of_width (fun entry mem => ?_) (fun entry mem => ?_) same
    · exact ⟨zero_notMem_utf8 (good entry mem).1, (good entry mem).2⟩
    · exact ⟨zero_notMem_utf8 (good' entry mem).1, (good' entry mem).2⟩
  · intro dir mem
    exact ⟨dirEntries_ne_nil mem, fun entry => mem_dirEntries⟩
  · intro dir hash node node' entry here
    exact collisionFree.mem_of_node node node' here

end FileTree

/-- A file of the given size. -/
def sizedFile (size : UInt64) : File where
  modified := some 1
  size := size
  text := none

theorem statMerkle_identifies_sizes :
    (oneFile "docs/a.md" (by decide) (sizedFile 2)).rootHash
        (fun bytes => String.ofList (bytes.map fun b => Char.ofNat b.toNat)) ≠
      (oneFile "docs/a.md" (by decide) (sizedFile 3)).rootHash
        (fun bytes => String.ofList (bytes.map fun b => Char.ofNat b.toNat)) := by
  intro same
  have whole := FileTree.statMerkle_identifies _ (oneFile "docs/a.md" (by decide) (sizedFile 2))
    (oneFile "docs/a.md" (by decide) (sizedFile 3))
    (show List.Nodup _ by decide) (show List.Nodup _ by decide)
    (fun _ _ _ _ same => byteText_injective same)
  have bytes := byteText_injective same
  have entries := (whole.1.mp bytes ⟨"docs/a.md", 1, 2⟩).mp (by decide)
  exact absurd entries (by decide)

/-- A path and the path with its backslash turned have the same bytes. -/
theorem backslash_path_lost :
    ¬ ∀ tree tree' : FileTree,
      fingerprint tree.sortedEntries = fingerprint tree'.sortedEntries →
        ∀ path, path ∈ tree.files → path ∈ tree'.files := by
  intro identifies
  have kept := identifies (oneFile "docs\\a.md" (by decide) (sizedFile 2))
    (oneFile "docs/a.md" (by decide) (sizedFile 2)) (by decide +kernel) "docs\\a.md" (by decide)
  exact absurd kept (by decide)

end Ministr.Ingestion
