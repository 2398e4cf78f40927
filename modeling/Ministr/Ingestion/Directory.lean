/-
# Ingestion.Directory — runs over one corpus root

`ingest_directory_with_embeddings_rooted` looks at the fingerprint of the tree first: when
the root hash is the stored one, the run is over.  Otherwise the files of unchanged
directories are pruned, the others go through the producer and the consumer, and what
the tree no longer holds is swept.  A run that gets this far stores the root hash and the
directory nodes, whether or not some of its files failed.

Discovery and the reads of the two fingerprint tables are taken to succeed.  The walk
does not enter ignored directories, so `edit` gives the tree as the walk sees it.
Package detection, progress, bridge links and the resolution of pending references do not
touch the tables that are read here, and are left out.
-/
import Ministr.Ingestion.ProducerConsumer
import Ministr.Ingestion.StatMerkle

namespace Ministr.Ingestion

open Ministr.Theory Ministr.Content Ministr.Index

set_option autoImplicit false

structure DirectoryConfig (α K : Type) where
  pipeline : Pipeline α K
  rootId : String
  concurrency : Nat
  blake3 : List UInt8 → String

/-- The row of `corpus_merkle`. -/
structure CorpusMerkle where
  rootHash : String
  extractorVersion : Nat
  deriving DecidableEq, Repr

/-- A row of `corpus_merkle_nodes`. -/
structure MerkleNode where
  nodeHash : String
  extractorVersion : Nat
  deriving DecidableEq, Repr

/-- A corpus root: the files on disk, the workspace and the stored fingerprints.  The last
two fields are history, and the code has no counterpart of them: the tree whose nodes are
stored, and the paths whose hash row was rewritten or removed since by a run that stored no
nodes. -/
structure CorpusState (α K : Type) where
  tree : FileTree
  work : Workspace α K
  merkle : Option CorpusMerkle
  nodes : Rows String MerkleNode
  lastIndexed : FileTree
  reopened : List String

inductive DirectoryEvent (α K : Type) where
  | edit (tree : FileTree)
  | ingest (events : List (RunEvent α K)) (sidecarFails : Bool)

namespace DirectoryConfig

variable {α K : Type}

/-- The key of a path in the tables. -/
def key (c : DirectoryConfig α K) (path : String) : String := namespacePath c.rootId path

/-- The path behind a key. -/
def rawPath (c : DirectoryConfig α K) (key : String) : String :=
  String.ofList (key.toList.drop (c.rootId.length + 1))

/-- The producer and the consumer over a tree. -/
def run (c : DirectoryConfig α K) (tree : FileTree) : RunConfig α K where
  pipeline := c.pipeline
  disk :=
    { read := fun key => (tree.files.lookup (c.rawPath key)).bind File.text
      mtimeNs := fun key => (tree.files.lookup (c.rawPath key)).bind File.mtimeNanos }
  concurrency := c.concurrency

end DirectoryConfig

namespace CorpusState

variable {α K : Type}

/-- A root that was never indexed. -/
def fresh (work : Workspace α K) : CorpusState α K where
  tree := .empty
  work := work
  merkle := none
  nodes := ∅
  lastIndexed := .empty
  reopened := []

/-- `corpus_merkle_short_circuit`. -/
def shortCircuit (c : DirectoryConfig α K) (s : CorpusState α K) : Bool :=
  s.merkle.any fun prior =>
    prior.rootHash == s.tree.rootHash c.blake3 && prior.extractorVersion == extractorVersion

/-- The node of the directory is the stored one. -/
def cleanDir (c : DirectoryConfig α K) (s : CorpusState α K) (dir : String) : Bool :=
  (s.tree.dirMerkleNodes c.blake3).any fun node =>
    node.1 == dir && (s.nodes.lookup node.1).map MerkleNode.nodeHash == some node.2

/-- `merkle_prune_set`: the files of clean directories. -/
def prunable (c : DirectoryConfig α K) (s : CorpusState α K) : List String :=
  let stored := s.nodes.select fun _ _ => true
  if stored.isEmpty || stored.any fun node => node.2.extractorVersion != extractorVersion then []
  else s.tree.paths.filter fun path => s.cleanDir c (dirOf (spelling path))

/-- `build_pruned_file_items`. -/
def fileItems (c : DirectoryConfig α K) (s : CorpusState α K) : List String :=
  (s.tree.paths.filter fun path => !(s.prunable c).contains path).map c.key

/-- The end of a run that was not cut short: the sweep, the root hash, the nodes. -/
def persist (c : DirectoryConfig α K) (s : CorpusState α K) (work : Workspace α K) :
    CorpusState α K :=
  let freshNodes := (s.tree.dirMerkleNodes c.blake3).map fun node =>
    (node.1, ({ nodeHash := node.2, extractorVersion } : MerkleNode))
  { s with
    work := work.sweepStaleDocuments (some c.rootId) s.tree.paths
    merkle := some { rootHash := s.tree.rootHash c.blake3, extractorVersion }
    nodes := if freshNodes.isEmpty then s.nodes else Rows.upsertAll ∅ freshNodes
    lastIndexed := if freshNodes.isEmpty then s.lastIndexed else s.tree
    reopened := if freshNodes.isEmpty then s.reopened else [] }

/-- What a hash row says of the content: everything but the mtime. -/
def stamp (row : FileHashRow) : String × Nat × Nat :=
  (row.contentHash, row.extractorVersion, row.resolverVersion)

/-- The end of a run that stores nothing. -/
def abandon (c : DirectoryConfig α K) (s : CorpusState α K) (work : Workspace α K) :
    CorpusState α K :=
  { s with
    work
    reopened := s.reopened ++ s.tree.paths.filter fun path =>
      (s.work.store.getFileHash (c.key path)).map stamp
        ≠ (work.store.getFileHash (c.key path)).map stamp }

/-- What follows the producer and the consumer.  An error, a cancelled run and a sparse
sidecar that cannot be written all return before anything is stored. -/
def finish (c : DirectoryConfig α K) (s : CorpusState α K) (r : RunState α K)
    (sidecarFails : Bool) : Option (CorpusState α K) :=
  match r.outcome with
  | none => none
  | some .err => some (s.abandon c r.work)
  | some .ok =>
      if r.wasCancelled || sidecarFails then some (s.abandon c r.work)
      else some (s.persist c r.work)

/-- An edit of the tree, or one run of `ingest_directory_with_embeddings_rooted`. -/
def step [Component α] (c : DirectoryConfig α K) (s : CorpusState α K) :
    DirectoryEvent α K → Option (CorpusState α K)
  | .edit tree =>
      if tree.paths.all fun path => !c.pipeline.inIgnoredDir (c.key path) then
        some { s with tree }
      else none
  | .ingest events sidecarFails =>
      if s.shortCircuit c then some s
      else
        (exec (RunState.step (c.run s.tree)) (.start s.work (s.fileItems c)) events).bind fun r =>
          s.finish c r sidecarFails

/-- The run does not look at the file. -/
def Skips (c : DirectoryConfig α K) (s : CorpusState α K) (path : String) : Prop :=
  s.shortCircuit c = true ∨ path ∈ s.prunable c

/-- No run skips a file that has no hash row for its current content. -/
def NothingHidden (c : DirectoryConfig α K) (s : CorpusState α K) : Prop :=
  ∀ path ∈ s.tree.paths, s.Skips c path → (c.run s.tree).HashCurrent s.work.store (c.key path)

instance (c : DirectoryConfig α K) (s : CorpusState α K) : Decidable (s.NothingHidden c) :=
  inferInstanceAs (Decidable (∀ path ∈ s.tree.paths,
    (s.shortCircuit c = true ∨ path ∈ s.prunable c) →
      (c.run s.tree).HashCurrent s.work.store (c.key path)))

end CorpusState

end Ministr.Ingestion
