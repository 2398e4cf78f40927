/-
# Ingestion.ProducerConsumer — parse workers, the sink and the embed stage

`run_producer_consumer` joins two futures.  The producer pulls files, works on up
to `concurrency` of them at once and hands each result to the sink, which records the
document for a rollback and sends its embedding pairs.  The consumer collects pairs
and embeds them in batches.  When the consumer fails it drops its end of the channel
and trips the cancellation token; the next send fails, the producer stops where it is,
and the recorded documents are rolled back.

The state of a run is stepped by events, one for each point at which the futures can
interleave or a call can fail.  The order of events is free, so a run is any
interleaving.  The files of a run have distinct paths, and their content does not
change while it lasts.
-/
import Ministr.Ingestion.Workspace

namespace Ministr.Ingestion

open Ministr.Theory Ministr.Content Ministr.Index

set_option autoImplicit false

/-- `EMBED_FLUSH_THRESHOLD`. -/
def embedFlushThreshold : Nat := 4096

/-- The capacity of the embed channel. -/
def embedChannelCapacity : Nat := 16

/-- The files of the corpus; `read` is `none` for one that is no UTF-8 text. -/
structure Disk where
  read : String → Option String
  mtimeNs : String → Option Int

/-- What a run works with. -/
structure RunConfig (α K : Type) where
  pipeline : Pipeline α K
  disk : Disk
  concurrency : Nat

abbrev EmbeddingPairs := List (VectorId × String)

namespace RunConfig

variable {α K : Type}

/-- The tree that is stored for a path. -/
def treeOf (c : RunConfig α K) (path : String) : Option DocumentTree :=
  (c.disk.read path).bind fun content =>
    (c.pipeline.parse path content).bind fun parsed =>
      enrichDocument c.pipeline.enricher parsed path

/-- The symbols of a path; a file that is no code has none. -/
def extractionOf (c : RunConfig α K) (path : String) : Extraction :=
  match c.disk.read path with
  | some content => if c.pipeline.isCode path then c.pipeline.extract path content else .unsupported
  | none => .unsupported

/-- The embedding pairs of a path: those of its tree, then those of its symbols. -/
def documentPairs (c : RunConfig α K) (path : String) : EmbeddingPairs :=
  (match c.treeOf path with
    | some doc => collectDocumentEmbeddings c.pipeline.contextualizeEmbeddings doc
    | none => [])
  ++ (c.extractionOf path).pairs path

/-- The hash row of the path carries the current content and versions. -/
def HashCurrent (c : RunConfig α K) (store : ContentStore) (path : String) : Prop :=
  ∃ content row, c.disk.read path = some content ∧ store.fileHashes.lookup path = some row ∧
    row.contentHash = c.pipeline.computeContentHash content ∧ Workspace.cacheFresh row = true

instance (c : RunConfig α K) (store : ContentStore) (path : String) :
    Decidable (c.HashCurrent store path) :=
  match reads : c.disk.read path, found : store.fileHashes.lookup path with
  | some content, some row =>
      decidable_of_iff
        (row.contentHash = c.pipeline.computeContentHash content
          ∧ Workspace.cacheFresh row = true)
        ⟨fun fresh => ⟨content, row, reads, found, fresh⟩, by
          rintro ⟨content', row', reads', found', fresh⟩
          cases reads.symm.trans reads'
          cases found.symm.trans found'
          exact fresh⟩
  | none, _ => isFalse fun ⟨_, _, reads', _⟩ => by cases reads.symm.trans reads'
  | some _, none => isFalse fun ⟨_, _, _, found', _⟩ => by cases found.symm.trans found'

/-- Every document recorded as indexed has its vectors. -/
def Indexed (c : RunConfig α K) (w : Workspace α K) : Prop :=
  ∀ path ∈ w.store.documents, c.HashCurrent w.store path →
    ∀ pair ∈ c.documentPairs path, pair.1.asStr ∈ w.vectors.store.rows

instance (c : RunConfig α K) (w : Workspace α K) : Decidable (c.Indexed w) :=
  inferInstanceAs (Decidable (∀ path ∈ w.store.documents.keys, c.HashCurrent w.store path →
    ∀ pair ∈ c.documentPairs path, pair.1.asStr ∈ w.vectors.store.rows))

end RunConfig

/-! ## Workers -/

/-- Where `parse_and_store_file` stands for one file. -/
inductive Phase where
  | pulled
  | cleared (doc : DocumentTree) (contentHash : String)
  | inserted (doc : DocumentTree) (contentHash : String)
  | hashed (doc : DocumentTree)
  | extracted (pairs : EmbeddingPairs)
  | skipped
  | failed
  deriving DecidableEq, Repr

/-- The hash row of the file is written. -/
def Phase.hashWritten : Phase → Bool
  | .hashed _ => true
  | .extracted _ => true
  | _ => false

inductive WorkerAction where
  | start
  | insertDocument
  | insertFails
  | upsertFileHash
  | upsertFails
  | extractSymbols
  | extractFails (written : Nat)
  deriving DecidableEq, Repr

section Worker

variable {α K : Type}

/-- The part of `parse_and_store_file` before the insert: the skips, the parse, and the
teardown of what the path held. -/
def startFile (c : RunConfig α K) (cancelled : Bool) (w : Workspace α K) (path : String) :
    Workspace α K × Phase :=
  if cancelled || c.pipeline.inIgnoredDir path then (w, .skipped)
  else
    let existing := w.store.getFileHash path
    if Workspace.unchangedByMtime existing (c.disk.mtimeNs path) then (w, .skipped)
    else
      match c.disk.read path with
      | none => (w, .failed)
      | some content =>
          let hash := c.pipeline.computeContentHash content
          if Workspace.unchangedByHash existing hash then
            ({ w with
                store := w.store.upsertFileHash path
                  (Workspace.freshHash hash (c.disk.mtimeNs path)) }, .skipped)
          else
            match c.treeOf path with
            | none => (w, .failed)
            | some doc =>
                if existing.isSome then
                  let w := w.deleteDocumentVectors doc.id
                  ({ w with store := w.store.deleteDocument doc.id }, .cleared doc hash)
                else (w, .cleared doc hash)

/-- One step of a worker.  A failed `insert_symbols` leaves the rows it had written. -/
def workerStep (c : RunConfig α K) (cancelled : Bool) (path : String) (w : Workspace α K) :
    WorkerAction → Phase → Option (Workspace α K × Phase)
  | .start, .pulled => some (startFile c cancelled w path)
  | .insertDocument, .cleared doc hash =>
      match w.store.insertDocument doc with
      | .error _ => some (w, .failed)
      | .ok store => some ({ w with store }, .inserted doc hash)
  | .insertFails, .cleared _ _ => some (w, .failed)
  | .upsertFileHash, .inserted doc hash =>
      some
        ({ w with
            store := w.store.upsertFileHash path
              (Workspace.freshHash hash (c.disk.mtimeNs path)) }, .hashed doc)
  | .upsertFails, .inserted _ _ => some (w, .failed)
  | .extractSymbols, .hashed doc =>
      let pairs := collectDocumentEmbeddings c.pipeline.contextualizeEmbeddings doc
      let (store, symbols) := extractCodeSymbols c.pipeline.languageOf c.pipeline.packageGraph
        w.store path (c.extractionOf path)
      some ({ w with store }, .extracted (pairs ++ symbols.embeddingPairs))
  | .extractFails written, .hashed _ =>
      some
        ({ w with
            store := (w.store.deleteSymbolsForFile path).insertSymbols
              (((c.extractionOf path).records path).take written) }, .failed)
  | _, _ => none

end Worker

/-! ## The embed stage -/

/-- The consumer: waiting for pairs, embedding what is left of a batch, or done.  A
batch is embedded chunk by chunk, and then as a whole by the sparse embedder. -/
inductive Consumer where
  | receiving (buffer : EmbeddingPairs)
  | embedding (chunks : List EmbeddingPairs) (batch : EmbeddingPairs) (last : Bool)
  | finished
  | failed
  deriving DecidableEq, Repr

/-- The pairs the consumer still holds. -/
def Consumer.pending : Consumer → EmbeddingPairs
  | .receiving buffer => buffer
  | .embedding chunks _ _ => chunks.flatten
  | .finished => []
  | .failed => []

/-- What `run_producer_consumer` returned. -/
inductive Outcome where
  | ok
  | err
  deriving DecidableEq, Repr

/-- The state of a run.  `wasCancelled` is what the producer reads off the token when it
ends. -/
structure RunState (α K : Type) where
  work : Workspace α K
  queue : List String
  workers : Rows String Phase
  indexedDocIds : List String
  sending : Option EmbeddingPairs
  producerEnded : Bool
  channel : List EmbeddingPairs
  consumer : Consumer
  cancelled : Bool
  wasCancelled : Bool
  outcome : Option Outcome

/-- What the producer side does: the stream, its workers, the sink. -/
inductive ProducerEvent where
  | cancel
  | haltQueue
  | pull
  | work (path : String) (action : WorkerAction)
  | drain (path : String)
  | sink (path : String)
  | send
  | sendFails
  | endStream
  deriving DecidableEq, Repr

/-- What the embed stage does; the events carry what the embedders return. -/
inductive ConsumerEvent (α K : Type) where
  | recv
  | embedChunk (vectors : List (List α))
  | embedFails (vectors : List (List α)) (inserted : Nat)
  | sparse (vectors : List (List TermId × List K))
  | sparseFails
  | channelClosed

inductive RunEvent (α K : Type) where
  | producer (event : ProducerEvent)
  | consumer (event : ConsumerEvent α K)
  | join

/-- `rollback_partial_documents`. -/
def rollbackPartialDocuments {α K : Type} (w : Workspace α K) (docs : List String) :
    Workspace α K :=
  docs.foldl (fun w docId => w.removeDocument docId docId) w

namespace RunState

variable {α K : Type}

/-- The start of a run over `files`. -/
def start (work : Workspace α K) (files : List String) : RunState α K where
  work := work
  queue := files
  workers := ∅
  indexedDocIds := []
  sending := none
  producerEnded := false
  channel := []
  consumer := .receiving []
  cancelled := false
  wasCancelled := false
  outcome := none

/-- The consumer returned an error: its end of the channel is gone, the token is
tripped. -/
def consumerFailed (s : RunState α K) (work : Workspace α K) : RunState α K :=
  { s with work, consumer := .failed, channel := [], cancelled := true }

/-- The steps of the producer. -/
def producerStep (c : RunConfig α K) (s : RunState α K) : ProducerEvent → Option (RunState α K)
  | .cancel => some { s with cancelled := true }
  | .haltQueue => if s.cancelled then some { s with queue := [] } else none
  | .pull =>
      match s.queue with
      | [] => none
      | path :: rest =>
          if s.cancelled = false ∧ s.producerEnded = false ∧ path ∉ s.workers
              ∧ s.workers.keys.length < c.concurrency then
            some { s with queue := rest, workers := s.workers.insert path .pulled }
          else none
  | .work path action =>
      (s.workers.lookup path).bind fun phase =>
        (workerStep c s.cancelled path s.work action phase).map fun r =>
          { s with work := r.1, workers := s.workers.insert path r.2 }
  | .drain path =>
      if s.sending.isNone
          ∧ (s.workers.lookup path = some .skipped ∨ s.workers.lookup path = some .failed) then
        some { s with workers := s.workers.erase path }
      else none
  | .sink path =>
      match s.sending, s.workers.lookup path with
      | none, some (.extracted pairs) =>
          some
            { s with
              workers := s.workers.erase path
              indexedDocIds := s.indexedDocIds ++ [path]
              sending := if pairs.isEmpty then none else some pairs }
      | _, _ => none
  | .send =>
      match s.sending with
      | some pairs =>
          if s.consumer ≠ .failed ∧ s.channel.length < embedChannelCapacity then
            some { s with sending := none, channel := s.channel ++ [pairs] }
          else none
      | none => none
  | .sendFails =>
      if s.sending.isSome ∧ s.consumer = .failed then
        some
          { s with
            sending := none
            workers := ∅
            queue := []
            producerEnded := true
            wasCancelled := s.cancelled }
      else none
  | .endStream =>
      if s.producerEnded = false ∧ s.queue = [] ∧ s.workers.keys = [] ∧ s.sending = none then
        some { s with producerEnded := true, wasCancelled := s.cancelled }
      else none

/-- The vectors of one chunk go into the index and then into the rows. -/
def storeChunk [Component α] (work : Workspace α K) (chunk : EmbeddingPairs)
    (vectors : List (List α)) : Option (Workspace α K) :=
  if vectors.length = chunk.length then
    match work.vectors.embedChunk (fun _ => .ok vectors) (named chunk) with
    | .ok vectors => some { work with vectors }
    | .error _ => none
  else none

/-- A chunk that failed: some of its vectors may have reached the index. -/
def spoilChunk [Component α] (work : Workspace α K) (chunk : EmbeddingPairs)
    (vectors : List (List α)) (inserted : Nat) : Workspace α K :=
  match work.vectors.index.insertAll ((((named chunk).map Prod.fst).zip vectors).take inserted) with
  | .ok index => { work with vectors := { work.vectors with index } }
  | .error _ => work

/-- The sparse vectors of a batch. -/
def storeSparse (work : Workspace α K) (entries : List (String × List TermId × List K)) :
    Workspace α K :=
  { work with
    sparse := work.sparse.map fun sparse =>
      entries.foldl (fun sparse e => sparse.insertSparse e.1 e.2.1 e.2.2) sparse }

/-- The consumer with a buffer that is full, or that is the last one. -/
def startBatch (buffer : EmbeddingPairs) (last : Bool) : Consumer :=
  .embedding (chunks embedBatchChunk buffer) buffer last

/-- The steps of the consumer. -/
def consumerStep [Component α] (s : RunState α K) : ConsumerEvent α K → Option (RunState α K)
  | .recv =>
      match s.consumer, s.channel with
      | .receiving buffer, pairs :: rest =>
          let buffer := buffer ++ pairs
          some
            { s with
              channel := rest
              consumer :=
                if embedFlushThreshold ≤ buffer.length then startBatch buffer false
                else .receiving buffer }
      | _, _ => none
  | .embedChunk vectors =>
      match s.consumer with
      | .embedding (chunk :: rest) batch last =>
          (storeChunk s.work chunk vectors).map fun work =>
            { s with work, consumer := .embedding rest batch last }
      | _ => none
  | .embedFails vectors inserted =>
      match s.consumer with
      | .embedding (chunk :: _) _ _ =>
          some (s.consumerFailed (spoilChunk s.work chunk vectors inserted))
      | _ => none
  | .sparse vectors =>
      match s.consumer with
      | .embedding [] batch last =>
          some
            { s with
              work := storeSparse s.work (((named batch).map Prod.fst).zip vectors)
              consumer := if last then .finished else .receiving [] }
      | _ => none
  | .sparseFails =>
      match s.consumer with
      | .embedding [] _ _ => some (s.consumerFailed s.work)
      | _ => none
  | .channelClosed =>
      match s.consumer with
      | .receiving buffer =>
          if s.channel = [] ∧ s.producerEnded then
            some { s with consumer := if buffer.isEmpty then .finished else startBatch buffer true }
          else none
      | _ => none

/-- Both futures are done: return, after the rollback when the consumer failed. -/
def joinStep (s : RunState α K) : Option (RunState α K) :=
  if s.producerEnded then
    match s.consumer with
    | .finished => some { s with outcome := some .ok }
    | .failed =>
        some
          { s with
            work := rollbackPartialDocuments s.work s.indexedDocIds
            outcome := some .err }
    | _ => none
  else none

/-- One step of a run that has not returned. -/
def step [Component α] (c : RunConfig α K) (s : RunState α K) (e : RunEvent α K) :
    Option (RunState α K) :=
  if s.outcome.isSome then none
  else
    match e with
    | .producer event => s.producerStep c event
    | .consumer event => s.consumerStep event
    | .join => s.joinStep

end RunState

end Ministr.Ingestion
