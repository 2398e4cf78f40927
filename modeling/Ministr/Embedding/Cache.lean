/-
# Embedding.Cache — the embedder behind a content-addressed cache

`CachedEmbedder::embed` answers a batch of texts.  It collapses repeated texts to one
slot each, looks the slots' content hashes up in the `embedding_cache` table, asks the
inner embedder for the missing ones only, stores what it got, and copies every slot's
vector to all the positions of its text.

Vectors are lists of 32-bit patterns: the table stores them as little-endian bytes and
nothing here computes with them.  SHA-256 and the inner embedder are parameters.  The
database may refuse a statement or a row (`DbAnswers`); an index out of bounds is
`none`.
-/
import Ministr.Index.Hnsw
import Ministr.Theory.Bytes
import Ministr.Theory.Positions

namespace Ministr.Embedding

open Ministr.Theory Ministr.Index

set_option autoImplicit false

/-! ## Stored vectors -/

/-- A vector of `f32`, by its bit patterns. -/
abbrev F32Vec := List UInt32

def encodeVector (vector : F32Vec) : List UInt8 :=
  vector.flatMap fun x => leBytes 4 x.toNat

/-- `decode_vector`: `chunks_exact(4)` leaves out an incomplete chunk at the end. -/
def decodeVector : List UInt8 → F32Vec
  | a :: b :: c :: d :: rest => UInt32.ofNat (ofLeBytes [a, b, c, d]) :: decodeVector rest
  | _ => []

/-- A stored vector is read back bit for bit. -/
theorem decodeVector_encodeVector (vector : F32Vec) :
    decodeVector (encodeVector vector) = vector := by
  induction vector with
  | nil => rfl
  | cons x vector ih =>
      have fits : x.toNat < 256 ^ 4 := x.toNat_lt
      show UInt32.ofNat (ofLeBytes (leBytes 4 x.toNat)) :: decodeVector (encodeVector vector) = _
      rw [ofLeBytes_leBytes fits, ih, UInt32.ofNat_toNat]

/-! ## The table -/

/-- `embedding_cache`: the stored bytes by content hash and model name. -/
abbrev EmbeddingCache := Rows (String × String) (List UInt8)

/-- What the database refuses during one call, with its own text. -/
structure DbAnswers where
  queryPrepare : Option String := none
  unreadable : String → Bool := fun _ => false
  insertPrepare : Option String := none
  insertFails : String → Option String := fun _ => none

/-- The database refuses nothing. -/
structure DbAnswers.Quiet (db : DbAnswers) : Prop where
  queryPrepare : db.queryPrepare = none
  unreadable : ∀ hash, db.unreadable hash = false
  insertPrepare : db.insertPrepare = none
  insertFails : ∀ hash, db.insertFails hash = none

namespace EmbeddingCache

/-- One row of the lookup; a row that cannot be read counts as missing. -/
def find (db : DbAnswers) (rows : EmbeddingCache) (model hash : String) : Option F32Vec :=
  if db.unreadable hash then none else (rows.lookup (hash, model)).map decodeVector

def getBatch (db : DbAnswers) (rows : EmbeddingCache) (hashes : List String) (model : String) :
    Except IndexError (List (Option F32Vec)) :=
  if hashes.isEmpty then .ok []
  else
    match db.queryPrepare with
    | some e => .error (.embeddingFailed ("cache query prepare failed: " ++ e))
    | none => .ok (hashes.map (find db rows model))

/-- The rows are written one by one; those before a refused one stay. -/
def insertEach (db : DbAnswers) (model : String) (rows : EmbeddingCache) :
    List (String × F32Vec) → EmbeddingCache × Except IndexError Unit
  | [] => (rows, .ok ())
  | (hash, vector) :: rest =>
      match db.insertFails hash with
      | some e =>
          (rows, .error (.embeddingFailed ("cache insert failed for hash " ++ hash ++ ": " ++ e)))
      | none => insertEach db model (rows.insert (hash, model) (encodeVector vector)) rest

def putBatch (db : DbAnswers) (rows : EmbeddingCache) (entries : List (String × F32Vec))
    (model : String) : EmbeddingCache × Except IndexError Unit :=
  if entries.isEmpty then (rows, .ok ())
  else
    match db.insertPrepare with
    | some e => (rows, .error (.embeddingFailed ("cache insert prepare failed: " ++ e)))
    | none => insertEach db model rows entries

end EmbeddingCache

/-! ## One batch -/

/-- The slots of a batch: `first` is the slot of each text seen, `uniqueIdx` the
position at which each slot's text first stands, `slot` the slot of each position. -/
structure Slots where
  first : Rows String Nat := ∅
  uniqueIdx : List Nat := []
  slot : List Nat := []

/-- The loop over the texts from position `i` on. -/
def Slots.collapse (s : Slots) (i : Nat) : List String → Slots
  | [] => s
  | t :: rest =>
      match s.first.lookup t with
      | some u => collapse { s with slot := s.slot ++ [u] } (i + 1) rest
      | none =>
          collapse
            { first := s.first.insert t s.uniqueIdx.length
              slot := s.slot ++ [s.uniqueIdx.length]
              uniqueIdx := s.uniqueIdx ++ [i] } (i + 1) rest

structure CachedEmbedder where
  inner : List String → Except IndexError (List F32Vec)
  contentHash : String → String
  modelName : String

/-- The table and the two counters. -/
structure CacheState where
  rows : EmbeddingCache
  cacheHits : Nat := 0
  cacheMisses : Nat := 0

/-- What a call leaves and answers; `asked` is its call of the inner embedder, if it
made one. -/
structure Answer where
  state : CacheState
  asked : Option (List String)
  result : Except IndexError (List F32Vec)

namespace CachedEmbedder

/-- Steps 5 and 6: store the new vectors, then copy each slot's vector to the slot's
positions. -/
def finish (c : CachedEmbedder) (db : DbAnswers) (s : CacheState) (asked : Option (List String))
    (hashes : List String) (slots : Slots) (cached : List (Option F32Vec))
    (missIndices : List Nat) (missVectors : List F32Vec) : Option Answer := do
  let (rows, stored) ←
    if missVectors.isEmpty then some (s.rows, .ok ())
    else do
      let missHashes ← (gather missIndices slots.uniqueIdx).bind fun is => gather is hashes
      some (EmbeddingCache.putBatch db s.rows (missHashes.zip missVectors) c.modelName)
  match stored with
  | .error e => some ⟨{ s with rows }, asked, .error e⟩
  | .ok () =>
      let uniqueVecs ← scatter (cached.map fun v => v.getD []) (missIndices.zip missVectors)
      let results ← gather slots.slot uniqueVecs
      some ⟨{ s with rows }, asked, .ok results⟩

/-- `CachedEmbedder::embed`. -/
def embed (c : CachedEmbedder) (db : DbAnswers) (s : CacheState) (texts : List String) :
    Option Answer :=
  if texts.isEmpty then some ⟨s, none, .ok []⟩
  else do
    let hashes := texts.map c.contentHash
    let slots := Slots.collapse {} 0 texts
    let hashRefs ← gather slots.uniqueIdx hashes
    match EmbeddingCache.getBatch db s.rows hashRefs c.modelName with
    | .error e => some ⟨s, none, .error e⟩
    | .ok cached =>
        let missIndices := positionsOf Option.isNone cached
        let missTexts ← (gather missIndices slots.uniqueIdx).bind fun is => gather is texts
        let hits := hashRefs.length - missIndices.length
        let counted := { s with
          cacheHits := s.cacheHits + hits
          cacheMisses := s.cacheMisses + missIndices.length }
        if missTexts.isEmpty then
          c.finish db counted none hashes slots cached missIndices []
        else
          match c.inner missTexts with
          | .error e => some ⟨counted, some missTexts, .error e⟩
          | .ok missVectors =>
              c.finish db counted (some missTexts) hashes slots cached missIndices missVectors

end CachedEmbedder

end Ministr.Embedding
