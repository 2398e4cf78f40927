/-
# Index.Rebuild — the live index against the one rebuilt from the store

Every vector handed to the dense index is also written to `indexed_vectors`, and
on load the index is rebuilt from those rows.  An embed batch inserts each
chunk's vectors into the index and then writes the same vectors as rows; removing
a document deletes the same ids on both sides.

This module has the store, the batch and the rebuild as the code has them, and
says what each does to the represented map: `Represents.insertAll` for the loop of
inserts, `Represents.deleteAll` for the loop of deletes, `rebuild_represents` for
the rebuild, which keeps exactly the acceptable rows.

Rows are kept as vectors; the blob encoding of a row is a bijection on the
components and is not modelled.
-/
import Ministr.Index.Hnsw

namespace Ministr.Index

open Ministr.Theory

set_option autoImplicit false

/-! ## The vector store -/

/-- `indexed_vectors` and the `vector_generation` counter of `index_meta`. -/
structure VectorStore (ι α : Type) where
  rows : Rows ι (List α)
  generation : Nat

/-- The freshness fingerprint of the store. -/
structure VectorFingerprint where
  count : Nat
  generation : Nat
  deriving DecidableEq, Repr

namespace VectorStore

variable {ι α : Type} [DecidableEq ι]

def empty : VectorStore ι α where
  rows := ∅
  generation := 0

def bumpVectorGeneration (s : VectorStore ι α) : VectorStore ι α :=
  { s with generation := s.generation + 1 }

/-- `store_indexed_vectors`: `INSERT OR REPLACE` row by row, then one bump. -/
def storeIndexedVectors (s : VectorStore ι α) (entries : List (ι × List α)) : VectorStore ι α :=
  if entries.isEmpty then s
  else bumpVectorGeneration { s with rows := s.rows.upsertAll entries }

/-- `delete_indexed_vectors`: row by row, then one bump. -/
def deleteIndexedVectors (s : VectorStore ι α) (ids : List ι) : VectorStore ι α :=
  if ids.isEmpty then s else bumpVectorGeneration { s with rows := s.rows.eraseAll ids }

/-- `indexed_vector_fingerprint`. -/
def fingerprint (s : VectorStore ι α) : VectorFingerprint where
  count := s.rows.keys.length
  generation := s.generation

/-- `list_indexed_vectors`. -/
def listIndexedVectors (s : VectorStore ι α) : List (ι × List α) :=
  s.rows.entries.map fun e => (e.1, e.2)

@[simp] theorem storeIndexedVectors_rows (s : VectorStore ι α) (entries : List (ι × List α)) :
    (s.storeIndexedVectors entries).rows = s.rows.upsertAll entries := by
  unfold storeIndexedVectors
  cases entries <;> rfl

@[simp] theorem deleteIndexedVectors_rows (s : VectorStore ι α) (ids : List ι) :
    (s.deleteIndexedVectors ids).rows = s.rows.eraseAll ids := by
  unfold deleteIndexedVectors
  cases ids <;> rfl

end VectorStore

/-! ## Rebuilding -/

/-- `DEFAULT_EF_SEARCH`. -/
def defaultEfSearch : Nat := 50

namespace HnswInner

variable {ι α : Type} [DecidableEq ι]

/-- `index.insert` for every entry; the first error stops the loop and is
reported with its id. -/
def insertAll [Component α] (s : HnswInner ι α) :
    List (ι × List α) → Except (ι × IndexError) (HnswInner ι α)
  | [] => .ok s
  | e :: es =>
      match s.insert e.1 e.2 with
      | .error reason => .error (e.1, reason)
      | .ok t => t.insertAll es

/-- `index.delete` for every id. -/
def deleteAll (s : HnswInner ι α) (ids : List ι) : HnswInner ι α :=
  ids.foldl (fun s id => (s.delete id).1) s

/-- The vector a live id stands for. -/
def vectorOf (s : HnswInner ι α) (id : ι) : Option (List α) :=
  (s.idToInt.lookup id).bind fun n => (s.points.find? fun p => p.1 = n).map Prod.snd

end HnswInner

/-- `rebuild_hnsw_from_store`. -/
def rebuildHnswFromStore {ι α : Type} [DecidableEq ι] [Component α] (store : VectorStore ι α)
    (dimension : Nat) (modelName : Option String) : Except IndexError (HnswInner ι α) :=
  match HnswInner.withConfig dimension defaultEfSearch with
  | .error reason => .error reason
  | .ok index =>
      match ({ index with modelName } : HnswInner ι α).insertAll store.listIndexedVectors with
      | .error (_, reason) => .error reason
      | .ok rebuilt => .ok rebuilt

/-! ## Embedding batches and removals -/

/-- The error of an embed batch: `IngestionError::Embedding`. -/
structure EmbeddingError where
  reason : String
  deriving DecidableEq, Repr

/-- `EMBED_BATCH_CHUNK`. -/
def embedBatchChunk : Nat := 128

/-- `slice::chunks`; the fuel is the length of the slice. -/
def chunksFuel {β : Type} (size : Nat) : Nat → List β → List (List β)
  | 0, _ => []
  | _ + 1, [] => []
  | fuel + 1, l => l.take size :: chunksFuel size fuel (l.drop size)

def chunks {β : Type} (size : Nat) (l : List β) : List (List β) :=
  chunksFuel size l.length l

theorem flatten_chunksFuel {β : Type} {size : Nat} (positive : 0 < size) {fuel : Nat} {l : List β}
    (enough : l.length ≤ fuel) : (chunksFuel size fuel l).flatten = l := by
  induction fuel generalizing l with
  | zero =>
      rw [List.length_eq_zero_iff.mp (Nat.le_zero.mp enough)]
      rfl
  | succ fuel ih =>
      cases l with
      | nil => rfl
      | cons a l =>
          have shorter : ((a :: l).drop size).length ≤ fuel := by
            simp only [List.length_drop, List.length_cons] at enough ⊢
            omega
          rw [chunksFuel, List.flatten_cons, ih shorter, List.take_append_drop]
          simp

/-- The chunks are the slice, cut. -/
theorem flatten_chunks {β : Type} {size : Nat} (positive : 0 < size) (l : List β) :
    (chunks size l).flatten = l :=
  flatten_chunksFuel positive (Nat.le_refl _)

/-- `Embedder::embed`: one vector per text, or an error text. -/
abbrev Embedder (α : Type) := List String → Except String (List (List α))

/-- The live index and the vector store. -/
structure Corpus (ι α : Type) where
  index : HnswInner ι α
  store : VectorStore ι α

namespace Corpus

variable {ι α : Type} [DecidableEq ι] [ToString ι] [Component α]

/-- One chunk: embed its texts, insert the vectors into the index, then write the
same vectors as rows. -/
def embedChunk (embed : Embedder α) (c : Corpus ι α) (chunk : List (ι × String)) :
    Except EmbeddingError (Corpus ι α) :=
  match embed (chunk.map Prod.snd) with
  | .error reason => .error ⟨reason⟩
  | .ok vectors =>
      let indexed := (chunk.map Prod.fst).zip vectors
      match c.index.insertAll indexed with
      | .error (vid, reason) =>
          .error ⟨"failed to insert vector " ++ toString vid ++ ": " ++ reason.text⟩
      | .ok index => .ok { index, store := c.store.storeIndexedVectors indexed }

/-- A chunk that succeeded: its vectors are in the index and in the rows. -/
theorem embedChunk_eq_ok {embed : Embedder α} {c d : Corpus ι α} {chunk : List (ι × String)}
    (succeeded : c.embedChunk embed chunk = .ok d) :
    ∃ vectors index, embed (chunk.map Prod.snd) = .ok vectors ∧
      c.index.insertAll ((chunk.map Prod.fst).zip vectors) = .ok index ∧
      d = { index, store := c.store.storeIndexedVectors ((chunk.map Prod.fst).zip vectors) } := by
  unfold embedChunk at succeeded
  cases embedded : embed (chunk.map Prod.snd) with
  | error reason => rw [embedded] at succeeded; cases succeeded
  | ok vectors =>
      rw [embedded] at succeeded
      dsimp only at succeeded
      cases inserted : c.index.insertAll ((chunk.map Prod.fst).zip vectors) with
      | error reason => rw [inserted] at succeeded; cases succeeded
      | ok index =>
          rw [inserted] at succeeded
          cases succeeded
          exact ⟨vectors, index, rfl, inserted, rfl⟩

/-- The chunks in order, with the number of pairs embedded. -/
def embedChunks (embed : Embedder α) (c : Corpus ι α) :
    List (List (ι × String)) → Except EmbeddingError (Corpus ι α × Nat)
  | [] => .ok (c, 0)
  | chunk :: rest =>
      match c.embedChunk embed chunk with
      | .error reason => .error reason
      | .ok d =>
          match d.embedChunks embed rest with
          | .error reason => .error reason
          | .ok (e, total) => .ok (e, chunk.length + total)

/-- `batch_embed_and_insert`. -/
def batchEmbedAndInsert (embed : Embedder α) (c : Corpus ι α) (pairs : List (ι × String)) :
    Except EmbeddingError (Corpus ι α × Nat) :=
  c.embedChunks embed (chunks embedBatchChunk pairs)

/-- The end of `delete_document_vectors`, for the ids it collected: each is
deleted from the index, then all of them from the rows. -/
def deleteVectors (c : Corpus ι α) (removedVids : List ι) : Corpus ι α where
  index := c.index.deleteAll removedVids
  store := c.store.deleteIndexedVectors removedVids

end Corpus

/-! ## What the operations do to the represented map -/

section Represents

variable {ι α : Type} [DecidableEq ι]

open HnswInner

/-- The index is well formed and stands for `m`. -/
structure Represents (s : HnswInner ι α) (m : VectorMap ι α) : Prop where
  maps : IdMaps s
  refines : Refines s m

variable {s : HnswInner ι α} {m : VectorMap ι α}

/-- Reading an id's vector through its integer reads the represented map. -/
theorem Represents.vectorOf_eq (represents : Represents s m) (id : ι) :
    s.vectorOf id = m.lookup id := by
  obtain ⟨maps, refines⟩ := represents
  unfold vectorOf
  cases found : s.idToInt.lookup id with
  | none =>
      cases held : m.lookup id with
      | none => rfl
      | some v =>
          obtain ⟨n, found', -⟩ := refines.present id v held
          rw [found] at found'
          cases found'
  | some n =>
      have stored : n ∈ s.points.map Prod.fst := by
        rw [refines.allocated]
        exact List.mem_range.mpr (maps.lt found)
      obtain ⟨p, inGraph, same⟩ := List.mem_map.mp stored
      cases at_n : s.points.find? fun p => p.1 = n with
      | none => exact absurd same (by simpa using List.find?_eq_none.mp at_n p inGraph)
      | some q =>
          have qn : q.1 = n := by simpa using List.find?_some at_n
          have inGraph' : (n, q.2) ∈ s.points := qn ▸ List.mem_of_find?_eq_some at_n
          rw [Option.bind_some, at_n, Option.map_some, refines.current id n q.2 found inGraph']

theorem Represents.deleteAll (represents : Represents s m) (ids : List ι) :
    Represents (s.deleteAll ids) (m.eraseAll ids) ∧ (s.deleteAll ids).dim = s.dim ∧
      (s.deleteAll ids).modelName = s.modelName := by
  induction ids generalizing s m with
  | nil => exact ⟨represents, rfl, rfl⟩
  | cons id ids ih =>
      have rest := ih ⟨represents.maps.delete id, represents.refines.delete id⟩
      rw [delete_dim] at rest
      have name : (s.delete id).1.modelName = s.modelName := by
        unfold HnswInner.delete
        split <;> rfl
      rw [name] at rest
      exact rest

variable [Component α]

/-- Acceptable vectors are written, degenerate ones leave the map as it is. -/
def VectorMap.putAll (m : VectorMap ι α) (es : List (ι × List α)) : VectorMap ι α :=
  m.upsertAll (es.filter fun e => !degenerate e.2)

theorem VectorMap.putAll_cons (m : VectorMap ι α) (e : ι × List α) (es : List (ι × List α)) :
    m.putAll (e :: es) = (m.put e.1 e.2).putAll es := by
  unfold VectorMap.putAll VectorMap.put
  by_cases bad : degenerate e.2 = true
  · rw [if_pos bad, List.filter_cons_of_neg (by simp [bad])]
  · rw [if_neg bad, List.filter_cons_of_pos (by simpa using bad)]
    rfl

theorem VectorMap.putAll_append (m : VectorMap ι α) (es fs : List (ι × List α)) :
    m.putAll (es ++ fs) = (m.putAll es).putAll fs := by
  simp only [VectorMap.putAll, List.filter_append, Rows.upsertAll, List.foldl_append]

theorem VectorMap.lookup_putAll (m : VectorMap ι α) (es : List (ι × List α)) (id : ι) :
    (m.putAll es).lookup id =
      (lastOf (es.filter fun e => !degenerate e.2) id).or (m.lookup id) :=
  Rows.lookup_upsertAll _ _ _

/-- Inserting entry by entry, when every vector has the right dimension. -/
theorem Represents.insertAll {t : HnswInner ι α} {es : List (ι × List α)}
    (represents : Represents s m) (accepted : s.insertAll es = .ok t) :
    Represents t (m.putAll es) ∧ t.dim = s.dim ∧ t.modelName = s.modelName ∧
      ∀ e ∈ es, e.2.length = s.dim := by
  induction es generalizing s m with
  | nil =>
      cases accepted
      exact ⟨represents, rfl, rfl, by simp⟩
  | cons e es ih =>
      unfold HnswInner.insertAll at accepted
      cases inserted : s.insert e.1 e.2 with
      | error reason => rw [inserted] at accepted; cases accepted
      | ok u =>
          rw [inserted] at accepted
          obtain ⟨maps, refines, dim⟩ := insert_refines represents.maps represents.refines inserted
          have name : u.modelName = s.modelName := by
            obtain ⟨-, ⟨-, rfl⟩ | ⟨-, rfl⟩⟩ := insert_eq_ok inserted
            · rfl
            · unfold HnswInner.delete assign
              split <;> rfl
          obtain ⟨rep, dim', name', each⟩ := ih ⟨maps, refines⟩ accepted
          rw [VectorMap.putAll_cons]
          refine ⟨rep, dim'.trans dim, name'.trans name, ?_⟩
          rw [List.forall_mem_cons]
          exact ⟨(insert_eq_ok inserted).1, fun e' mem => (each e' mem).trans dim⟩

/-- With the right dimension throughout, the loop has no error to stop at. -/
theorem insertAll_total (s : HnswInner ι α) (es : List (ι × List α))
    (fits : ∀ e ∈ es, e.2.length = s.dim) : ∃ t, s.insertAll es = .ok t := by
  induction es generalizing s with
  | nil => exact ⟨s, rfl⟩
  | cons e es ih =>
      rw [List.forall_mem_cons] at fits
      unfold HnswInner.insertAll
      cases inserted : s.insert e.1 e.2 with
      | error reason =>
          unfold HnswInner.insert at inserted
          rw [if_neg (not_not.mpr fits.1)] at inserted
          split at inserted <;> cases inserted
      | ok u =>
          have dim : u.dim = s.dim := by
            obtain ⟨-, ⟨-, rfl⟩ | ⟨-, rfl⟩⟩ := insert_eq_ok inserted
            · rfl
            · exact delete_dim s e.1
          exact ih u fun e' mem => (fits.2 e' mem).trans dim.symm

end Represents

/-! ## The rebuilt index -/

section Rebuilt

variable {ι α : Type} [DecidableEq ι] [Component α]

/-- What a rebuild makes of the rows: the acceptable ones. -/
def acceptedRows (store : VectorStore ι α) : VectorMap ι α :=
  store.rows.deleteWhere fun _ v => degenerate v

theorem lookup_acceptedRows (store : VectorStore ι α) (id : ι) :
    (acceptedRows store).lookup id = (store.rows.lookup id).filter fun v => !degenerate v :=
  Rows.lookup_deleteWhere _ _ _

omit [Component α] in
theorem lastOf_listIndexedVectors (store : VectorStore ι α) (id : ι) :
    lastOf store.listIndexedVectors id = store.rows.lookup id := by
  have listed : ∀ v, (id, v) ∈ store.listIndexedVectors ↔ store.rows.lookup id = some v := by
    intro v
    rw [← Rows.mem_entries_iff]
    simp [VectorStore.listIndexedVectors]
  cases last : lastOf store.listIndexedVectors id with
  | some v => exact ((listed v).mp (mem_of_lastOf last)).symm
  | none =>
      cases held : store.rows.lookup id with
      | none => rfl
      | some v => exact absurd rfl (lastOf_eq_none.mp last _ ((listed v).mpr held))

theorem lookup_putAll_rows (store : VectorStore ι α) (id : ι) :
    ((∅ : VectorMap ι α).putAll store.listIndexedVectors).lookup id =
      (acceptedRows store).lookup id := by
  rw [VectorMap.lookup_putAll, lookup_acceptedRows, AList.lookup_empty, Option.or_none]
  have whole := lastOf_listIndexedVectors store id
  cases held : store.rows.lookup id with
  | none =>
      rw [held, lastOf_eq_none] at whole
      exact lastOf_eq_none.mpr fun e mem => whole e (List.mem_filter.mp mem).1
  | some v =>
      rw [held] at whole
      by_cases bad : degenerate v = true
      · simp only [Option.filter, bad, Bool.not_true, Bool.false_eq_true, if_false]
        refine lastOf_eq_none.mpr fun e mem same => ?_
        obtain ⟨listed, good⟩ := List.mem_filter.mp mem
        have row : store.rows.lookup id = some e.2 := by
          obtain ⟨row, inTable, rfl⟩ := List.mem_map.mp listed
          subst same
          exact (Rows.mem_entries_iff _ _ _).mp inTable
        rw [held] at row
        cases row
        simp [bad] at good
      · rw [lastOf_filter_of_keep whole (by simpa using bad)]
        simp [Option.filter, bad]

/-- **The rebuild is total on rows of the right dimension and represents the
acceptable ones.** -/
theorem rebuild_represents (store : VectorStore ι α) (dim : Nat) (model : Option String)
    (positive : dim ≠ 0) (fits : ∀ id v, store.rows.lookup id = some v → v.length = dim) :
    ∃ index, rebuildHnswFromStore store dim model = .ok index ∧
      Represents index (acceptedRows store) ∧ index.dim = dim := by
  obtain ⟨fresh, made⟩ : ∃ fresh : HnswInner ι α,
      HnswInner.withConfig dim defaultEfSearch = .ok fresh := by
    unfold HnswInner.withConfig
    rw [if_neg positive]
    exact ⟨_, rfl⟩
  obtain ⟨maps, refines, freshDim⟩ := idMaps_new dim defaultEfSearch fresh made
  have named : Represents ({ fresh with modelName := model } : HnswInner ι α) ∅ :=
    ⟨⟨maps.inverse, maps.dead, maps.covers⟩,
      ⟨refines.allocated, refines.current, refines.present⟩⟩
  have each : ∀ e ∈ store.listIndexedVectors, e.2.length =
      ({ fresh with modelName := model } : HnswInner ι α).dim := by
    intro e listed
    obtain ⟨row, inTable, rfl⟩ := List.mem_map.mp listed
    rw [freshDim]
    exact fits row.1 row.2 ((Rows.mem_entries_iff _ _ _).mp inTable)
  obtain ⟨index, accepted⟩ := insertAll_total _ _ each
  obtain ⟨rep, dim', -, -⟩ := named.insertAll accepted
  refine ⟨index, ?_, ⟨rep.maps, rep.refines.congr fun id => ?_⟩, dim'.trans freshDim⟩
  · simp only [rebuildHnswFromStore, made, accepted]
  · exact (lookup_putAll_rows store id).symm

end Rebuilt

end Ministr.Index
