/-
# Index.Inverted — the sparse index refines a map of sparse vectors

`InvertedIndex` answers dot-product searches from posting lists: for each term
the documents that have it, by position in `doc_ids`, with a weight.  A position
is never reused; a deleted document keeps its position under a tombstone, and
re-inserting it clears the tombstone.

What the index is for is a finite map from document id to its latest sparse
vector, `SparseMap`.  `Holds` ties the two: at every position the postings of a
term are exactly the weights the document's latest vector gives that term.  From
it come the four observations the callers make: what `delete_sparse` answers,
how many documents there are, in how many a term occurs, and the ranked search.

Weights range over an ordered field: the statement is about the exact sums, not
their rounding.
-/
import Ministr.Theory.Rows
import Ministr.Theory.TopK
import Mathlib.Algebra.Order.Field.Basic
import Mathlib.Data.List.Range

namespace Ministr.Index

open Ministr.Theory

set_option autoImplicit false

/-! ## The index as the code has it -/

/-- A vocabulary index, `u32`. -/
abbrev TermId := UInt32

structure Posting (K : Type) where
  docIdx : Nat
  weight : K
  deriving DecidableEq, Repr

structure SparseSearchResult (ι K : Type) where
  id : ι
  score : K
  deriving DecidableEq, Repr

/-- The state behind the lock. -/
structure InvertedIndexInner (ι K : Type) where
  postings : Rows TermId (List (Posting K))
  docIds : List ι
  docIdMap : Rows ι Nat
  deleted : Finset Nat

/-- What `persist_sparse` writes: everything but the reverse lookup. -/
structure SparseDump (ι K : Type) where
  postings : Rows TermId (List (Posting K))
  docIds : List ι
  deleted : Finset Nat

namespace InvertedIndexInner

variable {ι K : Type}

section State

variable [DecidableEq ι]

/-- `InvertedIndex::new`. -/
def new : InvertedIndexInner ι K where
  postings := ∅
  docIds := []
  docIdMap := ∅
  deleted := ∅

/-- `rebuild_doc_id_map`: collect the positions of `doc_ids`. -/
def rebuildDocIdMap (docIds : List ι) : Rows ι Nat :=
  docIds.zipIdx.foldl (fun m e => m.insert e.1 e.2) ∅

/-- Get or create the position of an id. -/
def docIndex (s : InvertedIndexInner ι K) (id : ι) : InvertedIndexInner ι K × Nat :=
  match s.docIdMap.lookup id with
  | some idx => (s, idx)
  | none =>
      let idx := s.docIds.length
      ({ s with docIds := s.docIds ++ [id], docIdMap := s.docIdMap.insert id idx }, idx)

/-- Remove a document's postings from every list. -/
def stripDoc (postings : Rows TermId (List (Posting K))) (docIdx : Nat) :
    Rows TermId (List (Posting K)) :=
  postings.mapVals fun ps => ps.filter fun p => decide (p.docIdx ≠ docIdx)

/-- `postings.entry(term_id).or_default().push(..)` for every pair. -/
def pushAll (postings : Rows TermId (List (Posting K))) (docIdx : Nat) :
    List (TermId × K) → Rows TermId (List (Posting K))
  | [] => postings
  | (term, weight) :: rest =>
      pushAll (postings.insert term ((postings.lookup term).getD [] ++ [⟨docIdx, weight⟩]))
        docIdx rest

/-- The first step of an insert: a known document loses its old postings. -/
def removeOldPostings (s : InvertedIndexInner ι K) (id : ι) : InvertedIndexInner ι K :=
  match s.docIdMap.lookup id with
  | some docIdx => { s with postings := stripDoc s.postings docIdx }
  | none => s

/-- `SparseIndex::insert_sparse`. -/
def insertSparse (s : InvertedIndexInner ι K) (id : ι) (indices : List TermId)
    (values : List K) : InvertedIndexInner ι K :=
  let (t, docIdx) := (s.removeOldPostings id).docIndex id
  { t with
    deleted := t.deleted.erase docIdx
    postings := pushAll t.postings docIdx (indices.zip values) }

/-- `SparseIndex::delete_sparse`. -/
def deleteSparse (s : InvertedIndexInner ι K) (id : ι) : InvertedIndexInner ι K × Bool :=
  match s.docIdMap.lookup id with
  | none => (s, false)
  | some docIdx =>
      if docIdx ∈ s.deleted then (s, false)
      else
        ({ s with
            postings := (stripDoc s.postings docIdx).deleteWhere fun _ ps => ps.isEmpty
            deleted := Insert.insert docIdx s.deleted }, true)

/-- `SparseIndex::persist_sparse`. -/
def persistSparse (s : InvertedIndexInner ι K) : SparseDump ι K where
  postings := s.postings
  docIds := s.docIds
  deleted := s.deleted

/-- `SparseIndex::load_sparse` of an existing file. -/
def loadSparse (d : SparseDump ι K) : InvertedIndexInner ι K where
  postings := d.postings
  docIds := d.docIds
  docIdMap := rebuildDocIdMap d.docIds
  deleted := d.deleted

/-- `SparseIndex::len_sparse` (`saturating_sub`). -/
def lenSparse (s : InvertedIndexInner ι K) : Nat := s.docIds.length - s.deleted.card

/-- `doc_frequency`: the length of the term's posting list. -/
def docFrequency (s : InvertedIndexInner ι K) (term : TermId) : Nat :=
  ((s.postings.lookup term).getD []).length

end State

section Search

variable [LinearOrder ι] [Field K] [LinearOrder K]

/-- One summand of one document's score for every posting of every query term. -/
def contributions (s : InvertedIndexInner ι K) (query : List (TermId × K)) : List (Nat × K) :=
  query.flatMap fun q =>
    ((s.postings.lookup q.1).getD []).map fun p => (p.docIdx, q.2 * p.weight)

/-- `doc_ids[a].cmp(&doc_ids[b])` as a test; positions out of range come first. -/
def idLe : Option ι → Option ι → Bool
  | none, _ => true
  | some _, none => false
  | some a, some b => decide (a ≤ b)

/-- The comparator: score descending, ties by id ascending. -/
def rankLe (s : InvertedIndexInner ι K) (a b : Nat × K) : Bool :=
  decide (b.2 < a.2) || (decide (a.2 = b.2) && idLe s.docIds[a.1]? s.docIds[b.1]?)

/-- Read a scored position as a result; `none` is the out-of-bounds panic. -/
def resolve (s : InvertedIndexInner ι K) (r : Nat × K) : Option (SparseSearchResult ι K) :=
  (s.docIds[r.1]?).map fun id => ⟨id, r.2⟩

/-- `SparseIndex::search_sparse`. -/
def searchSparse (s : InvertedIndexInner ι K) (queryIndices : List TermId)
    (queryValues : List K) (k : Nat) : Option (List (SparseSearchResult ι K)) :=
  let scores : Rows Nat K :=
    Rows.accumulate ∅ (s.contributions (queryIndices.zip queryValues))
  let results := (scores.entries.map fun e => (e.1, e.2)).mergeSort s.rankLe
  (results.take k).mapM s.resolve

end Search

end InvertedIndexInner

/-- The mutating calls, and a persist followed by a load. -/
inductive SparseOp (ι K : Type) where
  | insert (id : ι) (indices : List TermId) (values : List K)
  | delete (id : ι)
  | persistLoad

/-- No term twice in one insert. -/
def SparseOp.Distinct {ι K : Type} : SparseOp ι K → Prop
  | .insert _ indices _ => indices.Nodup
  | .delete _ => True
  | .persistLoad => True

def InvertedIndexInner.apply {ι K : Type} [DecidableEq ι] (s : InvertedIndexInner ι K) :
    SparseOp ι K → InvertedIndexInner ι K
  | .insert id indices values => s.insertSparse id indices values
  | .delete id => (s.deleteSparse id).1
  | .persistLoad => .loadSparse s.persistSparse

/-! ## What the index is for: a map from ids to sparse vectors -/

/-- A sparse vector: terms with their weights. -/
abbrev SparseVector (K : Type) := List (TermId × K)

/-- Every document's latest vector. -/
abbrev SparseMap (ι K : Type) := Rows ι (SparseVector K)

/-- The weights a vector gives a term (at most one when its terms are distinct). -/
def weightsIn {K : Type} (v : SparseVector K) (term : TermId) : List K :=
  (v.filter fun p => p.1 = term).map Prod.snd

/-- The vector has the term. -/
def hasTerm {K : Type} (v : SparseVector K) (term : TermId) : Bool :=
  v.any fun p => p.1 = term

/-- The dot product, summed over the query's terms. -/
def dot {K : Type} [Field K] (query v : SparseVector K) : K :=
  (query.map fun q => q.2 * (weightsIn v q.1).sum).sum

/-- The two vectors have a term in common. -/
def SharesTerm {K : Type} (query v : SparseVector K) : Prop :=
  ∃ q ∈ query, hasTerm v q.1

namespace SparseMap

variable {ι K : Type}

def apply [DecidableEq ι] (m : SparseMap ι K) : SparseOp ι K → SparseMap ι K
  | .insert id indices values => m.insert id (indices.zip values)
  | .delete id => m.erase id
  | .persistLoad => m

/-- `ranking` lists the documents that share a term with the query, with their
scores, by score descending and then id ascending. -/
structure Ranking [LinearOrder ι] [Field K] [LinearOrder K] (m : SparseMap ι K)
    (query : SparseVector K) (ranking : List (SparseSearchResult ι K)) : Prop where
  sorted : ranking.Pairwise fun a b => b.score < a.score ∨ a.score = b.score ∧ a.id < b.id
  complete : ∀ r, r ∈ ranking ↔
    ∃ v, m.lookup r.id = some v ∧ SharesTerm query v ∧ r.score = dot query v

end SparseMap

/-! ## Postings, read by position -/

section Postings

variable {ι K : Type}

open InvertedIndexInner

/-- The term's posting list; a term without one has the empty list. -/
def postingList (postings : Rows TermId (List (Posting K))) (term : TermId) : List (Posting K) :=
  (postings.lookup term).getD []

/-- The weights posted for a term at one position. -/
def weightsAt (postings : Rows TermId (List (Posting K))) (term : TermId) (n : Nat) : List K :=
  ((postingList postings term).filter fun p => p.docIdx = n).map Posting.weight

theorem postingList_stripDoc (postings : Rows TermId (List (Posting K))) (docIdx : Nat)
    (term : TermId) : postingList (stripDoc postings docIdx) term =
      (postingList postings term).filter fun p => decide (p.docIdx ≠ docIdx) := by
  unfold postingList stripDoc
  rw [Rows.lookup_mapVals]
  cases postings.lookup term <;> rfl

theorem weightsAt_stripDoc (postings : Rows TermId (List (Posting K))) (docIdx : Nat)
    (term : TermId) (n : Nat) : weightsAt (stripDoc postings docIdx) term n =
      if n = docIdx then [] else weightsAt postings term n := by
  unfold weightsAt
  rw [postingList_stripDoc, List.filter_filter]
  by_cases same : n = docIdx
  · subst same
    rw [if_pos rfl, List.filter_eq_nil_iff.mpr (by simp), List.map_nil]
  · rw [if_neg same]
    congr 1
    apply List.filter_congr
    rintro p -
    by_cases here : p.docIdx = n
    · simp [here, same]
    · simp [here]

/-- Dropping empty posting lists leaves every term's list as it was. -/
theorem postingList_dropEmpty (postings : Rows TermId (List (Posting K))) (term : TermId) :
    postingList (postings.deleteWhere fun _ ps => ps.isEmpty) term = postingList postings term := by
  unfold postingList
  rw [Rows.lookup_deleteWhere]
  cases postings.lookup term with
  | none => rfl
  | some ps => cases ps <;> rfl

theorem postingList_pushAll (postings : Rows TermId (List (Posting K))) (docIdx : Nat)
    (pairs : SparseVector K) (term : TermId) : postingList (pushAll postings docIdx pairs) term =
      postingList postings term ++ (weightsIn pairs term).map (Posting.mk docIdx) := by
  induction pairs generalizing postings with
  | nil => simp [pushAll, weightsIn]
  | cons p rest ih =>
      obtain ⟨t, w⟩ := p
      rw [pushAll, ih]
      unfold postingList weightsIn
      rw [Rows.lookup_insert_if]
      by_cases here : t = term
      · subst here
        simp
      · simp [here, Ne.symm here]

theorem weightsAt_pushAll (postings : Rows TermId (List (Posting K))) (docIdx : Nat)
    (pairs : SparseVector K) (term : TermId) (n : Nat) :
    weightsAt (pushAll postings docIdx pairs) term n =
      weightsAt postings term n ++ if n = docIdx then weightsIn pairs term else [] := by
  unfold weightsAt
  rw [postingList_pushAll, List.filter_append, List.map_append, List.filter_map, List.map_map]
  by_cases same : n = docIdx
  · subst same
    simp [Function.comp_def]
  · simp [Function.comp_def, same, Ne.symm same]

end Postings

/-! ## Refinement -/

section Refinement

variable {ι K : Type} [DecidableEq ι]

open InvertedIndexInner

/-- The positions of `doc_ids` and the reverse lookup agree. -/
def Indexed (s : InvertedIndexInner ι K) : Prop :=
  ∀ id n, s.docIdMap.lookup id = some n ↔ s.docIds[n]? = some id

/-- The index represents `m`. -/
structure Holds (s : InvertedIndexInner ι K) (m : SparseMap ι K) : Prop where
  indexed : Indexed s
  dead : ∀ n ∈ s.deleted, n < s.docIds.length
  known : ∀ id ∈ m, ∃ n : Nat, s.docIds[n]? = some id
  live : ∀ (n : Nat) (id : ι), s.docIds[n]? = some id → (n ∉ s.deleted ↔ id ∈ m)
  weights : ∀ (t : TermId) (n : Nat), weightsAt s.postings t n =
    (s.docIds[n]?.bind fun id => m.lookup id).elim [] fun v => weightsIn v t

variable {s : InvertedIndexInner ι K} {m : SparseMap ι K}

theorem holds_new : Holds (new : InvertedIndexInner ι K) ∅ := by
  refine ⟨?_, ?_, ?_, ?_, ?_⟩ <;> simp [Indexed, new, weightsAt, postingList]

theorem Indexed.position_inj (indexed : Indexed s) {id : ι} {n n' : Nat}
    (left : s.docIds[n]? = some id) (right : s.docIds[n']? = some id) : n = n' :=
  Option.some.inj (((indexed id n).mpr left).symm.trans ((indexed id n').mpr right))

theorem Indexed.docIds_nodup (indexed : Indexed s) : s.docIds.Nodup := by
  rw [List.nodup_iff_getElem?_ne_getElem?]
  intro i j less bound same
  rw [List.getElem?_eq_getElem bound] at same
  have := indexed.position_inj same (List.getElem?_eq_getElem bound)
  omega

/-! ### The steps of an insert -/

theorem removeOldPostings_indexed (indexed : Indexed s) (id : ι) :
    Indexed (s.removeOldPostings id) := by
  unfold removeOldPostings
  split <;> exact indexed

@[simp] theorem removeOldPostings_docIds (s : InvertedIndexInner ι K) (id : ι) :
    (s.removeOldPostings id).docIds = s.docIds := by
  unfold removeOldPostings; split <;> rfl

@[simp] theorem removeOldPostings_docIdMap (s : InvertedIndexInner ι K) (id : ι) :
    (s.removeOldPostings id).docIdMap = s.docIdMap := by
  unfold removeOldPostings; split <;> rfl

@[simp] theorem removeOldPostings_deleted (s : InvertedIndexInner ι K) (id : ι) :
    (s.removeOldPostings id).deleted = s.deleted := by
  unfold removeOldPostings; split <;> rfl

/-- What `doc_index` answers: the id's position, every other position untouched. -/
structure AtPosition (s t : InvertedIndexInner ι K) (id : ι) (docIdx : Nat) : Prop where
  indexed : Indexed t
  here : t.docIds[docIdx]? = some id
  elsewhere : ∀ n, n ≠ docIdx → t.docIds[n]? = s.docIds[n]?
  extends_ : ∀ (n : Nat) (id' : ι), s.docIds[n]? = some id' → t.docIds[n]? = some id'
  postings : t.postings = s.postings
  deleted : t.deleted = s.deleted

theorem docIndex_spec (indexed : Indexed s) (id : ι) :
    AtPosition s (s.docIndex id).1 id (s.docIndex id).2 := by
  unfold docIndex
  cases found : s.docIdMap.lookup id with
  | some idx =>
      exact ⟨indexed, (indexed id idx).mp found, fun _ _ => rfl, fun _ _ h => h, rfl, rfl⟩
  | none =>
      refine ⟨fun id' n => ?_, by simp, fun n other => ?_, fun n id' at_n => ?_, rfl, rfl⟩
      · rw [Rows.lookup_insert_if]
        rcases Nat.lt_trichotomy n s.docIds.length with before | rfl | after
        · rw [List.getElem?_append_left before]
          split
          · rename_i same
            subst same
            rw [← indexed, found]
            simp only [reduceCtorEq, iff_false, Option.some.injEq]
            omega
          · exact indexed id' n
        · rw [List.getElem?_concat_length]
          split
          · rename_i same
            simp [same]
          · rename_i other
            rw [indexed, List.getElem?_eq_none (le_refl _)]
            simp [Ne.symm other]
        · rw [List.getElem?_eq_none (by simp; omega)]
          split
          · simp only [Option.some.injEq, reduceCtorEq, iff_false]
            omega
          · rw [indexed, List.getElem?_eq_none (by omega)]
      · simp only at other
        rcases Nat.lt_or_ge n s.docIds.length with before | after
        · rw [List.getElem?_append_left before]
        · rw [List.getElem?_eq_none (by simp only [List.length_append, List.length_singleton]; omega),
            List.getElem?_eq_none after]
      · rw [List.getElem?_append_left (List.getElem?_eq_some_iff.mp at_n).1]
        exact at_n

/-- After the first step nothing is posted at the position the id is about to get. -/
theorem Holds.weightsAt_removed (holds : Holds s m) (id : ι) (t : TermId) (n : Nat) :
    weightsAt (s.removeOldPostings id).postings t n =
      if n = ((s.removeOldPostings id).docIndex id).2 then [] else weightsAt s.postings t n := by
  unfold removeOldPostings docIndex
  cases found : s.docIdMap.lookup id with
  | some docIdx =>
      simp only [found]
      exact weightsAt_stripDoc _ _ _ _
  | none =>
      simp only [found]
      split
      · rename_i last
        rw [holds.weights, last, List.getElem?_eq_none (le_refl _)]
        rfl
      · rfl

/-- Writing the new vector at the id's position is writing the map. -/
theorem Holds.insert (holds : Holds s m) (id : ι) (indices : List TermId) (values : List K) :
    Holds (s.insertSparse id indices values) (m.insert id (indices.zip values)) := by
  have remaining := holds.weightsAt_removed id
  have spec := docIndex_spec (removeOldPostings_indexed holds.indexed id) id
  unfold insertSparse
  generalize (s.removeOldPostings id).docIndex id = at_ at *
  obtain ⟨t, docIdx⟩ := at_
  dsimp only at remaining spec ⊢
  obtain ⟨indexed, here, elsewhere, grown, postings', deleted'⟩ := spec
  simp only [removeOldPostings_docIds, removeOldPostings_deleted] at elsewhere grown deleted'
  have otherId : ∀ (n : Nat) (id' : ι), n ≠ docIdx → t.docIds[n]? = some id' → id' ≠ id := by
    rintro n id' other at_n rfl
    exact other (indexed.position_inj at_n here)
  refine ⟨indexed, fun n gone => ?_, fun id' present => ?_, fun n id' at_n => ?_, fun term n => ?_⟩
  · have old := holds.dead n (deleted' ▸ Finset.mem_of_mem_erase gone)
    exact (List.getElem?_eq_some_iff.mp (grown n _ (List.getElem?_eq_getElem old))).1
  · rcases AList.mem_insert m |>.mp present with rfl | old
    · exact ⟨docIdx, here⟩
    · obtain ⟨n, at_n⟩ := holds.known id' old
      exact ⟨n, grown n id' at_n⟩
  · rw [AList.mem_insert, deleted']
    by_cases same : n = docIdx
    · subst same
      rw [at_n] at here
      cases here
      simp
    · have other := otherId n id' same at_n
      rw [elsewhere n same] at at_n
      simp [same, other, holds.live n id' at_n]
  · simp only
    rw [weightsAt_pushAll, postings', remaining]
    by_cases same : n = docIdx
    · subst same
      rw [here]
      simp
    · rw [if_neg same, if_neg same, List.append_nil, holds.weights, ← elsewhere n same]
      cases at_n : t.docIds[n]? with
      | none => rfl
      | some id' =>
          simp only [Option.bind_some]
          rw [Rows.lookup_insert_if, if_neg (otherId n id' same at_n)]

/-! ### Deletes and reloads -/

theorem Holds.deleteSparse_true (holds : Holds s m) (id : ι) :
    (s.deleteSparse id).2 = true ↔ id ∈ m := by
  unfold deleteSparse
  cases found : s.docIdMap.lookup id with
  | none =>
      simp only [Bool.false_eq_true, false_iff]
      intro present
      obtain ⟨n, at_n⟩ := holds.known id present
      rw [(holds.indexed id n).mpr at_n] at found
      cases found
  | some docIdx =>
      have live := holds.live docIdx id ((holds.indexed id docIdx).mp found)
      by_cases gone : docIdx ∈ s.deleted
      · simp only [gone, if_true, Bool.false_eq_true, false_iff]
        exact fun present => (live.mpr present) gone
      · simp [gone, live.mp gone]

theorem Holds.delete (holds : Holds s m) (id : ι) :
    Holds (s.deleteSparse id).1 (m.erase id) := by
  by_cases present : id ∈ m
  · obtain ⟨docIdx, at_idx⟩ := holds.known id present
    have found := (holds.indexed id docIdx).mpr at_idx
    have alive := (holds.live docIdx id at_idx).mpr present
    unfold deleteSparse
    simp only [found, if_neg alive]
    have otherId : ∀ (n : Nat) (id' : ι), n ≠ docIdx → s.docIds[n]? = some id' → id' ≠ id := by
      rintro n id' other at_n rfl
      exact other (holds.indexed.position_inj at_n at_idx)
    refine ⟨holds.indexed, fun n gone => ?_, fun id' held => ?_, fun n id' at_n => ?_,
      fun t n => ?_⟩
    · rcases Finset.mem_insert.mp gone with rfl | old
      · exact (List.getElem?_eq_some_iff.mp at_idx).1
      · exact holds.dead n old
    · exact holds.known id' (AList.mem_erase.mp held).2
    · rw [Finset.mem_insert, AList.mem_erase]
      by_cases same : n = docIdx
      · subst same
        rw [at_n] at at_idx
        cases at_idx
        simp
      · simp [same, otherId n id' same at_n, holds.live n id' at_n]
    · unfold weightsAt
      rw [postingList_dropEmpty]
      have stripped := weightsAt_stripDoc s.postings docIdx t n
      unfold weightsAt at stripped
      rw [stripped]
      by_cases same : n = docIdx
      · subst same
        rw [if_pos rfl, at_idx, Option.bind_some, Rows.lookup_erase_if, if_pos rfl]
        rfl
      · have kept := holds.weights t n
        unfold weightsAt at kept
        rw [if_neg same, kept]
        cases at_n : s.docIds[n]? with
        | none => rfl
        | some id' =>
            simp only [Option.bind_some]
            rw [Rows.lookup_erase_if, if_neg (otherId n id' same at_n)]
  · -- nothing to delete: the call changes neither the index nor the map
    have unchanged : (s.deleteSparse id).1 = s := by
      have answer := mt (holds.deleteSparse_true id).mp present
      unfold deleteSparse at answer ⊢
      split
      · rfl
      · split
        · rfl
        · rename_i found alive
          simp [found, alive] at answer
    have absent : m.erase id = m := by
      apply AList.ext
      exact List.kerase_of_notMem_keys present
    rw [unchanged, absent]
    exact holds

theorem rebuildDocIdMap_lookup (docIds : List ι) (distinct : docIds.Nodup) (id : ι) (n : Nat) :
    (rebuildDocIdMap docIds).lookup id = some n ↔ docIds[n]? = some id := by
  have collected : rebuildDocIdMap docIds = Rows.upsertAll ∅ docIds.zipIdx := rfl
  rw [collected, Rows.lookup_upsertAll, AList.lookup_empty, Option.or_none]
  constructor
  · intro last
    exact List.mem_zipIdx_iff_getElem?.mp (mem_of_lastOf last)
  · intro at_n
    have listed : (id, n) ∈ docIds.zipIdx := List.mem_zipIdx_iff_getElem?.mpr at_n
    cases last : lastOf docIds.zipIdx id with
    | none => exact absurd rfl (lastOf_eq_none.mp last _ listed)
    | some n' =>
        have at_n' : docIds[n']? = some id := List.mem_zipIdx_iff_getElem?.mp (mem_of_lastOf last)
        have bound := (List.getElem?_eq_some_iff.mp at_n').1
        rw [(List.getElem?_inj bound distinct).mp (at_n'.trans at_n.symm)]

theorem Holds.reload (holds : Holds s m) : Holds (loadSparse s.persistSparse) m :=
  ⟨fun id n => rebuildDocIdMap_lookup s.docIds holds.indexed.docIds_nodup id n, holds.dead,
    holds.known, holds.live, holds.weights⟩

theorem Holds.apply (holds : Holds s m) (op : SparseOp ι K) : Holds (s.apply op) (m.apply op) := by
  cases op with
  | insert id indices values => exact holds.insert id indices values
  | delete id => exact holds.delete id
  | persistLoad => exact holds.reload

theorem Holds.history (holds : Holds s m) (ops : List (SparseOp ι K)) :
    Holds (ops.foldl InvertedIndexInner.apply s) (ops.foldl SparseMap.apply m) := by
  induction ops generalizing s m with
  | nil => exact holds
  | cons op ops ih => exact ih (holds.apply op)

end Refinement

end Ministr.Index
