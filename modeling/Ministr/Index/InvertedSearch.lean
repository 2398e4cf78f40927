/-
# Index.InvertedSearch — what callers observe of the sparse index

The three counts and the ranked search of an index that represents a
`SparseMap` are those of the map.  Positions and ids correspond one to one
(`Indexed`), so each count of positions is a count of ids (`length_eq_ids`); the
score accumulated at a position is the dot product with the document's latest
vector because the postings there are that vector's weights (`Holds.weights`).
-/
import Ministr.Index.Inverted
import Mathlib.Algebra.Order.Ring.Unbundled.Rat
import Mathlib.Data.Rat.Lemmas
import Mathlib.Algebra.Field.Rat
import Mathlib.Algebra.BigOperators.Ring.List

namespace Ministr.Index

open Ministr.Theory
open InvertedIndexInner

set_option autoImplicit false

section Counts

variable {ι K : Type} [DecidableEq ι] {s : InvertedIndexInner ι K} {m : SparseMap ι K}

/-- A list of distinct positions is as long as the list of the ids at them. -/
theorem Indexed.length_eq_ids (indexed : Indexed s) {ns : List Nat} {ids : List ι}
    (distinct : ns.Nodup) (distinctIds : ids.Nodup) (filled : ∀ n ∈ ns, n < s.docIds.length)
    (same : ∀ id, id ∈ ids ↔ ∃ n ∈ ns, s.docIds[n]? = some id) : ns.length = ids.length := by
  have read : (ns.filterMap fun n => s.docIds[n]?).length = ns.length := by
    rw [List.filterMap_length_eq_length]
    intro n mem
    simp [filled n mem]
  rw [← read]
  apply List.Perm.length_eq
  refine (List.perm_ext_iff_of_nodup ?_ distinctIds).mpr fun id => ?_
  · refine List.Pairwise.filterMap _ (fun n n' ne id at_n id' at_n' => ?_) distinct
    rintro rfl
    exact ne (indexed.position_inj at_n at_n')
  · rw [same, List.mem_filterMap]

theorem Holds.lenSparse_eq (holds : Holds s m) : s.lenSparse = m.keys.length := by
  have counted : ((List.range s.docIds.length).filter fun n => n ∉ s.deleted).length =
      s.docIds.length - s.deleted.card := by
    have sub : s.deleted ⊆ Finset.range s.docIds.length := fun n gone =>
      Finset.mem_range.mpr (holds.dead n gone)
    have set : ((List.range s.docIds.length).filter fun n => n ∉ s.deleted).toFinset =
        Finset.range s.docIds.length \ s.deleted := by
      ext n
      simp
    rw [← List.toFinset_card_of_nodup (List.nodup_range.filter _), set,
      Finset.card_sdiff_of_subset sub, Finset.card_range]
  rw [lenSparse, ← counted]
  refine holds.indexed.length_eq_ids (List.nodup_range.filter _) m.keys_nodup
    (fun n mem => List.mem_range.mp (List.mem_filter.mp mem).1) fun id => ?_
  rw [← AList.mem_keys]
  constructor
  · intro present
    obtain ⟨n, at_n⟩ := holds.known id present
    refine ⟨n, ?_, at_n⟩
    simpa [(List.getElem?_eq_some_iff.mp at_n).1] using (holds.live n id at_n).mpr present
  · rintro ⟨n, listed, at_n⟩
    exact (holds.live n id at_n).mp (by simpa using (List.mem_filter.mp listed).2)

/-- The terms of every document's vector are distinct. -/
def DistinctTerms (m : SparseMap ι K) : Prop :=
  ∀ id v, m.lookup id = some v → (v.map Prod.fst).Nodup

theorem zip_terms_nodup {indices : List TermId} (values : List K) (distinct : indices.Nodup) :
    ((indices.zip values).map Prod.fst).Nodup := by
  refine distinct.sublist ?_
  induction indices generalizing values with
  | nil => simp
  | cons i indices ih =>
      cases values with
      | nil => simp
      | cons v values => exact (ih values (List.nodup_cons.mp distinct).2).cons_cons i

theorem DistinctTerms.history {ops : List (SparseOp ι K)} (each : ∀ op ∈ ops, op.Distinct)
    (distinct : DistinctTerms m) : DistinctTerms (ops.foldl SparseMap.apply m) := by
  induction ops generalizing m with
  | nil => exact distinct
  | cons op ops ih =>
      refine ih (fun op' mem => each op' (List.mem_cons_of_mem _ mem)) ?_
      have here := each op List.mem_cons_self
      intro id v found
      cases op with
      | insert id' indices values =>
          rw [SparseMap.apply, Rows.lookup_insert_if] at found
          split at found
          · cases found
            exact zip_terms_nodup values here
          · exact distinct id v found
      | delete id' =>
          rw [SparseMap.apply, Rows.lookup_erase_if] at found
          split at found
          · cases found
          · exact distinct id v found
      | persistLoad => exact distinct id v found

theorem weightsIn_length_le_one {v : SparseVector K} (distinct : (v.map Prod.fst).Nodup)
    (term : TermId) : (weightsIn v term).length ≤ 1 := by
  have once := List.nodup_iff_count_le_one.mp distinct term
  rw [List.count_eq_length_filter, List.filter_map, List.length_map] at once
  unfold weightsIn
  rw [List.length_map]
  refine le_trans (le_of_eq ?_) once
  congr 1

theorem weightsIn_eq_nil_iff (v : SparseVector K) (term : TermId) :
    weightsIn v term = [] ↔ hasTerm v term = false := by
  simp [weightsIn, hasTerm]

/-- Something is posted at a position exactly when the document there has the
term. -/
theorem Holds.weightsAt_ne_nil_iff (holds : Holds s m) (term : TermId) (n : Nat) :
    weightsAt s.postings term n ≠ [] ↔
      ∃ id v, s.docIds[n]? = some id ∧ m.lookup id = some v ∧ hasTerm v term = true := by
  rw [holds.weights]
  cases at_n : s.docIds[n]? with
  | none => simp
  | some id =>
      cases found : m.lookup id with
      | none => simp [found]
      | some v => simp [found, weightsIn_eq_nil_iff]

theorem mem_docIdx_iff (postings : Rows TermId (List (Posting K))) (term : TermId) (n : Nat) :
    n ∈ (postingList postings term).map Posting.docIdx ↔ weightsAt postings term n ≠ [] := by
  simp [weightsAt, List.filter_eq_nil_iff]

theorem Holds.docFrequency_eq (holds : Holds s m) (distinct : DistinctTerms m) (term : TermId) :
    s.docFrequency term = (m.keysWhere fun _ v => hasTerm v term).length := by
  have count : ∀ n, ((postingList s.postings term).map Posting.docIdx).count n =
      (weightsAt s.postings term n).length := by
    intro n
    rw [List.count_eq_length_filter, List.filter_map, List.length_map, weightsAt, List.length_map]
    congr 1
  have length : s.docFrequency term =
      ((postingList s.postings term).map Posting.docIdx).length := by
    rw [List.length_map]
    rfl
  rw [length]
  refine holds.indexed.length_eq_ids ?_ ?_ (fun n mem => ?_) fun id => ?_
  · refine List.nodup_iff_count_le_one.mpr fun n => ?_
    rw [count, holds.weights]
    cases found : s.docIds[n]?.bind fun id => m.lookup id with
    | none => simp
    | some v =>
        obtain ⟨id, -, held⟩ := Option.bind_eq_some_iff.mp found
        exact weightsIn_length_le_one (distinct id v held) term
  · exact m.keys_nodup.sublist (List.filter_sublist.map _)
  · obtain ⟨id, v, at_n, -⟩ :=
      (holds.weightsAt_ne_nil_iff term n).mp ((mem_docIdx_iff s.postings term n).mp mem)
    exact (List.getElem?_eq_some_iff.mp at_n).1
  · rw [Rows.mem_keysWhere]
    constructor
    · rintro ⟨v, held, has⟩
      obtain ⟨n, at_n⟩ := holds.known id ((Rows.mem_iff_lookup m id).mpr ⟨v, held⟩)
      exact ⟨n, (mem_docIdx_iff s.postings term n).mpr
        ((holds.weightsAt_ne_nil_iff term n).mpr ⟨id, v, at_n, held, has⟩), at_n⟩
    · rintro ⟨n, mem, at_n⟩
      obtain ⟨id', v, at_n', held, has⟩ :=
        (holds.weightsAt_ne_nil_iff term n).mp ((mem_docIdx_iff s.postings term n).mp mem)
      rw [at_n] at at_n'
      cases at_n'
      exact ⟨v, held, has⟩

end Counts

/-! ## The ranked search -/

section Search

variable {ι K : Type} [LinearOrder ι] [Field K] [LinearOrder K]
variable {s : InvertedIndexInner ι K} {m : SparseMap ι K}

theorem idLe_trans {a b c : Option ι} (ab : idLe a b = true) (bc : idLe b c = true) :
    idLe a c = true := by
  cases a <;> cases b <;> cases c <;> simp_all [idLe]
  exact le_trans ab bc

theorem idLe_total (a b : Option ι) : idLe a b = true ∨ idLe b a = true := by
  cases a <;> cases b <;> simp [idLe]
  exact le_total _ _

omit [Field K] in
theorem rankLe_iff (s : InvertedIndexInner ι K) (a b : Nat × K) : s.rankLe a b = true ↔
    b.2 < a.2 ∨ a.2 = b.2 ∧ idLe s.docIds[a.1]? s.docIds[b.1]? = true := by
  simp [rankLe]

omit [Field K] in
theorem rankLe_sorts (s : InvertedIndexInner ι K) (l : List (Nat × K)) :
    (l.mergeSort s.rankLe).Pairwise fun a b => s.rankLe a b = true := by
  refine List.pairwise_mergeSort (fun a b c ab bc => ?_) (fun a b => ?_) l
  · rw [rankLe_iff] at ab bc ⊢
    rcases ab with less | ⟨eq, le⟩ <;> rcases bc with less' | ⟨eq', le'⟩
    · exact Or.inl (lt_trans less' less)
    · exact Or.inl (eq' ▸ less)
    · exact Or.inl (eq ▸ less')
    · exact Or.inr ⟨eq.trans eq', idLe_trans le le'⟩
  · rw [Bool.or_eq_true, rankLe_iff, rankLe_iff]
    rcases lt_trichotomy a.2 b.2 with less | eq | greater
    · exact Or.inr (Or.inl less)
    · rcases idLe_total s.docIds[a.1]? s.docIds[b.1]? with le | ge
      · exact Or.inl (Or.inr ⟨eq, le⟩)
      · exact Or.inr (Or.inr ⟨eq.symm, ge⟩)
    · exact Or.inl (Or.inl greater)

/-- The score map of a query. -/
def scoresOf (s : InvertedIndexInner ι K) (query : SparseVector K) : Rows Nat K :=
  Rows.accumulate ∅ (s.contributions query)

omit [LinearOrder ι] [LinearOrder K] in
theorem contribution_at_iff (s : InvertedIndexInner ι K) (query : SparseVector K) (n : Nat) :
    (∃ e ∈ s.contributions query, e.1 = n) ↔ ∃ q ∈ query, weightsAt s.postings q.1 n ≠ [] := by
  simp only [contributions, List.mem_flatMap, List.mem_map]
  constructor
  · rintro ⟨-, ⟨q, asked, p, posted, rfl⟩, rfl⟩
    exact ⟨q, asked, (mem_docIdx_iff _ _ _).mp (List.mem_map_of_mem posted)⟩
  · rintro ⟨q, asked, some⟩
    obtain ⟨p, posted, at_n⟩ := List.mem_map.mp ((mem_docIdx_iff _ _ _).mpr some)
    exact ⟨_, ⟨q, asked, p, posted, rfl⟩, at_n⟩

omit [LinearOrder ι] [LinearOrder K] in
/-- What is accumulated at a position, term by term. -/
theorem contributions_sum (s : InvertedIndexInner ι K) (query : SparseVector K) (n : Nat) :
    (((s.contributions query).filter fun e => e.1 = n).map Prod.snd).sum =
      (query.map fun q => q.2 * (weightsAt s.postings q.1 n).sum).sum := by
  induction query with
  | nil => rfl
  | cons q query ih =>
      have here : ((((postingList s.postings q.1).map fun p => (p.docIdx, q.2 * p.weight)).filter
          fun e => e.1 = n).map Prod.snd).sum = q.2 * (weightsAt s.postings q.1 n).sum := by
        rw [List.filter_map, List.map_map, weightsAt, ← List.sum_map_mul_left]
        rfl
      rw [List.map_cons, List.sum_cons, ← ih, ← here]
      simp only [contributions, List.flatMap_cons, List.filter_append, List.map_append,
        List.sum_append]
      rfl

omit [LinearOrder K] in
/-- The score map has a position exactly when the document there shares a term
with the query, and then with the dot product. -/
theorem Holds.lookup_scores (holds : Holds s m) (query : SparseVector K) (n : Nat) (x : K) :
    (scoresOf s query).lookup n = some x ↔
      ∃ id v, s.docIds[n]? = some id ∧ m.lookup id = some v ∧ SharesTerm query v ∧
        x = dot query v := by
  have sum : ∀ id v, s.docIds[n]? = some id → m.lookup id = some v →
      (query.map fun q => q.2 * (weightsAt s.postings q.1 n).sum).sum = dot query v := by
    intro id v at_n held
    unfold dot
    congr 1
    apply List.map_congr_left
    intro q _
    rw [holds.weights, at_n, Option.bind_some, held]
    rfl
  rw [scoresOf, Rows.lookup_accumulate]
  split
  · rename_i contributes
    obtain ⟨q, asked, posted⟩ := (contribution_at_iff s query n).mp contributes
    obtain ⟨id, v, at_n, held, has⟩ := (holds.weightsAt_ne_nil_iff q.1 n).mp posted
    rw [contributions_sum, sum id v at_n held]
    simp only [AList.lookup_empty, Option.getD_none, zero_add, Option.some.injEq]
    constructor
    · rintro rfl
      exact ⟨id, v, at_n, held, ⟨q, asked, has⟩, rfl⟩
    · rintro ⟨id', v', at_n', held', -, rfl⟩
      rw [at_n] at at_n'
      cases at_n'
      rw [held] at held'
      cases held'
      rfl
  · rename_i silent
    simp only [AList.lookup_empty, reduceCtorEq, false_iff]
    rintro ⟨id, v, at_n, held, ⟨q, asked, has⟩, -⟩
    exact silent ((contribution_at_iff s query n).mpr ⟨q, asked,
      (holds.weightsAt_ne_nil_iff q.1 n).mpr ⟨id, v, at_n, held, has⟩⟩)

/-- The scored positions, in the order of the comparator. -/
def scored (s : InvertedIndexInner ι K) (query : SparseVector K) : List (Nat × K) :=
  ((scoresOf s query).entries.map fun e => (e.1, e.2)).mergeSort s.rankLe

theorem mem_scored_iff (s : InvertedIndexInner ι K) (query : SparseVector K) (r : Nat × K) :
    r ∈ scored s query ↔ (scoresOf s query).lookup r.1 = some r.2 := by
  rw [scored, List.mem_mergeSort, List.mem_map, ← Rows.mem_entries_iff]
  constructor
  · rintro ⟨e, mem, rfl⟩
    exact mem
  · exact fun mem => ⟨_, mem, rfl⟩

theorem scored_positions_nodup (s : InvertedIndexInner ι K) (query : SparseVector K) :
    (scored s query).Pairwise fun a b => a.1 ≠ b.1 := by
  refine List.pairwise_map.mp ?_
  rw [scored]
  refine ((List.mergeSort_perm _ s.rankLe).map Prod.fst).nodup_iff.mpr ?_
  rw [List.map_map]
  exact (scoresOf s query).nodupKeys

/-- A query has one ranking: its order is strict. -/
theorem SparseMap.Ranking.unique {query : SparseVector K} {rs rs' : List (SparseSearchResult ι K)}
    (one : m.Ranking query rs) (other : m.Ranking query rs') : rs = rs' := by
  refine eq_of_pairwise_of_mem_iff (fun a => ?_) (fun a b ab ba => ?_) one.sorted other.sorted
    fun r => (one.complete r).trans (other.complete r).symm
  · rintro (less | ⟨-, less⟩) <;> exact lt_irrefl _ less
  · rcases ab with less | ⟨eq, less⟩ <;> rcases ba with less' | ⟨eq', less'⟩
    · exact lt_asymm less less'
    · exact absurd eq' (ne_of_lt less)
    · exact absurd eq (ne_of_lt less')
    · exact lt_asymm less less'

/-- The whole answer, before the cut. -/
def ranking (s : InvertedIndexInner ι K) (query : SparseVector K) :
    List (SparseSearchResult ι K) :=
  (scored s query).filterMap s.resolve

theorem Holds.ranking_spec (holds : Holds s m) (query : SparseVector K) :
    m.Ranking query (ranking s query) := by
  constructor
  · refine List.Pairwise.filterMap s.resolve (R := fun a b => s.rankLe a b = true ∧ a.1 ≠ b.1)
      (fun a b order r readA r' readB => ?_)
      ((rankLe_sorts s _).and (scored_positions_nodup s query))
    obtain ⟨le, ne⟩ := order
    obtain ⟨idA, at_a, rfl⟩ := Option.map_eq_some_iff.mp readA
    obtain ⟨idB, at_b, rfl⟩ := Option.map_eq_some_iff.mp readB
    rcases (rankLe_iff s a b).mp le with less | ⟨eq, idOrder⟩
    · exact Or.inl less
    · -- equal scores at different positions are different ids, so the tie-break is strict
      rw [at_a, at_b] at idOrder
      refine Or.inr ⟨eq, lt_of_le_of_ne (by simpa [idLe] using idOrder) ?_⟩
      rintro rfl
      exact ne (holds.indexed.position_inj at_a at_b)
  · intro r
    rw [ranking, List.mem_filterMap]
    constructor
    · rintro ⟨⟨n, x⟩, listed, read⟩
      obtain ⟨id, at_n, rfl⟩ := Option.map_eq_some_iff.mp read
      obtain ⟨id', v, at_n', held, shares, eq⟩ :=
        (holds.lookup_scores query n x).mp ((mem_scored_iff s query _).mp listed)
      rw [at_n] at at_n'
      cases at_n'
      exact ⟨v, held, shares, eq⟩
    · rintro ⟨v, held, shares, eq⟩
      obtain ⟨n, at_n⟩ := holds.known r.id ((Rows.mem_iff_lookup m r.id).mpr ⟨v, held⟩)
      refine ⟨(n, r.score), (mem_scored_iff s query _).mpr
        ((holds.lookup_scores query n r.score).mpr ⟨r.id, v, at_n, held, shares, eq⟩), ?_⟩
      rw [resolve, at_n]
      rfl

/-- The search is the first `k` of the ranking, and never reads out of bounds. -/
theorem Holds.searchSparse_eq (holds : Holds s m) (indices : List TermId) (values : List K)
    (k : Nat) : s.searchSparse indices values k =
      some ((ranking s (indices.zip values)).take k) := by
  have total : ∀ r ∈ scored s (indices.zip values), (s.resolve r).isSome := by
    intro r listed
    obtain ⟨id, v, at_n, -⟩ :=
      (holds.lookup_scores _ r.1 r.2).mp ((mem_scored_iff s _ r).mp listed)
    simp [resolve, at_n]
  have cut := take_filterMap_take s.resolve (scored s (indices.zip values)) k 0
    (le_of_eq (List.length_eq_zero_iff.mpr (List.filter_eq_nil_iff.mpr fun r listed => by
      simp [Option.isSome_iff_ne_none.mp (total r listed)])))
  have read := mapM_eq_filterMap s.resolve ((scored s (indices.zip values)).take k)
    fun r listed => total r (List.mem_of_mem_take listed)
  have short : (((scored s (indices.zip values)).take k).filterMap s.resolve).take k =
      ((scored s (indices.zip values)).take k).filterMap s.resolve :=
    List.take_of_length_le (le_trans (List.length_filterMap_le _ _) (List.length_take_le _ _))
  rw [ranking, ← cut, Nat.add_zero, short, ← read]
  rfl

end Search

/-! ## Every history -/

section History

variable {ι K : Type} [LinearOrder ι] [Field K] [LinearOrder K]

/-- After any calls on a new index whose inserts name no term twice, everything
a caller can observe is what the map of latest vectors says: whether a delete
finds its id, how many ids are live, how many of them have a term, and the first
`k` of the ranking. -/
theorem invertedIndex_history (ops : List (SparseOp ι K)) (distinct : ∀ op ∈ ops, op.Distinct) :
    let s : InvertedIndexInner ι K := ops.foldl InvertedIndexInner.apply .new
    let m : SparseMap ι K := ops.foldl SparseMap.apply ∅
    (∀ id, (s.deleteSparse id).2 = true ↔ id ∈ m) ∧
      s.lenSparse = m.keys.toFinset.card ∧
      (∀ term, s.docFrequency term = (m.keysWhere fun _ v => hasTerm v term).toFinset.card) ∧
      ∀ indices values, (∃ ranking, m.Ranking (indices.zip values) ranking) ∧
        ∀ ranking, m.Ranking (indices.zip values) ranking →
          ∀ k, s.searchSparse indices values k = some (ranking.take k) := by
  intro s m
  have holds : Holds s m := holds_new.history ops
  have terms : DistinctTerms m := DistinctTerms.history distinct fun id v found => by cases found
  refine ⟨holds.deleteSparse_true, ?_, fun term => ?_, fun indices values =>
    ⟨⟨_, holds.ranking_spec _⟩, fun rs spec k => ?_⟩⟩
  · rw [List.toFinset_card_of_nodup m.keys_nodup, holds.lenSparse_eq]
  · have once : (m.keysWhere fun _ v => hasTerm v term).Nodup :=
      m.keys_nodup.sublist (List.filter_sublist.map _)
    rw [List.toFinset_card_of_nodup once, holds.docFrequency_eq terms]
  · rw [spec.unique (holds.ranking_spec _)]
    exact holds.searchSparse_eq indices values k

end History

/-- A re-insert, a delete with a repeat, and a reload: the map keeps one document
and the index answers for it. -/
theorem invertedIndex_history_reinsert :
    let ops : List (SparseOp Nat ℚ) :=
      [.insert 1 [10, 20] [1, 2], .insert 2 [10] [5], .insert 1 [20] [3], .delete 2, .delete 2,
        .persistLoad]
    let s : InvertedIndexInner Nat ℚ := ops.foldl InvertedIndexInner.apply .new
    let m : SparseMap Nat ℚ := ops.foldl SparseMap.apply ∅
    (∀ op ∈ ops, op.Distinct) ∧ m.lookup 1 = some [(20, 3)] ∧ m.lookup 2 = none ∧
      (s.deleteSparse 2).2 = false ∧ s.lenSparse = 1 ∧ s.docFrequency 10 = 0 ∧
      ∃ ranking, m.Ranking [(20, 2)] ranking ∧ s.searchSparse [20] [2] 5 = some (ranking.take 5) := by
  intro ops s m
  have distinct : ∀ op ∈ ops, op.Distinct := by
    simp [ops, SparseOp.Distinct]
  obtain ⟨deleted, length, frequency, search⟩ := invertedIndex_history ops distinct
  obtain ⟨⟨ranking, spec⟩, answer⟩ := search [20] [2]
  refine ⟨distinct, by decide, by decide, ?_, ?_, ?_, ranking, spec, answer ranking spec 5⟩
  · have absent : (2 : Nat) ∉ m := by decide
    exact Bool.eq_false_iff.mpr (mt (deleted 2).mp absent)
  · exact length.trans (by decide)
  · exact (frequency 10).trans (by decide)

end Ministr.Index
