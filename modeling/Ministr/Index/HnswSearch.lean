/-
# Index.HnswSearch — the over-fetched search is exact

`search_knn` asks the graph for `k` plus the number of tombstones, drops the
tombstones and keeps `k`.  Every point in the graph is live or tombstoned
(`IdMaps.covers`), so the graph's answer has at most that many entries to drop
and the cut leaves the `k` nearest live points (`take_filterMap_take`).

`k` and the number of tombstones are added as natural numbers: the premise is that their sum stays
below `2 ^ 64`, which every caller's bound on `k` gives.
-/
import Ministr.Index.Hnsw
import Ministr.Theory.TopK

namespace Ministr.Index

open Ministr.Theory
open HnswInner

set_option autoImplicit false

section Search

variable {ι α δ : Type} [DecidableEq ι] [LinearOrder δ]

/-- What the third-party search answers: the stored points ranked by distance to
the query, cut to the number asked for. -/
def NearestFirst (search : GraphSearch α δ) (dist : List α → List α → δ) : Prop :=
  ∀ points query n ef, ∃ ranked : List (Nat × δ),
    ranked.Perm (points.map fun p => (p.1, dist query p.2)) ∧
      ranked.Pairwise (fun a b => a.2 ≤ b.2) ∧ search points query n ef = ranked.take n

/-- `rs` are the `min k live` nearest vectors of the map, nearest first. -/
structure NearestLive (m : VectorMap ι α) (dist : List α → List α → δ) (query : List α) (k : Nat)
    (rs : List (SearchResult ι δ)) : Prop where
  count : rs.length = min k m.keys.length
  distinct : (rs.map SearchResult.id).Nodup
  live : ∀ r ∈ rs, ∃ v, m.lookup r.id = some v ∧ r.distance = dist query v
  sorted : rs.Pairwise fun a b => a.distance ≤ b.distance
  nearest : ∀ id v, m.lookup id = some v → id ∉ rs.map SearchResult.id →
    ∀ r ∈ rs, r.distance ≤ dist query v

variable {s : HnswInner ι α} {m : VectorMap ι α}

omit [LinearOrder δ] in
/-- On the points of the graph, `keep` answers exactly the live ones. -/
theorem keep_eq_none_iff (maps : IdMaps s) {n : Nat} (d : δ) (stored : n < s.nextId) :
    s.keep (n, d) = none ↔ n ∈ s.deleted := by
  unfold keep
  constructor
  · intro dropped
    by_contra alive
    rw [if_neg alive, Option.map_eq_none_iff] at dropped
    have live : n ∈ s.intToId := ((maps.covers n).mpr stored).resolve_right alive
    obtain ⟨id, held⟩ := (Rows.mem_iff_lookup _ n).mp live
    rw [dropped] at held
    cases held
  · exact fun dead => if_pos dead

omit [LinearOrder δ] in
theorem keep_eq_some_iff (maps : IdMaps s) (n : Nat) (d : δ) (r : SearchResult ι δ) :
    s.keep (n, d) = some r ↔ s.idToInt.lookup r.id = some n ∧ r.distance = d := by
  unfold keep
  constructor
  · intro kept
    split at kept
    · cases kept
    · obtain ⟨id, held, rfl⟩ := Option.map_eq_some_iff.mp kept
      exact ⟨(maps.inverse id n).mpr held, rfl⟩
  · rintro ⟨found, rfl⟩
    have held := (maps.inverse _ _).mp found
    have alive : n ∉ s.deleted := fun dead => by rw [maps.dead n dead] at held; cases held
    rw [if_neg alive, held]
    rfl

section Ranked

variable {ranked : List (Nat × δ)} {dist : List α → List α → δ} {query : List α}

omit [DecidableEq ι] [LinearOrder δ] in
theorem ranked_fst_perm [DecidableEq ι] (refines : Refines s m)
    (perm : ranked.Perm (s.points.map fun p => (p.1, dist query p.2))) :
    (ranked.map Prod.fst).Perm (List.range s.nextId) := by
  have := perm.map Prod.fst
  rw [List.map_map] at this
  rw [← refines.allocated]
  exact this

omit [LinearOrder δ] in
/-- The ranking has at most one entry to drop for every tombstone. -/
theorem dropped_le (maps : IdMaps s) (refines : Refines s m)
    (perm : ranked.Perm (s.points.map fun p => (p.1, dist query p.2))) :
    (ranked.filter fun n => (s.keep n).isNone).length ≤ s.deleted.card := by
  have fst := ranked_fst_perm refines perm
  have ids : ((ranked.filter fun n => (s.keep n).isNone).map Prod.fst).Nodup :=
    (fst.nodup_iff.mpr List.nodup_range).sublist (List.filter_sublist.map _)
  rw [← List.length_map (f := Prod.fst), ← List.toFinset_card_of_nodup ids]
  apply Finset.card_le_card
  intro n mem
  rw [List.mem_toFinset, List.mem_map] at mem
  obtain ⟨⟨n, d⟩, dropped, rfl⟩ := mem
  obtain ⟨inRank, none⟩ := List.mem_filter.mp dropped
  have stored : n < s.nextId :=
    List.mem_range.mp (fst.mem_iff.mp (List.mem_map_of_mem (f := Prod.fst) inRank))
  exact (keep_eq_none_iff maps d stored).mp (by simpa using none)

omit [LinearOrder δ] in
/-- What survives of the full ranking is the represented map, with distances. -/
theorem mem_kept_iff (maps : IdMaps s) (refines : Refines s m)
    (perm : ranked.Perm (s.points.map fun p => (p.1, dist query p.2))) (r : SearchResult ι δ) :
    r ∈ ranked.filterMap s.keep ↔
      ∃ v, m.lookup r.id = some v ∧ r.distance = dist query v := by
  rw [List.mem_filterMap]
  constructor
  · rintro ⟨⟨n, d⟩, inRank, kept⟩
    obtain ⟨found, rfl⟩ := (keep_eq_some_iff maps n d r).mp kept
    obtain ⟨⟨n', v⟩, inGraph, eq⟩ := List.mem_map.mp (perm.mem_iff.mp inRank)
    simp only [Prod.mk.injEq] at eq
    obtain ⟨rfl, distance⟩ := eq
    exact ⟨v, refines.current r.id n' v found inGraph, distance.symm⟩
  · rintro ⟨v, held, distance⟩
    obtain ⟨n, found, inGraph⟩ := refines.present r.id v held
    exact ⟨(n, dist query v), perm.mem_iff.mpr (List.mem_map.mpr ⟨(n, v), inGraph, rfl⟩),
      (keep_eq_some_iff maps n _ r).mpr ⟨found, distance⟩⟩

omit [LinearOrder δ] in
/-- No id survives twice. -/
theorem kept_ids_nodup (maps : IdMaps s) (refines : Refines s m)
    (perm : ranked.Perm (s.points.map fun p => (p.1, dist query p.2))) :
    ((ranked.filterMap s.keep).map SearchResult.id).Nodup := by
  have distinct : ranked.Pairwise fun a b => a.1 ≠ b.1 :=
    List.pairwise_map.mp ((ranked_fst_perm refines perm).nodup_iff.mpr List.nodup_range)
  refine List.pairwise_map.mpr (List.Pairwise.filterMap s.keep (fun a b ne r keptA r' keptB => ?_)
    distinct)
  intro same
  have left := ((keep_eq_some_iff maps a.1 a.2 r).mp keptA).1
  have right := ((keep_eq_some_iff maps b.1 b.2 r').mp keptB).1
  rw [same, right] at left
  exact ne (Option.some.inj left).symm

omit [LinearOrder δ] in
theorem kept_length (maps : IdMaps s) (refines : Refines s m)
    (perm : ranked.Perm (s.points.map fun p => (p.1, dist query p.2))) :
    (ranked.filterMap s.keep).length = m.keys.length := by
  rw [← List.length_map (f := SearchResult.id)]
  refine List.Perm.length_eq ((List.perm_ext_iff_of_nodup (kept_ids_nodup maps refines perm)
    m.keys_nodup).mpr fun id => ?_)
  rw [List.mem_map, ← AList.mem_keys, Rows.mem_iff_lookup]
  constructor
  · rintro ⟨r, kept, rfl⟩
    obtain ⟨v, held, -⟩ := (mem_kept_iff maps refines perm r).mp kept
    exact ⟨v, held⟩
  · rintro ⟨v, held⟩
    exact ⟨⟨id, dist query v⟩, (mem_kept_iff maps refines perm _).mpr ⟨v, held, rfl⟩, rfl⟩

end Ranked

/-! ## Counting the live ids -/

/-- The ids the live integers stand for are the keys of the forward map. -/
theorem intToId_values_perm (maps : IdMaps s) :
    (s.intToId.entries.map Sigma.snd).Perm s.idToInt.keys := by
  have distinct : (s.intToId.entries.map Sigma.snd).Nodup := by
    refine List.pairwise_map.mpr ((List.nodupKeys_iff_pairwise.mp s.intToId.nodupKeys).imp_of_mem ?_)
    rintro ⟨n, id⟩ ⟨n', id'⟩ left right ne same
    cases same
    have l := (maps.inverse id n).mpr ((Rows.mem_entries_iff _ _ _).mp left)
    have r := (maps.inverse id n').mpr ((Rows.mem_entries_iff _ _ _).mp right)
    exact ne (Option.some.inj (l.symm.trans r))
  refine (List.perm_ext_iff_of_nodup distinct s.idToInt.keys_nodup).mpr fun id => ?_
  rw [← AList.mem_keys, Rows.mem_iff_lookup, List.mem_map]
  constructor
  · rintro ⟨⟨n, id⟩, listed, rfl⟩
    exact ⟨n, (maps.inverse id n).mpr ((Rows.mem_entries_iff _ _ _).mp listed)⟩
  · rintro ⟨n, found⟩
    exact ⟨⟨n, id⟩, (Rows.mem_entries_iff _ _ _).mpr ((maps.inverse id n).mp found), rfl⟩

theorem len_eq_ids (maps : IdMaps s) : s.len = s.idToInt.keys.length := by
  rw [← (intToId_values_perm maps).length_eq]
  simp [len, AList.keys, List.keys]

/-- An id is live exactly when the represented map has it. -/
theorem live_iff (maps : IdMaps s) (refines : Refines s m) (id : ι) : id ∈ s.idToInt ↔ id ∈ m := by
  rw [Rows.mem_iff_lookup, Rows.mem_iff_lookup]
  constructor
  · rintro ⟨n, found⟩
    have stored : n ∈ s.points.map Prod.fst := by
      rw [refines.allocated]
      exact List.mem_range.mpr (maps.lt found)
    obtain ⟨⟨n', v⟩, inGraph, rfl⟩ := List.mem_map.mp stored
    exact ⟨v, refines.current id n' v found inGraph⟩
  · rintro ⟨v, held⟩
    obtain ⟨n, found, -⟩ := refines.present id v held
    exact ⟨n, found⟩

theorem len_eq (maps : IdMaps s) (refines : Refines s m) : s.len = m.keys.length := by
  rw [len_eq_ids maps]
  refine List.Perm.length_eq ((List.perm_ext_iff_of_nodup s.idToInt.keys_nodup
    m.keys_nodup).mpr fun id => ?_)
  rw [← AList.mem_keys, ← AList.mem_keys]
  exact live_iff maps refines id

/-- **The over-fetched, filtered, cut search returns the nearest live vectors.** -/
theorem searchKnn_nearest {search : GraphSearch α δ} {dist : List α → List α → δ}
    (nearest : NearestFirst search dist) (maps : IdMaps s) (refines : Refines s m)
    (query : List α) (k : Nat) (fits : query.length = s.dim) :
    ∃ rs, s.searchKnn search query k = .ok rs ∧ NearestLive m dist query k rs := by
  have counted := len_eq maps refines
  unfold searchKnn
  rw [if_neg (not_not.mpr fits)]
  split
  · rename_i empty
    have noKeys : m.keys.length = 0 := by omega
    refine ⟨[], rfl, by simp [noKeys], by simp, by simp, by simp, by simp⟩
  · obtain ⟨ranked, perm, sorted, answer⟩ := nearest s.points query (k + s.deleted.card) s.efSearch
    have cut : ((search s.points query (k + s.deleted.card) s.efSearch).filterMap s.keep).take k =
        (ranked.filterMap s.keep).take k := by
      rw [answer]
      exact take_filterMap_take s.keep ranked k _ (dropped_le maps refines perm)
    have keptSorted : (ranked.filterMap s.keep).Pairwise fun a b => a.distance ≤ b.distance := by
      refine List.Pairwise.filterMap s.keep (fun a b le r keptA r' keptB => ?_) sorted
      rw [((keep_eq_some_iff maps a.1 a.2 r).mp keptA).2,
        ((keep_eq_some_iff maps b.1 b.2 r').mp keptB).2]
      exact le
    refine ⟨_, rfl, ?_⟩
    simp only [cut]
    -- the answer is already sorted, so the final stable sort changes nothing
    rw [List.mergeSort_of_pairwise
      ((keptSorted.sublist (List.take_sublist _ _)).imp fun h => by simpa using h)]
    refine ⟨?_, ?_, fun r mem => ?_, ?_, fun id v held absent r mem => ?_⟩
    · rw [List.length_take, kept_length maps refines perm]
    · rw [List.map_take]
      exact (kept_ids_nodup maps refines perm).sublist (List.take_sublist _ _)
    · exact (mem_kept_iff maps refines perm r).mp (List.mem_of_mem_take mem)
    · exact keptSorted.sublist (List.take_sublist _ _)
    · have full : (⟨id, dist query v⟩ : SearchResult ι δ) ∈ ranked.filterMap s.keep :=
        (mem_kept_iff maps refines perm _).mpr ⟨v, held, rfl⟩
      rw [← List.take_append_drop k (ranked.filterMap s.keep), List.mem_append] at full
      have later := full.resolve_left fun here =>
        absent (List.mem_map.mpr ⟨_, here, rfl⟩)
      rw [← List.take_append_drop k (ranked.filterMap s.keep)] at keptSorted
      exact (List.pairwise_append.mp keptSorted).2.2 r mem _ later

end Search

/-! ## Every history -/

section History

variable {ι α δ : Type} [DecidableEq ι] [LinearOrder δ] [Component α]

/-- After any calls on a new index: the id maps are mutually inverse, tombstones
are disjoint from the live integers, the two fill `0..next_id`, `len` counts the
live ids, and a search answers the nearest vectors of the map the calls built. -/
theorem hnswIndex_history {search : GraphSearch α δ} {dist : List α → List α → δ}
    (nearest : NearestFirst search dist) (dim ef : Nat) (s₀ : HnswInner ι α)
    (made : withConfig dim ef = .ok s₀) (ops : List (HnswOp ι α)) :
    let s := ops.foldl HnswInner.apply s₀
    let m : VectorMap ι α := ops.foldl (VectorMap.apply dim) ∅
    IdMaps s ∧ s.len = s.idToInt.keys.toFinset.card ∧ (∀ id, id ∈ s.idToInt ↔ id ∈ m) ∧
      ∀ query k, query.length = dim →
        ∃ rs, s.searchKnn search query k = .ok rs ∧ NearestLive m dist query k rs := by
  intro s m
  obtain ⟨maps₀, refines₀, rfl⟩ := idMaps_new dim ef s₀ made
  obtain ⟨maps, refines, sameDim⟩ := history_refines maps₀ refines₀ ops
  refine ⟨maps, ?_, fun id => live_iff maps refines id, fun query k fits => ?_⟩
  · rw [List.toFinset_card_of_nodup s.idToInt.keys_nodup]
    exact len_eq_ids maps
  · exact searchKnn_nearest nearest maps refines query k (fits.trans sameDim.symm)

end History

/-! ## An exhaustive scan, which is what the graph approximates -/

section Scan

variable {α δ : Type} [LinearOrder δ]

/-- Rank every stored point and cut. -/
def scanSearch (dist : List α → List α → δ) : GraphSearch α δ := fun points query n _ =>
  ((points.map fun p => (p.1, dist query p.2)).mergeSort fun a b => decide (a.2 ≤ b.2)).take n

theorem scanSearch_nearestFirst (dist : List α → List α → δ) :
    NearestFirst (scanSearch dist) dist := by
  intro points query n ef
  refine ⟨_, List.mergeSort_perm _ _, ?_, rfl⟩
  refine (List.pairwise_mergeSort ?_ ?_ _).imp fun h => by simpa using h
  · intro a b c ab bc
    simp only [decide_eq_true_eq] at ab bc ⊢
    exact le_trans ab bc
  · intro a b
    simp only [Bool.or_eq_true, decide_eq_true_eq]
    exact le_total a.2 b.2

end Scan

/-- Coordinatewise absolute difference. -/
def l1 (a b : List Int) : Nat := ((a.zip b).map fun p => (p.1 - p.2).natAbs).sum

/-- A history with an update, a refused vector, a delete and a reload: the
hypotheses of `hnswIndex_history` hold and the deleted and superseded vectors are
out of the map it speaks of. -/
theorem hnswIndex_history_update :
    let ops : List (HnswOp String Int) :=
      [.insert "a" [1, 0], .insert "b" [0, 1], .insert "a" [2, 0], .insert "c" [0, 0],
        .delete "b", .persistLoad]
    let s₀ : HnswInner String Int :=
      { points := [], idToInt := ∅, intToId := ∅, deleted := ∅, nextId := 0, dim := 2,
        efSearch := 50, modelName := none }
    let m : VectorMap String Int := ops.foldl (VectorMap.apply 2) ∅
    m.lookup "a" = some [2, 0] ∧ m.lookup "b" = none ∧ m.lookup "c" = none ∧
      IdMaps (ops.foldl HnswInner.apply s₀) ∧
      ∃ rs, (ops.foldl HnswInner.apply s₀).searchKnn (scanSearch l1) [1, 1] 3 = .ok rs ∧
        NearestLive m l1 [1, 1] 3 rs := by
  intro ops s₀ m
  have history := hnswIndex_history (scanSearch_nearestFirst l1) 2 50 s₀ rfl ops
  exact ⟨by decide, by decide, by decide, history.1, history.2.2.2 [1, 1] 3 rfl⟩

end Ministr.Index
