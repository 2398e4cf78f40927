/-
# Search.Hybrid — fusing two rankings

`MultiResolutionSearch::search` retrieves dense and sparse hits, fuses them by reciprocal
rank, sorts by score and then by content id, keeps the best vector of each content and cuts
after `top_k`.  The fused scores are a hash map, read in an order nobody fixes.

* `rrfFuse_keys`, `rrfFuse_score` — the candidates and their scores, for every order;
* `search_wellRanked` — what the answer is, for every order;
* `search_ranking_iff` — the answer is the same for all orders exactly when no two vectors of
  one content that reaches the answer share its best score.

The scores are those of an ordered field, and the hits are given: embedding the query and
asking the two indexes comes before.
-/
import Ministr.Content.Document
import Ministr.Index.Hnsw
import Ministr.Index.Inverted
import Ministr.Session.Types
import Ministr.Theory.Leaders

namespace Ministr.Content

set_option autoImplicit false

/-! ## Reading vector ids -/

/-- `split_once("::")`. -/
def splitOnceColons : List Char → Option (List Char × List Char)
  | [] => none
  | ':' :: ':' :: rest => some ([], rest)
  | c :: rest => (splitOnceColons rest).map fun p => (c :: p.1, p.2)

namespace VectorId

def ofTag (tag content : String) : Option VectorId :=
  if tag = "doc-summary" then some (.docSummary content)
  else if tag = "sec-summary" then some (.secSummary content)
  else if tag = "section" then some (.section content)
  else if tag = "claim" then some (.claim content)
  else if tag = "symbol-stub" then some (.symbolStub content)
  else if tag = "symbol-full" then some (.symbolFull content)
  else none

/-- `VectorId::parse`. -/
def parse (s : String) : Option VectorId :=
  (splitOnceColons s.toList).bind fun p => ofTag (String.ofList p.1) (String.ofList p.2)

/-- `VectorId::resolution`. -/
def resolution : VectorId → Resolution
  | .docSummary _ | .secSummary _ => .summary
  | .section _ => .section_
  | .claim _ => .claim
  | .symbolStub _ => .symbolStub
  | .symbolFull _ => .symbolFull

/-- `VectorId::content_id`. -/
def contentId : VectorId → String
  | .docSummary id | .secSummary id | .section id | .claim id | .symbolStub id
  | .symbolFull id => id

end VectorId

theorem splitOnceColons_eq {text : List Char} {tag content : List Char}
    (cut : splitOnceColons text = some (tag, content)) : text = tag ++ ':' :: ':' :: content := by
  induction text using splitOnceColons.induct generalizing tag with
  | case1 => cases cut
  | case2 rest =>
      rw [splitOnceColons] at cut
      cases cut
      rfl
  | case3 c rest other ih =>
      rw [splitOnceColons] at cut
      · obtain ⟨p, found, same⟩ := Option.map_eq_some_iff.mp cut
        cases same
        rw [ih found, List.cons_append]
      · exact other

/-- A parsed id is the text it was parsed from. -/
theorem VectorId.asStr_of_parse {s : String} {v : VectorId} (parsed : parse s = some v) :
    v.asStr = s := by
  obtain ⟨⟨tag, content⟩, cut, named⟩ := Option.bind_eq_some_iff.mp parsed
  have text := splitOnceColons_eq cut
  have whole : s = String.ofList tag ++ "::" ++ String.ofList content := by
    rw [← String.toList_inj, text]
    simp
  rw [ofTag] at named
  split_ifs at named
  all_goals
    rename_i tagged
    rw [whole, tagged, ← Option.some.inj named]
    rfl

end Ministr.Content

namespace Ministr.Search

open Ministr.Theory Ministr.Content Ministr.Index

set_option autoImplicit false

section Hybrid

variable {K : Type} [Field K] [LinearOrder K]

/-! ## The pipeline -/

/-- The evidence behind a score. -/
structure ScoreExplanation (K : Type) where
  denseRank : Option Nat
  denseScore : Option K
  sparseRank : Option Nat
  sparseScore : Option K
  rrfScore : Option K
  finalScore : K
  deriving DecidableEq, Repr

/-- `ScoreExplanation::default`. -/
def ScoreExplanation.default : ScoreExplanation K := ⟨none, none, none, none, none, 0⟩

structure ScoredResult (K : Type) where
  vectorId : VectorId
  rawDistance : K
  resolution : Resolution
  score : K
  explanation : ScoreExplanation K
  deriving DecidableEq, Repr

/-- `RRF_K`. -/
def rrfK : K := 60

def scoreResult (raw : SearchResult String K) : Option (ScoredResult K) :=
  (VectorId.parse raw.id).map fun vectorId =>
    let score := 1 - raw.distance / 2
    { vectorId := vectorId
      rawDistance := raw.distance
      resolution := vectorId.resolution
      score := score
      explanation := { ScoreExplanation.default with
        denseScore := some score, finalScore := score } }

/-- The dense hits with their ranks. -/
def denseScored (raws : List (SearchResult String K)) : List (ScoredResult K) :=
  (raws.filterMap scoreResult).zipIdx.map fun p =>
    { p.1 with explanation := { p.1.explanation with denseRank := some (p.2 + 1) } }

/-- What the dense hits add to the scores. -/
def denseContributions (w : K) (dense : List (ScoredResult K)) : List (String × K) :=
  dense.zipIdx.map fun p => (p.1.vectorId.asStr, (1 - w) / (rrfK + p.2 + 1))

/-- What the sparse hits add to the scores; ids that do not parse keep their rank. -/
def sparseContributions (w : K) (sparse : List (SparseSearchResult String K)) :
    List (String × K) :=
  sparse.zipIdx.filterMap fun p =>
    (VectorId.parse p.1.id).map fun _ => (p.1.id, w / (rrfK + p.2 + 1))

def rrfScores (w : K) (dense : List (ScoredResult K)) (sparse : List (SparseSearchResult String K)) :
    Rows String K :=
  ((∅ : Rows String K).accumulate (denseContributions w dense)).accumulate
    (sparseContributions w sparse)

/-- `result_map.entry(id).or_insert_with(|| result.clone())`. -/
def enterDense (results : Rows String (ScoredResult K)) (result : ScoredResult K) :
    Rows String (ScoredResult K) :=
  if (results.lookup result.vectorId.asStr).isSome then results
  else results.insert result.vectorId.asStr result

/-- A sparse hit in `result_map`: a new entry if there is none, then its rank and score. -/
def enterSparse (results : Rows String (ScoredResult K))
    (hit : SparseSearchResult String K × Nat) : Rows String (ScoredResult K) :=
  match VectorId.parse hit.1.id with
  | none => results
  | some vectorId =>
      let entry := (results.lookup hit.1.id).getD
        ⟨vectorId, 0, vectorId.resolution, 0, ScoreExplanation.default⟩
      results.insert hit.1.id { entry with explanation := { entry.explanation with
        sparseRank := some (hit.2 + 1), sparseScore := some hit.1.score } }

def resultMap (dense : List (ScoredResult K)) (sparse : List (SparseSearchResult String K)) :
    Rows String (ScoredResult K) :=
  sparse.zipIdx.foldl enterSparse (dense.foldl enterDense ∅)

/-- `rrf_fuse`.  Each id is read once, so that removing its result is looking it up. -/
def rrfFuse (order : HashOrder String K) (dense : List (ScoredResult K))
    (sparse : List (SparseSearchResult String K)) (w : K) : List (ScoredResult K) :=
  (order.read (rrfScores w dense sparse)).filterMap fun e =>
    ((resultMap dense sparse).lookup e.1).map fun r =>
      { r with
        score := e.2
        explanation := { r.explanation with rrfScore := some e.2, finalScore := e.2 } }

/-- Score descending, then content id ascending. -/
def byScore (a b : ScoredResult K) : Bool :=
  decide (b.score < a.score ∨
    a.score = b.score ∧ a.vectorId.contentId ≤ b.vectorId.contentId)

def contentOf (r : ScoredResult K) : String := r.vectorId.contentId

/-- `MultiResolutionSearch::search`, from the hits on; `sparse` is `none` without sparse
components. -/
def search (order : HashOrder String K) (topK : Nat) (w : K) (raws : List (SearchResult String K))
    (sparse : Option (List (SparseSearchResult String K))) : List (ScoredResult K) :=
  let scored :=
    match if 0 < w then sparse else none with
    | some hits => rrfFuse order (denseScored raws) hits w
    | none => denseScored raws
  (keepFirst contentOf [] (scored.mergeSort byScore)).take topK

/-! ## The intended ranking -/

def parses (id : String) : Bool := (VectorId.parse id).isSome

/-- The dense ids that parse, best first. -/
def denseIds (raws : List (SearchResult String K)) : List String :=
  (raws.map SearchResult.id).filter parses

def sparseIds (sparse : List (SparseSearchResult String K)) : List String :=
  sparse.map SparseSearchResult.id

/-- The ids that parse, of either list. -/
def candidates (raws : List (SearchResult String K)) (sparse : List (SparseSearchResult String K)) :
    List String :=
  denseIds raws ++ (sparseIds sparse).filter fun id => parses id && !decide (id ∈ denseIds raws)

/-- The contribution of a list in which an id may stand: its weight over 60 and the rank,
which counts from one. -/
def rankTerm (weight : K) (ids : List String) (id : String) : K :=
  if id ∈ ids then weight / (60 + (ids.idxOf id + 1 : Nat)) else 0

def fusedScore (w : K) (raws : List (SearchResult String K))
    (sparse : List (SparseSearchResult String K)) (id : String) : K :=
  rankTerm (1 - w) (denseIds raws) id + rankTerm w (sparseIds sparse) id

/-- The content a candidate is of. -/
def contentIdOf (id : String) : String := ((VectorId.parse id).map VectorId.contentId).getD ""

/-- The fused list holds the candidates with their scores, and the answer the first `topK`
contents of it, each by a vector that scores best. -/
structure WellRanked (w : K) (topK : Nat) (raws : List (SearchResult String K))
    (sparse : List (SparseSearchResult String K)) (fused answer : List (ScoredResult K)) : Prop where
  candidates : (fused.map fun r => r.vectorId.asStr).Perm (candidates raws sparse)
  scores : ∀ r ∈ fused, r.score = fusedScore w raws sparse r.vectorId.asStr
  within : ∀ r ∈ answer, r ∈ fused
  distinct : (answer.map contentOf).Nodup
  best : ∀ r ∈ answer, ∀ c ∈ fused, contentOf c = contentOf r → c.score ≤ r.score
  ordered : answer.Pairwise fun a b =>
    b.score < a.score ∨ a.score = b.score ∧ contentOf a < contentOf b
  count : answer.length = min topK ((Search.candidates raws sparse).map contentIdOf).dedup.length
  leading : ∀ r ∈ answer, ∀ c ∈ fused, contentOf c ∉ answer.map contentOf →
    c.score < r.score ∨ c.score = r.score ∧ contentOf r < contentOf c

/-- The ranking of the candidates. -/
def byFusedScore (w : K) (raws : List (SearchResult String K))
    (sparse : List (SparseSearchResult String K)) (a b : String) : Bool :=
  decide (fusedScore w raws sparse b < fusedScore w raws sparse a ∨
    fusedScore w raws sparse a = fusedScore w raws sparse b ∧ contentIdOf a ≤ contentIdOf b)

end Hybrid

/-! ## The candidates and their scores -/

section Candidates

variable {K : Type} [Field K]

theorem denseScored_keys (raws : List (SearchResult String K)) :
    (denseScored raws).map (fun r => r.vectorId.asStr) = denseIds raws := by
  have ranked : (denseScored raws).map (fun r => r.vectorId.asStr) =
      (raws.filterMap scoreResult).map fun r => r.vectorId.asStr := by
    rw [denseScored, List.map_map, ← List.zipIdx_map_fst 0 (raws.filterMap scoreResult),
      List.map_map, List.zipIdx_map_fst]
    rfl
  rw [ranked, denseIds]
  clear ranked
  induction raws with
  | nil => rfl
  | cons raw raws ih =>
      cases parsed : VectorId.parse raw.id with
      | none =>
          rw [List.filterMap_cons_none (by simp [scoreResult, parsed]), List.map_cons,
            List.filter_cons_of_neg (by simp [parses, parsed])]
          exact ih
      | some v =>
          rw [List.filterMap_cons_some (by simp [scoreResult, parsed]; rfl), List.map_cons,
            List.map_cons, List.filter_cons_of_pos (by simp [parses, parsed]), ih]
          simp [VectorId.asStr_of_parse parsed]

omit [Field K] in
theorem exists_ranked_iff (ids : List String) (f : Nat → K) (id : String) :
    (∃ e ∈ ids.zipIdx.map fun p => (p.1, f p.2), e.1 = id) ↔ id ∈ ids := by
  have names : (ids.zipIdx.map fun p => (p.1, f p.2)).map Prod.fst = ids := by
    rw [List.map_map]
    exact List.zipIdx_map_fst 0 ids
  rw [← List.mem_map, names]

omit [Field K] in
/-- An id that is listed once contributes once, by its place. -/
theorem filter_ranked {ids : List String} (distinct : ids.Nodup) (f : Nat → K) (n : Nat)
    (id : String) :
    (((ids.zipIdx n).map fun p => (p.1, f p.2)).filter fun e => decide (e.1 = id)) =
      if id ∈ ids then [(id, f (n + ids.idxOf id))] else [] := by
  induction ids generalizing n with
  | nil => rfl
  | cons other ids ih =>
      obtain ⟨fresh, distinct⟩ := List.nodup_cons.mp distinct
      rw [List.zipIdx_cons, List.map_cons, List.filter_cons, ih distinct]
      by_cases same : other = id
      · subst same
        simp [fresh]
      · have later : id ∈ other :: ids ↔ id ∈ ids := by simp [Ne.symm same]
        simp only [same, decide_false, Bool.false_eq_true, if_false, later,
          List.idxOf_cons_ne ids same]
        rw [Nat.add_right_comm, Nat.add_assoc]

theorem sum_ranked {ids : List String} (distinct : ids.Nodup) (weight : K) (id : String) :
    (((ids.zipIdx.map fun p => (p.1, weight / (rrfK + (p.2 : K) + 1))).filter
      fun e => decide (e.1 = id)).map Prod.snd).sum = rankTerm weight ids id := by
  rw [filter_ranked distinct (fun i => weight / (rrfK + (i : K) + 1)), rankTerm]
  split
  · simp [rrfK, add_assoc]
  · rfl

theorem denseContributions_eq (w : K) (raws : List (SearchResult String K)) :
    denseContributions w (denseScored raws) =
      (denseIds raws).zipIdx.map fun p => (p.1, (1 - w) / (rrfK + (p.2 : K) + 1)) := by
  rw [denseContributions, ← denseScored_keys, List.zipIdx_map, List.map_map]
  rfl

theorem sparseContributions_eq (w : K) (sparse : List (SparseSearchResult String K)) :
    sparseContributions w sparse =
      ((sparseIds sparse).zipIdx.map fun p => (p.1, w / (rrfK + (p.2 : K) + 1))).filter
        fun e => parses e.1 := by
  rw [sparseContributions, sparseIds, List.zipIdx_map, List.map_map, List.filter_map,
    ← List.filterMap_eq_map, List.filterMap_filter]
  refine List.filterMap_congr fun p _ => ?_
  cases parsed : VectorId.parse p.1.id <;> simp [parses, parsed]

omit [Field K] in
theorem mem_candidates {raws : List (SearchResult String K)}
    {sparse : List (SparseSearchResult String K)} {id : String} :
    id ∈ candidates raws sparse ↔ id ∈ denseIds raws ∨ id ∈ sparseIds sparse ∧ parses id = true := by
  rw [candidates, List.mem_append, List.mem_filter]
  simp only [Bool.and_eq_true, Bool.not_eq_true', decide_eq_false_iff_not]
  tauto

variable {w : K} {raws : List (SearchResult String K)} {sparse : List (SparseSearchResult String K)}

/-- **The fused scores**: the candidates with the sum of their two terms. -/
theorem lookup_rrfScores (denseDistinct : (raws.map SearchResult.id).Nodup)
    (sparseDistinct : (sparse.map SparseSearchResult.id).Nodup) (id : String) :
    (rrfScores w (denseScored raws) sparse).lookup id =
      if id ∈ candidates raws sparse then some (fusedScore w raws sparse id) else none := by
  have distinctD : (denseIds raws).Nodup := denseDistinct.filter _
  have distinctS : (sparseIds sparse).Nodup := sparseDistinct
  have dense : ((∅ : Rows String K).accumulate (denseContributions w (denseScored raws))).lookup id =
      if id ∈ denseIds raws then some (rankTerm (1 - w) (denseIds raws) id) else none := by
    rw [Rows.lookup_accumulate, denseContributions_eq, sum_ranked distinctD, AList.lookup_empty]
    simp only [exists_ranked_iff _ fun i : Nat => (1 - w) / (rrfK + (i : K) + 1),
      Option.getD_none, zero_add]
  have listed : (∃ e ∈ sparseContributions w sparse, e.1 = id) ↔
      id ∈ sparseIds sparse ∧ parses id = true := by
    rw [sparseContributions_eq, ← exists_ranked_iff (sparseIds sparse)
      fun i : Nat => w / (rrfK + (i : K) + 1)]
    constructor
    · rintro ⟨e, inside, rfl⟩
      exact ⟨⟨e, (List.mem_filter.mp inside).1, rfl⟩, (List.mem_filter.mp inside).2⟩
    · rintro ⟨⟨e, inside, rfl⟩, parsed⟩
      exact ⟨e, List.mem_filter.mpr ⟨inside, parsed⟩, rfl⟩
  have sum : parses id = true → (((sparseContributions w sparse).filter
      fun e => decide (e.1 = id)).map Prod.snd).sum = rankTerm w (sparseIds sparse) id := by
    intro parsed
    rw [sparseContributions_eq, List.filter_filter, ← sum_ranked distinctS]
    congr 2
    refine List.filter_congr fun e _ => ?_
    by_cases same : e.1 = id
    · simp [same, parsed]
    · simp [same]
  rw [rrfScores, Rows.lookup_accumulate, dense]
  by_cases inSparse : id ∈ sparseIds sparse ∧ parses id = true
  · rw [if_pos (listed.mpr inSparse), if_pos (mem_candidates.mpr (.inr inSparse)), sum inSparse.2,
      fusedScore]
    by_cases inDense : id ∈ denseIds raws
    · rw [if_pos inDense, Option.getD_some]
    · rw [if_neg inDense, Option.getD_none]
      simp [rankTerm, inDense]
  · rw [if_neg (mt listed.mp inSparse)]
    by_cases inDense : id ∈ denseIds raws
    · have parsed : parses id = true := (List.mem_filter.mp inDense).2
      have absent : id ∉ sparseIds sparse := fun mem => inSparse ⟨mem, parsed⟩
      rw [if_pos inDense, if_pos (mem_candidates.mpr (.inl inDense)), fusedScore]
      simp [rankTerm, absent]
    · rw [if_neg inDense, if_neg fun mem => (mem_candidates.mp mem).elim inDense inSparse]

/-! ## The fused list -/

/-- Every result is filed under its id. -/
def Named (results : Rows String (ScoredResult K)) : Prop :=
  ∀ id r, results.lookup id = some r → r.vectorId.asStr = id

omit [Field K] in
theorem Named.insert {results : Rows String (ScoredResult K)} (named : Named results) {id : String}
    {r : ScoredResult K} (here : r.vectorId.asStr = id) : Named (results.insert id r) := by
  intro id' r' found
  rw [Rows.lookup_insert_if] at found
  split at found
  · rename_i same
    rw [← Option.some.inj found, here, same]
  · exact named id' r' found

omit [Field K] in
theorem foldl_enterDense (dense : List (ScoredResult K)) {results : Rows String (ScoredResult K)}
    (named : Named results) :
    Named (dense.foldl enterDense results) ∧ ∀ id, (results.lookup id).isSome = true ∨
      id ∈ dense.map (fun r => r.vectorId.asStr) →
      ((dense.foldl enterDense results).lookup id).isSome = true := by
  induction dense generalizing results with
  | nil => exact ⟨named, fun id listed => by simpa using listed⟩
  | cons r dense ih =>
      have entered : Named (enterDense results r) ∧ ∀ id, (results.lookup id).isSome = true ∨
          r.vectorId.asStr = id → ((enterDense results r).lookup id).isSome = true := by
        rw [enterDense]
        split
        · rename_i present
          refine ⟨named, fun id listed => ?_⟩
          rcases listed with held | rfl
          · exact held
          · exact present
        · refine ⟨named.insert rfl, fun id listed => ?_⟩
          rw [Rows.lookup_insert_if]
          split
          · rfl
          · rename_i other
            exact listed.resolve_right fun same => other same.symm
      obtain ⟨namedLater, present⟩ := ih entered.1
      refine ⟨namedLater, fun id listed => present id ?_⟩
      rw [List.map_cons, List.mem_cons] at listed
      rcases listed with held | here | later
      · exact .inl (entered.2 id (.inl held))
      · exact .inl (entered.2 id (.inr here.symm))
      · exact .inr later

theorem foldl_enterSparse (hits : List (SparseSearchResult String K × Nat))
    {results : Rows String (ScoredResult K)} (named : Named results) :
    Named (hits.foldl enterSparse results) ∧ ∀ id, (results.lookup id).isSome = true ∨
      id ∈ hits.map (fun p => p.1.id) ∧ parses id = true →
      ((hits.foldl enterSparse results).lookup id).isSome = true := by
  induction hits generalizing results with
  | nil => exact ⟨named, fun id listed => by simpa using listed⟩
  | cons hit hits ih =>
      have entered : Named (enterSparse results hit) ∧ ∀ id, (results.lookup id).isSome = true ∨
          hit.1.id = id ∧ parses id = true →
          ((enterSparse results hit).lookup id).isSome = true := by
        rw [enterSparse]
        cases parsed : VectorId.parse hit.1.id with
        | none =>
            refine ⟨named, fun id listed => ?_⟩
            rcases listed with held | ⟨rfl, parses_⟩
            · exact held
            · simp [parses, parsed] at parses_
        | some vectorId =>
            refine ⟨named.insert ?_, fun id listed => ?_⟩
            · cases found : results.lookup hit.1.id with
              | none => exact VectorId.asStr_of_parse parsed
              | some r => exact named _ r found
            · rw [Rows.lookup_insert_if]
              split
              · rfl
              · rename_i other
                exact listed.resolve_right fun same => other same.1.symm
      obtain ⟨namedLater, present⟩ := ih entered.1
      refine ⟨namedLater, fun id listed => present id ?_⟩
      rw [List.map_cons, List.mem_cons] at listed
      rcases listed with held | ⟨here | later, parsed⟩
      · exact .inl (entered.2 id (.inl held))
      · exact .inl (entered.2 id (.inr ⟨here.symm, parsed⟩))
      · exact .inr ⟨later, parsed⟩

/-- Every candidate has its result. -/
theorem resultMap_candidate {id : String} (candidate : id ∈ candidates raws sparse) :
    ∃ r, (resultMap (denseScored raws) sparse).lookup id = some r ∧ r.vectorId.asStr = id := by
  have start : Named (∅ : Rows String (ScoredResult K)) := fun id r found => by
    rw [AList.lookup_empty] at found
    cases found
  obtain ⟨namedD, presentD⟩ := foldl_enterDense (denseScored raws) start
  obtain ⟨named, present⟩ := foldl_enterSparse sparse.zipIdx namedD
  have ids : sparse.zipIdx.map (fun p => p.1.id) = sparseIds sparse := by
    rw [sparseIds]
    conv_rhs => rw [← List.zipIdx_map_fst 0 sparse, List.map_map]
    rfl
  have held : ((resultMap (denseScored raws) sparse).lookup id).isSome = true := by
    refine present id ?_
    rw [ids]
    rcases mem_candidates.mp candidate with inDense | inSparse
    · exact .inl (presentD id (.inr (by rwa [denseScored_keys])))
    · exact .inr inSparse
  obtain ⟨r, found⟩ := Option.isSome_iff_exists.mp held
  exact ⟨r, found, named id r found⟩

/-- What an entry of the scores becomes. -/
def fusedResult (raws : List (SearchResult String K)) (sparse : List (SparseSearchResult String K))
    (e : Sigma fun _ : String => K) : ScoredResult K :=
  let r := ((resultMap (denseScored raws) sparse).lookup e.1).getD
    ⟨.docSummary e.1, 0, .summary, 0, ScoreExplanation.default⟩
  { r with
    score := e.2
    explanation := { r.explanation with rrfScore := some e.2, finalScore := e.2 } }

/-- Dense and sparse hits, each id once. -/
structure DistinctHits (raws : List (SearchResult String K))
    (sparse : List (SparseSearchResult String K)) : Prop where
  dense : (raws.map SearchResult.id).Nodup
  sparse : (sparse.map SparseSearchResult.id).Nodup

omit [Field K] in
theorem DistinctHits.candidates (distinct : DistinctHits raws sparse) :
    (candidates raws sparse).Nodup := by
  refine List.nodup_append.mpr ⟨distinct.dense.filter _, distinct.sparse.filter _, ?_⟩
  rintro id inDense id' inSparse rfl
  have apart := (List.mem_filter.mp inSparse).2
  simp [inDense] at apart

variable (order : HashOrder String K)

theorem mem_read_iff (distinct : DistinctHits raws sparse) (e : Sigma fun _ : String => K) :
    e ∈ order.read (rrfScores w (denseScored raws) sparse) ↔
      e.1 ∈ candidates raws sparse ∧ e.2 = fusedScore w raws sparse e.1 := by
  obtain ⟨id, score⟩ := e
  rw [(order.perm _).mem_iff, Rows.mem_entries_iff,
    lookup_rrfScores distinct.dense distinct.sparse]
  split
  · rename_i candidate
    rw [Option.some.injEq, and_iff_right candidate, eq_comm]
  · rename_i other
    exact iff_of_false (by simp) fun held => other held.1

theorem rrfFuse_eq (distinct : DistinctHits raws sparse) :
    rrfFuse order (denseScored raws) sparse w =
      (order.read (rrfScores w (denseScored raws) sparse)).map (fusedResult raws sparse) := by
  rw [rrfFuse, ← List.filterMap_eq_map]
  refine List.filterMap_congr fun e listed => ?_
  obtain ⟨r, found, -⟩ := resultMap_candidate ((mem_read_iff order distinct e).mp listed).1
  rw [found, Function.comp_apply, fusedResult, found]
  rfl

theorem fusedResult_key {e : Sigma fun _ : String => K} (candidate : e.1 ∈ candidates raws sparse) :
    (fusedResult raws sparse e).vectorId.asStr = e.1 := by
  obtain ⟨r, found, named⟩ := resultMap_candidate candidate
  rw [fusedResult, found]
  exact named

/-- The candidates, in whatever order the scores are read. -/
theorem rrfFuse_keys (distinct : DistinctHits raws sparse) :
    ((rrfFuse order (denseScored raws) sparse w).map fun r => r.vectorId.asStr).Perm
      (candidates raws sparse) := by
  have keys : (rrfFuse order (denseScored raws) sparse w).map (fun r => r.vectorId.asStr) =
      (order.read (rrfScores w (denseScored raws) sparse)).map Sigma.fst := by
    rw [rrfFuse_eq order distinct, List.map_map]
    exact List.map_congr_left fun e listed =>
      fusedResult_key ((mem_read_iff order distinct e).mp listed).1
  rw [keys]
  refine ((order.perm _).map Sigma.fst).trans ((List.perm_ext_iff_of_nodup
    (rrfScores w (denseScored raws) sparse).keys_nodup distinct.candidates).mpr fun id => ?_)
  rw [AList.mem_keys.symm, Rows.mem_iff_lookup, lookup_rrfScores distinct.dense distinct.sparse]
  constructor
  · rintro ⟨score, found⟩
    exact (Option.ite_none_right_eq_some.mp found).1
  · intro candidate
    exact ⟨_, if_pos candidate⟩

theorem rrfFuse_score (distinct : DistinctHits raws sparse) {r : ScoredResult K}
    (fused : r ∈ rrfFuse order (denseScored raws) sparse w) :
    r.vectorId.asStr ∈ candidates raws sparse ∧
      r.score = fusedScore w raws sparse r.vectorId.asStr := by
  rw [rrfFuse_eq order distinct] at fused
  obtain ⟨e, listed, rfl⟩ := List.mem_map.mp fused
  obtain ⟨candidate, score⟩ := (mem_read_iff order distinct e).mp listed
  rw [fusedResult_key candidate]
  exact ⟨candidate, score⟩

/-- A result is of the content its id names. -/
theorem rrfFuse_content (distinct : DistinctHits raws sparse) {r : ScoredResult K}
    (fused : r ∈ rrfFuse order (denseScored raws) sparse w) :
    contentIdOf r.vectorId.asStr = contentOf r := by
  have candidate := (rrfFuse_score order distinct fused).1
  have parsed : parses r.vectorId.asStr = true := by
    rcases mem_candidates.mp candidate with inDense | inSparse
    · exact (List.mem_filter.mp inDense).2
    · exact inSparse.2
  obtain ⟨v, same⟩ := Option.isSome_iff_exists.mp parsed
  rw [contentIdOf, same, contentOf,
    VectorId.asStr_injective (VectorId.asStr_of_parse same)]
  rfl

/-- The fused list of one order is an arrangement of that of another, and every arrangement
is one. -/
theorem exists_order_iff (distinct : DistinctHits raws sparse) (l : List (ScoredResult K)) :
    (∃ other : HashOrder String K, rrfFuse other (denseScored raws) sparse w = l) ↔
      l.Perm (rrfFuse order (denseScored raws) sparse w) := by
  rw [rrfFuse_eq order distinct]
  constructor
  · rintro ⟨other, rfl⟩
    rw [rrfFuse_eq other distinct]
    exact ((other.perm _).trans (order.perm _).symm).map _
  · intro perm
    have split : Relation.Comp (· = List.map (fusedResult raws sparse) ·) List.Perm l
        (order.read (rrfScores w (denseScored raws) sparse)) := by
      rw [List.eq_map_comp_perm]
      exact perm
    obtain ⟨listing, rfl, arranged⟩ := split
    obtain ⟨other, read⟩ := HashOrder.exists_read (arranged.trans (order.perm _))
    exact ⟨other, by rw [rrfFuse_eq other distinct, read]⟩

end Candidates

/-! ## The answer -/

section Answer

variable {K : Type} [Field K] [LinearOrder K]

omit [Field K] in
theorem byScore_iff (a b : ScoredResult K) : byScore a b = true ↔
    b.score < a.score ∨ a.score = b.score ∧ contentOf a ≤ contentOf b := by
  rw [byScore, decide_eq_true_eq]
  rfl

omit [Field K] in
theorem byScore_trans (a b c : ScoredResult K) (ab : byScore a b) (bc : byScore b c) :
    byScore a c := by
  rw [byScore_iff] at *
  rcases ab with ab | ⟨ab, contentAB⟩
  · rcases bc with bc | ⟨bc, -⟩
    · exact .inl (bc.trans ab)
    · exact .inl (bc ▸ ab)
  · rcases bc with bc | ⟨bc, contentBC⟩
    · exact .inl (ab ▸ bc)
    · exact .inr ⟨ab.trans bc, contentAB.trans contentBC⟩

omit [Field K] in
theorem byScore_linear (a b : ScoredResult K) : byScore a b || byScore b a := by
  rw [Bool.or_eq_true, byScore_iff, byScore_iff]
  rcases lt_trichotomy a.score b.score with less | same | more
  · exact .inr (.inl less)
  · rcases le_total (contentOf a) (contentOf b) with le | le
    · exact .inl (.inr ⟨same, le⟩)
    · exact .inr (.inr ⟨same.symm, le⟩)
  · exact .inl (.inl more)

omit [Field K] in
theorem byScore_ties (a b : ScoredResult K) (ab : byScore a b) (ba : byScore b a) :
    contentOf a = contentOf b := by
  rw [byScore_iff] at ab ba
  rcases ab with ab | ⟨ab, contentAB⟩
  · rcases ba with ba | ⟨ba, -⟩
    · exact absurd ab (lt_asymm ba)
    · exact absurd ba.symm ab.ne'
  · rcases ba with ba | ⟨-, contentBA⟩
    · exact absurd ab ba.ne
    · exact le_antisymm contentAB contentBA

omit [Field K] in
theorem before_of_byScore {a b : ScoredResult K} (ab : byScore a b) (other : contentOf a ≠ contentOf b) :
    b.score < a.score ∨ a.score = b.score ∧ contentOf a < contentOf b := by
  rw [byScore_iff] at ab
  exact ab.imp_right fun same => ⟨same.1, lt_of_le_of_ne same.2 other⟩

variable {w : K} {raws : List (SearchResult String K)} {sparse : List (SparseSearchResult String K)}

theorem search_eq (fusing : 0 < w) (order : HashOrder String K) (topK : Nat) :
    search order topK w raws (some sparse) = (keepFirst contentOf []
      ((rrfFuse order (denseScored raws) sparse w).mergeSort byScore)).take topK := by
  rw [search, if_pos fusing]

/-- **What the answer is**, whatever order the scores are read in. -/
theorem search_wellRanked (distinct : DistinctHits raws sparse) (fusing : 0 < w)
    (order : HashOrder String K) (topK : Nat) :
    WellRanked w topK raws sparse (rrfFuse order (denseScored raws) sparse w)
      (search order topK w raws (some sparse)) := by
  rw [search_eq fusing]
  have lead : Leaders byScore contentOf (rrfFuse order (denseScored raws) sparse w) _ :=
    keepFirst_leaders byScore_trans byScore_linear (.refl _)
  refine ⟨rrfFuse_keys order distinct, fun r fused => (rrfFuse_score order distinct fused).2,
    fun r kept => lead.within r (List.mem_of_mem_take kept), ?_, fun r kept c fused same => ?_, ?_,
    ?_, fun r kept c fused absent => ?_⟩
  · rw [List.map_take]
    exact lead.distinct.sublist (List.take_sublist _ _)
  · have first := lead.best r (List.mem_of_mem_take kept) c fused same
    rw [byScore_iff] at first
    exact first.elim le_of_lt fun tie => tie.1.ge
  · have apart := List.pairwise_map.mp lead.distinct
    exact ((lead.sorted.and apart).imp fun pair => before_of_byScore pair.1 pair.2).sublist
      (List.take_sublist _ _)
  · have contents : ((rrfFuse order (denseScored raws) sparse w).map contentOf).Perm
        ((candidates raws sparse).map contentIdOf) := by
      refine List.Perm.trans (.of_eq ?_) ((rrfFuse_keys (w := w) order distinct).map contentIdOf)
      rw [List.map_map]
      exact List.map_congr_left fun r fused => (rrfFuse_content order distinct fused).symm
    rw [List.length_take, lead.length_eq, contents.dedup.length_eq]
  · obtain ⟨d, leads, same⟩ := lead.covers c fused
    have other : contentOf r ≠ contentOf c := fun eq => absent (eq ▸ List.mem_map_of_mem kept)
    have behind : d ∈ (keepFirst contentOf []
        ((rrfFuse order (denseScored raws) sparse w).mergeSort byScore)).drop topK := by
      rw [← List.take_append_drop topK (keepFirst _ _ _), List.mem_append] at leads
      exact leads.resolve_left fun inAnswer => absent (same ▸ List.mem_map_of_mem inAnswer)
    have sorted := lead.sorted
    rw [← List.take_append_drop topK (keepFirst _ _ _), List.pairwise_append] at sorted
    have later := byScore_trans r d c (sorted.2.2 r kept d behind)
      (lead.best d leads c fused same.symm)
    rcases before_of_byScore later other with less | tie
    · exact .inl less
    · exact .inr ⟨tie.1.symm, tie.2⟩

/-- The answer is the same for all orders exactly when no two candidates tie for the lead of a
content that reaches it. -/
theorem search_deterministic_iff (distinct : DistinctHits raws sparse) (fusing : 0 < w)
    (topK : Nat) :
    (∀ order order' : HashOrder String K,
      search order topK w raws (some sparse) = search order' topK w raws (some sparse)) ↔
      Uncontested (byFusedScore w raws sparse) contentIdOf topK (candidates raws sparse) := by
  have keys := rrfFuse_keys (w := w) .filled distinct
  have byName : Uncontested (byFusedScore w raws sparse) contentIdOf topK (candidates raws sparse) ↔
      Uncontested byScore contentOf topK (rrfFuse .filled (denseScored raws) sparse w) := by
    rw [← uncontested_map_iff (keys.nodup_iff.mpr distinct.candidates)
      (fun a memA b memB => ?_) fun a mem => rrfFuse_content .filled distinct mem]
    · exact ⟨uncontested_perm keys.symm, uncontested_perm keys⟩
    · have scoreA := (rrfFuse_score .filled distinct memA).2
      have scoreB := (rrfFuse_score .filled distinct memB).2
      rw [byFusedScore, byScore, ← scoreA, ← scoreB, rrfFuse_content .filled distinct memA,
        rrfFuse_content .filled distinct memB]
      rfl
  rw [byName, ← cut_perm_iff byScore_trans byScore_linear byScore_ties]
  constructor
  · intro same l l' perm perm'
    obtain ⟨order, rfl⟩ := (exists_order_iff .filled distinct l).mpr perm
    obtain ⟨order', rfl⟩ := (exists_order_iff .filled distinct l').mpr perm'
    rw [← search_eq fusing, ← search_eq fusing, same]
  · intro same order order'
    rw [search_eq fusing, search_eq fusing]
    exact same _ _ ((exists_order_iff .filled distinct _).mp ⟨order, rfl⟩)
      ((exists_order_iff .filled distinct _).mp ⟨order', rfl⟩)

/-- **The answer is a ranking of the candidates, and one list whatever the hash order, exactly
when no two candidates of one content that reaches the answer share its best score.** -/
theorem search_ranking_iff (distinct : DistinctHits raws sparse) (fusing : 0 < w) (topK : Nat) :
    ((∀ order : HashOrder String K,
        WellRanked w topK raws sparse (rrfFuse order (denseScored raws) sparse w)
          (search order topK w raws (some sparse))) ∧
      ∀ order order' : HashOrder String K,
        search order topK w raws (some sparse) = search order' topK w raws (some sparse)) ↔
      Uncontested (byFusedScore w raws sparse) contentIdOf topK (candidates raws sparse) := by
  rw [search_deterministic_iff distinct fusing, and_iff_right_iff_imp]
  exact fun _ order => search_wellRanked distinct fusing order topK

end Answer

/-- A dense hit of one section and a sparse hit of another. -/
theorem search_ranking_twoSections :
    DistinctHits [⟨"section::a", 1 / 5⟩] [⟨"section::b", (3 : ℚ)⟩] ∧ (0 : ℚ) < 1 / 2 ∧
      ((∀ order : HashOrder String ℚ,
        WellRanked (1 / 2) 10 [⟨"section::a", 1 / 5⟩] [⟨"section::b", 3⟩]
          (rrfFuse order (denseScored [⟨"section::a", 1 / 5⟩]) [⟨"section::b", 3⟩] (1 / 2))
          (search order 10 (1 / 2) [⟨"section::a", 1 / 5⟩] (some [⟨"section::b", 3⟩]))) ∧
      ∀ order order' : HashOrder String ℚ,
        search order 10 (1 / 2) [⟨"section::a", 1 / 5⟩] (some [⟨"section::b", 3⟩]) =
          search order' 10 (1 / 2) [⟨"section::a", 1 / 5⟩] (some [⟨"section::b", 3⟩])) := by
  have distinct : DistinctHits [⟨"section::a", 1 / 5⟩] [⟨"section::b", (3 : ℚ)⟩] :=
    ⟨by decide, by decide⟩
  have fusing : (0 : ℚ) < 1 / 2 := by decide +kernel
  exact ⟨distinct, fusing, (search_ranking_iff distinct fusing 10).mpr (by decide +kernel)⟩

/-- The text of a section found by meaning, and its summary found by words: either can stand
for the section. -/
theorem section_or_summary :
    DistinctHits [⟨"section::a", 1 / 5⟩] [⟨"sec-summary::a", (3 : ℚ)⟩] ∧
      (0 : ℚ) ≤ 1 / 2 ∧ (1 / 2 : ℚ) ≤ 1 ∧
      ¬ ((∀ order : HashOrder String ℚ,
        WellRanked (1 / 2) 10 [⟨"section::a", 1 / 5⟩] [⟨"sec-summary::a", 3⟩]
          (rrfFuse order (denseScored [⟨"section::a", 1 / 5⟩]) [⟨"sec-summary::a", 3⟩] (1 / 2))
          (search order 10 (1 / 2) [⟨"section::a", 1 / 5⟩] (some [⟨"sec-summary::a", 3⟩]))) ∧
      ∀ order order' : HashOrder String ℚ,
        search order 10 (1 / 2) [⟨"section::a", 1 / 5⟩] (some [⟨"sec-summary::a", 3⟩]) =
          search order' 10 (1 / 2) [⟨"section::a", 1 / 5⟩] (some [⟨"sec-summary::a", 3⟩])) := by
  have distinct : DistinctHits [⟨"section::a", 1 / 5⟩] [⟨"sec-summary::a", (3 : ℚ)⟩] :=
    ⟨by decide, by decide⟩
  refine ⟨distinct, by decide +kernel, by decide +kernel, fun ranking => ?_⟩
  have apart := (search_deterministic_iff distinct (by decide +kernel) 10).mp ranking.2
  exact absurd apart (by decide +kernel)

end Ministr.Search
