/-
# Index.LiveIndex — when the live index is the one a rebuild would make

The rows and the index treat a degenerate vector (zero or non-finite)
differently.  The rows are written with `INSERT OR REPLACE`, whatever the vector.
The index skips the vector, and leaves the id with what it had before.  So a batch
whose last vector for an id is degenerate takes the id out of the rebuilt index
but not out of the live one, if the id was live.

`liveIndex_agrees_iff` says that this is the only way the two can part: along a
run of successful batches and removals they agree in every state exactly when no
step is such a batch.
-/
import Ministr.Index.Rebuild
import Ministr.Theory.Run

namespace Ministr.Index

open Ministr.Theory

set_option autoImplicit false

/-! ## Runs -/

/-- The calls that change the index and the rows together. -/
inductive CorpusOp (ι α : Type) where
  | embedBatch (embed : Embedder α) (pairs : List (ι × String))
  | deleteDocument (removedVids : List ι)

namespace Corpus

variable {ι α : Type} [DecidableEq ι] [ToString ι] [Component α]

/-- One successful call; a batch that fails is not taken. -/
def step (c : Corpus ι α) : CorpusOp ι α → Option (Corpus ι α)
  | .embedBatch embed pairs =>
      match c.batchEmbedAndInsert embed pairs with
      | .ok (d, _) => some d
      | .error _ => none
  | .deleteDocument removedVids => some (c.deleteVectors removedVids)

/-- The live index and the index rebuilt from the rows are the same map: every row
with an acceptable vector is live with that vector, and nothing else is. -/
structure Agrees (c : Corpus ι α) : Prop where
  rebuilt : ∃ index, rebuildHnswFromStore c.store c.index.dim c.index.modelName = .ok index ∧
    ∀ id, c.index.vectorOf id = index.vectorOf id
  rows : ∀ id, c.index.vectorOf id = (c.store.rows.lookup id).filter fun v => !degenerate v

end Corpus

/-- The vectors a batch hands on, chunk by chunk, in order. -/
def embeddedChunks {ι α : Type} (embed : Embedder α) :
    List (List (ι × String)) → Except String (List (ι × List α))
  | [] => .ok []
  | chunk :: rest =>
      match embed (chunk.map Prod.snd), embeddedChunks embed rest with
      | .ok vectors, .ok later => .ok ((chunk.map Prod.fst).zip vectors ++ later)
      | .error reason, _ => .error reason
      | _, .error reason => .error reason

def embeddedPairs {ι α : Type} (embed : Embedder α) (pairs : List (ι × String)) :
    Except String (List (ι × List α)) :=
  embeddedChunks embed (chunks embedBatchChunk pairs)

/-- No id is left with a degenerate row while the index keeps it: where the last
vector a batch has for an id is degenerate, the id was not live before and the
batch has no acceptable vector for it. -/
def OverwritesNoLive {ι α : Type} [DecidableEq ι] [Component α] (c : Corpus ι α) :
    CorpusOp ι α → Prop
  | .embedBatch embed pairs => ∀ es, embeddedPairs embed pairs = .ok es →
      ∀ id v, lastOf es id = some v → degenerate v = true →
        c.index.vectorOf id = none ∧ ∀ w, (id, w) ∈ es → degenerate w = true
  | .deleteDocument _ => True

/-! ## One step -/

section Step

variable {ι α : Type} [DecidableEq ι] [ToString ι] [Component α]
variable {c d : Corpus ι α} {m : VectorMap ι α}

/-- What the runs keep whatever the vectors are: the index represents some map, and
the rows have the index's dimension. -/
structure Corpus.Sound (c : Corpus ι α) (m : VectorMap ι α) : Prop where
  represents : Represents c.index m
  positive : c.index.dim ≠ 0
  fits : ∀ id v, c.store.rows.lookup id = some v → v.length = c.index.dim

omit [ToString ι] in
/-- Agreement, read off the represented map. -/
theorem Corpus.Sound.agrees_iff (sound : c.Sound m) :
    c.Agrees ↔ ∀ id, m.lookup id = (c.store.rows.lookup id).filter fun v => !degenerate v := by
  have live := sound.represents.vectorOf_eq
  constructor
  · intro agrees id
    rw [← live]
    exact agrees.rows id
  · intro same
    obtain ⟨index, made, rep, -⟩ :=
      rebuild_represents c.store c.index.dim c.index.modelName sound.positive sound.fits
    refine ⟨⟨index, made, fun id => ?_⟩, fun id => (live id).trans (same id)⟩
    rw [live, rep.vectorOf_eq, lookup_acceptedRows, same]

/-- A chunk that succeeds writes the vectors it embedded on both sides. -/
theorem Corpus.Sound.embedChunk {embed : Embedder α} {chunk : List (ι × String)}
    (sound : c.Sound m) (succeeded : c.embedChunk embed chunk = .ok d) :
    ∃ vectors, embed (chunk.map Prod.snd) = .ok vectors ∧
      d.Sound (m.putAll ((chunk.map Prod.fst).zip vectors)) ∧
      d.store.rows = c.store.rows.upsertAll ((chunk.map Prod.fst).zip vectors) := by
  obtain ⟨vectors, index, embedded, inserted, rfl⟩ := Corpus.embedChunk_eq_ok succeeded
  obtain ⟨rep, dim, -, each⟩ := sound.represents.insertAll inserted
  have rows := c.store.storeIndexedVectors_rows ((chunk.map Prod.fst).zip vectors)
  refine ⟨vectors, embedded, ⟨rep, dim ▸ sound.positive, fun id v held => ?_⟩, rows⟩
  simp only at held ⊢
  rw [rows, Rows.lookup_upsertAll, Option.or_eq_some_iff] at held
  rw [dim]
  rcases held with last | ⟨-, old⟩
  · exact each (id, v) (mem_of_lastOf last)
  · exact sound.fits id v old

theorem Corpus.Sound.embedChunks {embed : Embedder α} {cs : List (List (ι × String))} {total : Nat}
    (sound : c.Sound m) (succeeded : c.embedChunks embed cs = .ok (d, total)) :
    ∃ es, embeddedChunks embed cs = .ok es ∧ d.Sound (m.putAll es) ∧
      d.store.rows = c.store.rows.upsertAll es := by
  induction cs generalizing c m total with
  | nil =>
      cases succeeded
      exact ⟨[], rfl, sound, rfl⟩
  | cons chunk rest ih =>
      unfold Corpus.embedChunks at succeeded
      cases first : c.embedChunk embed chunk with
      | error reason => rw [first] at succeeded; cases succeeded
      | ok e =>
          rw [first] at succeeded
          dsimp only at succeeded
          cases later : e.embedChunks embed rest with
          | error reason => rw [later] at succeeded; cases succeeded
          | ok done =>
              rw [later] at succeeded
              cases succeeded
              obtain ⟨vectors, embedded, sound', rows⟩ := sound.embedChunk first
              obtain ⟨es, embedded', sound'', rows'⟩ := ih sound' later
              refine ⟨(chunk.map Prod.fst).zip vectors ++ es, ?_, ?_, ?_⟩
              · simp only [embeddedChunks, embedded, embedded']
              · rw [VectorMap.putAll_append]
                exact sound''
              · rw [rows', rows]
                simp only [Rows.upsertAll, List.foldl_append]

omit [ToString ι] [Component α] in
theorem Corpus.Sound.deleteVectors (sound : c.Sound m) (ids : List ι) :
    (c.deleteVectors ids).Sound (m.eraseAll ids) := by
  obtain ⟨rep, dim, -⟩ := sound.represents.deleteAll ids
  refine ⟨rep, fun zero => sound.positive (dim ▸ zero), fun id v held => ?_⟩
  have rows : (c.deleteVectors ids).store.rows = c.store.rows.eraseAll ids :=
    c.store.deleteIndexedVectors_rows ids
  rw [rows, Rows.lookup_eraseAll] at held
  split at held
  · cases held
  · exact (sound.fits id v held).trans dim.symm

/-- What one call does, on the represented map and on the rows. -/
theorem Corpus.Sound.step {op : CorpusOp ι α} (sound : c.Sound m) (taken : c.step op = some d) :
    (∃ embed pairs es, op = .embedBatch embed pairs ∧ embeddedPairs embed pairs = .ok es ∧
        d.Sound (m.putAll es) ∧ d.store.rows = c.store.rows.upsertAll es) ∨
      ∃ ids, op = .deleteDocument ids ∧ d.Sound (m.eraseAll ids) ∧
        d.store.rows = c.store.rows.eraseAll ids := by
  cases op with
  | embedBatch embed pairs =>
      unfold Corpus.step Corpus.batchEmbedAndInsert at taken
      dsimp only at taken
      cases batch : c.embedChunks embed (chunks embedBatchChunk pairs) with
      | error reason => rw [batch] at taken; cases taken
      | ok done =>
          rw [batch] at taken
          cases taken
          obtain ⟨es, embedded, sound', rows⟩ := sound.embedChunks batch
          exact Or.inl ⟨embed, pairs, es, rfl, embedded, sound', rows⟩
  | deleteDocument ids =>
      cases taken
      exact Or.inr ⟨ids, rfl, sound.deleteVectors ids, c.store.deleteIndexedVectors_rows ids⟩

omit [ToString ι] in
/-- The vectors of a batch leave an id agreeing exactly when its last vector is
acceptable, or the index has nothing under the id before and after. -/
theorem batch_agrees_iff {rows : Rows ι (List α)} (es : List (ι × List α)) (id : ι)
    (agrees : m.lookup id = (rows.lookup id).filter fun v => !degenerate v) :
    (m.putAll es).lookup id = ((rows.upsertAll es).lookup id).filter (fun v => !degenerate v) ↔
      ∀ v, lastOf es id = some v → degenerate v = true →
        m.lookup id = none ∧ ∀ w, (id, w) ∈ es → degenerate w = true := by
  rw [VectorMap.lookup_putAll, Rows.lookup_upsertAll]
  cases last : lastOf es id with
  | none =>
      have silent : lastOf (es.filter fun e => !degenerate e.2) id = none :=
        lastOf_eq_none.mpr fun e mem => lastOf_eq_none.mp last e (List.mem_filter.mp mem).1
      simp [silent, agrees]
  | some v =>
      by_cases bad : degenerate v = true
      · have skipped : lastOf (es.filter fun e => !degenerate e.2) id = none ↔
            ∀ w, (id, w) ∈ es → degenerate w = true := by
          rw [lastOf_eq_none]
          constructor
          · intro none w mem
            by_contra good
            exact none (id, w) (List.mem_filter.mpr ⟨mem, by simpa using good⟩) rfl
          · rintro all e mem rfl
            obtain ⟨listed, good⟩ := List.mem_filter.mp mem
            simp [all e.2 listed] at good
        simp only [Option.some_or, Option.filter, bad, Bool.not_true, Bool.false_eq_true, if_false,
          Option.or_eq_none_iff, skipped, Option.some.injEq, forall_eq', forall_const]
        exact and_comm
      · rw [lastOf_filter_of_keep last (by simpa using bad)]
        simp [Option.filter, bad]

/-- **One call keeps the agreement exactly when it overwrites no live id with a
degenerate vector.** -/
theorem step_agrees_iff {op : CorpusOp ι α} (sound : c.Sound m) (agrees : c.Agrees)
    (taken : c.step op = some d) : d.Agrees ↔ OverwritesNoLive c op := by
  have before := sound.agrees_iff.mp agrees
  rcases sound.step taken with ⟨embed, pairs, es, rfl, embedded, sound', rows⟩ |
    ⟨ids, rfl, sound', rows⟩
  · rw [sound'.agrees_iff, rows]
    simp only [OverwritesNoLive, embedded, Except.ok.injEq, forall_eq']
    refine forall_congr' fun id => ?_
    rw [batch_agrees_iff es id (before id), sound.represents.vectorOf_eq]
  · rw [sound'.agrees_iff, rows]
    simp only [OverwritesNoLive, iff_true]
    intro id
    rw [Rows.lookup_eraseAll, Rows.lookup_eraseAll]
    split
    · rfl
    · exact before id

end Step

/-! ## Every run -/

section Run

variable {ι α : Type} [DecidableEq ι] [ToString ι] [Component α]

/-- A new corpus: an empty index of the given dimension and an empty store. -/
def Corpus.fresh (index : HnswInner ι α) : Corpus ι α where
  index := index
  store := .empty

omit [ToString ι] [Component α] in
theorem Corpus.fresh_sound {dim ef : Nat} {index : HnswInner ι α}
    (made : HnswInner.withConfig dim ef = .ok index) : (Corpus.fresh index).Sound ∅ := by
  obtain ⟨maps, refines, rfl⟩ := idMaps_new dim ef index made
  refine ⟨⟨maps, refines⟩, fun zero => ?_, fun id v held => by cases held⟩
  have positive : index.dim ≠ 0 := by
    intro zero
    rw [HnswInner.withConfig, if_pos zero] at made
    cases made
  exact positive zero

/-- Along every run of successful batches and removals on a new corpus, the live
index is the one a rebuild would make in every state reached exactly when no batch
overwrites a live id with a degenerate vector. -/
theorem liveIndex_agrees_iff {dim ef : Nat} {index : HnswInner ι α}
    (made : HnswInner.withConfig dim ef = .ok index) (ops : List (CorpusOp ι α)) (d : Corpus ι α)
    (ran : exec Corpus.step (Corpus.fresh index) ops = some d) :
    Throughout Corpus.step Corpus.Agrees (Corpus.fresh index) ops ↔
      EachStep Corpus.step OverwritesNoLive (Corpus.fresh index) ops := by
  have sound := Corpus.fresh_sound made
  refine throughout_iff_eachStep (fun c => ∃ m, Corpus.Sound c m) ?_ ?_ ⟨∅, sound⟩ ?_ ran
  · rintro c op c' ⟨m, sound⟩ taken
    rcases sound.step taken with ⟨-, -, es, -, -, sound', -⟩ | ⟨ids, -, sound', -⟩
    · exact ⟨_, sound'⟩
    · exact ⟨_, sound'⟩
  · rintro c op c' ⟨m, sound⟩ agrees taken
    exact step_agrees_iff sound agrees taken
  · exact sound.agrees_iff.mpr fun id => rfl

end Run

/-- An empty index of dimension 2. -/
def emptyIndex : HnswInner String Int where
  points := []
  idToInt := ∅
  intToId := ∅
  deleted := ∅
  nextId := 0
  dim := 2
  efSearch := defaultEfSearch
  modelName := none

/-- A zero vector for an id that was never live, and a removal: the run agrees
throughout. -/
theorem liveIndex_agrees_fresh_zero :
    let ops : List (CorpusOp String Int) :=
      [.embedBatch (fun _ => .ok [[1, 0], [0, 0]]) [("a", "alpha"), ("b", "beta")],
        .deleteDocument ["a"]]
    Throughout Corpus.step Corpus.Agrees (Corpus.fresh emptyIndex) ops := by
  intro ops
  have made : HnswInner.withConfig 2 defaultEfSearch = .ok emptyIndex := rfl
  refine (liveIndex_agrees_iff made ops _ rfl).mpr ⟨?_, fun _ _ => ⟨trivial, fun _ _ => trivial⟩⟩
  intro es embedded
  have handed : embeddedPairs (fun _ => .ok [[1, 0], [0, 0]])
      [("a", "alpha"), ("b", "beta")] = .ok [("a", [(1 : Int), 0]), ("b", [0, 0])] := rfl
  rw [handed] at embedded
  cases embedded
  intro id v last bad
  have listed := mem_of_lastOf last
  simp only [List.mem_cons, Prod.mk.injEq, List.not_mem_nil, or_false] at listed
  rcases listed with ⟨rfl, rfl⟩ | ⟨rfl, rfl⟩
  · exact absurd bad (by decide)
  · refine ⟨rfl, fun w mem => ?_⟩
    simp only [List.mem_cons, Prod.mk.injEq, List.not_mem_nil, or_false] at mem
    rcases mem with ⟨clash, -⟩ | ⟨-, rfl⟩
    · exact absurd clash (by decide)
    · decide

/-- Re-embedding a live id as the zero vector: the index keeps the old vector, the
row is replaced, and a rebuild drops the id. -/
theorem liveIndex_zero_overwrite :
    ¬ ∀ (ops : List (CorpusOp String Int)) (d : Corpus String Int),
      exec Corpus.step (Corpus.fresh emptyIndex) ops = some d → d.Agrees := by
  intro agrees
  have after := agrees
    [.embedBatch (fun _ => .ok [[1, 0]]) [("a", "alpha")],
      .embedBatch (fun _ => .ok [[0, 0]]) [("a", "")]] _ rfl
  have kept := after.rows "a"
  revert kept
  decide

end Ministr.Index
