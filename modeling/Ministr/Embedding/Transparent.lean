/-
# Embedding.Transparent — the cached embedder answers what the inner one would

The inner embedder is pointwise: `inner texts` is one computation `vec` per text, and
fails with the first text that fails.  Then the cache is invisible.  `Collapsed` says
what the slot loop has established after a prefix of the batch; `Written` is the
invariant of the table: a row of this model holds the vector of the input it was
written for.  `embed_faithful` is the result about one batch, `cachedEmbedder_transparent`
the one about every sequence of batches.
-/
import Ministr.Embedding.Cache

namespace Ministr.Embedding

open Ministr.Theory Ministr.Index

set_option autoImplicit false

/-! ## The slot loop -/

/-- The texts `seen` so far stand in the slots of `distinct`. -/
structure Collapsed (texts seen : List String) (s : Slots) (distinct : List String) : Prop where
  first : ∀ t k, s.first.lookup t = some k ↔ distinct[k]? = some t
  nodup : distinct.Nodup
  covers : ∀ t, t ∈ distinct ↔ t ∈ seen
  uniqueIdx : gather s.uniqueIdx texts = some distinct
  slot : gather s.slot distinct = some seen
  order : ∀ {γ : Type} (f : String → Option γ), distinct.findSome? f = seen.findSome? f

theorem collapsed_nil (texts : List String) : Collapsed texts [] {} [] where
  first := fun t k => by simp [show ({} : Slots).first.lookup t = none from rfl]
  nodup := List.nodup_nil
  covers := fun t => Iff.rfl
  uniqueIdx := rfl
  slot := rfl
  order := fun _ => rfl

/-- A text that has a slot. -/
theorem Collapsed.again {texts seen : List String} {s : Slots} {distinct : List String}
    (collapsed : Collapsed texts seen s distinct) {t : String} {u : Nat}
    (found : s.first.lookup t = some u) :
    Collapsed texts (seen ++ [t]) { s with slot := s.slot ++ [u] } distinct := by
  have slotted := (collapsed.first t u).mp found
  have mem : t ∈ distinct := List.mem_of_getElem? slotted
  refine { collapsed with covers := fun t' => ?_, slot := gather_concat collapsed.slot slotted,
                          order := fun f => ?_ }
  · rw [collapsed.covers t', List.mem_append, List.mem_singleton]
    refine ⟨Or.inl, fun h => h.elim id fun same => ?_⟩
    rw [same]
    exact (collapsed.covers t).mp mem
  · rw [List.findSome?_append, ← collapsed.order f]
    cases answer : distinct.findSome? f with
    | some _ => rfl
    | none => simp [List.findSome?_eq_none_iff.mp answer t mem]

/-- A text that is new gets the next slot. -/
theorem Collapsed.fresh {texts seen : List String} {s : Slots} {distinct : List String}
    (collapsed : Collapsed texts seen s distinct) {t : String} {i : Nat}
    (here : texts[i]? = some t) (absent : s.first.lookup t = none) :
    Collapsed texts (seen ++ [t])
      { first := s.first.insert t s.uniqueIdx.length
        slot := s.slot ++ [s.uniqueIdx.length]
        uniqueIdx := s.uniqueIdx ++ [i] } (distinct ++ [t]) := by
  have length := length_gather collapsed.uniqueIdx
  have new : t ∉ distinct := by
    intro mem
    obtain ⟨k, at_k⟩ := List.mem_iff_getElem?.mp mem
    rw [(collapsed.first t k).mpr at_k] at absent
    cases absent
  refine
    { first := fun t' k => ?_
      nodup := List.nodup_append.mpr ⟨collapsed.nodup, List.nodup_singleton t, ?_⟩
      covers := fun t' => by simp [collapsed.covers t']
      uniqueIdx := gather_concat collapsed.uniqueIdx here
      slot := gather_concat (gather_append_right collapsed.slot [t]) (by simp [← length])
      order := fun f => by rw [List.findSome?_append, List.findSome?_append, collapsed.order f] }
  · rw [Rows.lookup_insert_if, ← length]
    rcases Nat.lt_trichotomy k distinct.length with before | at_end | after
    · rw [List.getElem?_append_left before]
      by_cases same : t' = t
      · subst same
        rw [if_pos rfl]
        refine ⟨fun eq => ?_, fun held => absurd (List.mem_of_getElem? held) new⟩
        have : distinct.length = k := Option.some.inj eq
        omega
      · rw [if_neg same]
        exact collapsed.first t' k
    · subst at_end
      by_cases same : t' = t
      · simp [same]
      · rw [if_neg same, collapsed.first t']
        simp [Ne.symm same]
    · have out : (distinct ++ [t])[k]? = none := List.getElem?_eq_none (by simp; omega)
      have out' : distinct[k]? = none := List.getElem?_eq_none (by omega)
      rw [out]
      by_cases same : t' = t
      · simp only [same, if_true, Option.some.injEq, reduceCtorEq, iff_false]
        omega
      · rw [if_neg same, collapsed.first t', out']
  · rintro a mem b only rfl
    exact new (List.mem_singleton.mp only ▸ mem)

theorem Collapsed.loop {texts : List String} (rest seen : List String) {s : Slots}
    {distinct : List String} (whole : texts = seen ++ rest)
    (collapsed : Collapsed texts seen s distinct) :
    ∃ distinct', Collapsed texts texts (s.collapse seen.length rest) distinct' := by
  induction rest generalizing seen s distinct with
  | nil =>
      rw [List.append_nil] at whole
      exact ⟨distinct, by rw [← whole] at collapsed; exact collapsed⟩
  | cons t rest ih =>
      have here : texts[seen.length]? = some t := by simp [whole]
      have next : texts = (seen ++ [t]) ++ rest := by simp [whole]
      rw [Slots.collapse]
      cases found : s.first.lookup t with
      | some u => simpa using ih (seen ++ [t]) next (collapsed.again found)
      | none => simpa using ih (seen ++ [t]) next (collapsed.fresh here found)

/-- The slots of a batch stand for its distinct texts, in the order of their first
occurrence. -/
theorem collapse_collapsed (texts : List String) :
    ∃ distinct, Collapsed texts texts (Slots.collapse {} 0 texts) distinct :=
  (collapsed_nil texts).loop texts [] rfl

/-! ## The table -/

section Sound

variable {c : CachedEmbedder} {vec : String → Except IndexError F32Vec} {inputs : Set String}

/-- Every row of this model holds the vector of the input it was written for. -/
def Written (c : CachedEmbedder) (vec : String → Except IndexError F32Vec) (inputs : Set String)
    (rows : EmbeddingCache) : Prop :=
  ∀ hash blob, rows.lookup (hash, c.modelName) = some blob →
    ∃ t ∈ inputs, ∃ v, c.contentHash t = hash ∧ vec t = .ok v ∧ blob = encodeVector v

/-- The row of an input holds the vector of that input. -/
theorem Written.row {rows : EmbeddingCache} (written : Written c vec inputs rows)
    (collisionFree : Set.InjOn c.contentHash inputs) {t : String} (input : t ∈ inputs)
    {blob : List UInt8} (found : rows.lookup (c.contentHash t, c.modelName) = some blob) :
    vec t = .ok (decodeVector blob) := by
  obtain ⟨t', input', v, same, ok, rfl⟩ := written _ _ found
  rw [decodeVector_encodeVector, ← collisionFree input' input same]
  exact ok

theorem Written.find {rows : EmbeddingCache} (written : Written c vec inputs rows)
    (collisionFree : Set.InjOn c.contentHash inputs) {db : DbAnswers} {t : String}
    (input : t ∈ inputs) {v : F32Vec}
    (found : EmbeddingCache.find db rows c.modelName (c.contentHash t) = some v) :
    vec t = .ok v := by
  unfold EmbeddingCache.find at found
  split at found
  · cases found
  · obtain ⟨blob, stored, rfl⟩ := Option.map_eq_some_iff.mp found
    exact written.row collisionFree input stored

theorem Written.insertEach {db : DbAnswers} {rows : EmbeddingCache}
    (written : Written c vec inputs rows) {entries : List (String × F32Vec)}
    (each : ∀ e ∈ entries, ∃ t ∈ inputs, c.contentHash t = e.1 ∧ vec t = .ok e.2) :
    Written c vec inputs (EmbeddingCache.insertEach db c.modelName rows entries).1 := by
  induction entries generalizing rows with
  | nil => exact written
  | cons e entries ih =>
      rw [EmbeddingCache.insertEach]
      split
      · exact written
      · refine ih (fun hash blob found => ?_) fun e mem => each e (List.mem_cons_of_mem _ mem)
        rw [Rows.lookup_insert_if] at found
        split at found
        · rename_i same
          obtain ⟨t, input, hashed, ok⟩ := each e List.mem_cons_self
          cases found
          exact ⟨t, input, e.2, hashed.trans (Prod.mk.inj same).1.symm, ok, rfl⟩
        · exact written hash blob found

theorem Written.putBatch (db : DbAnswers) {rows : EmbeddingCache}
    (written : Written c vec inputs rows) {entries : List (String × F32Vec)}
    (each : ∀ e ∈ entries, ∃ t ∈ inputs, c.contentHash t = e.1 ∧ vec t = .ok e.2) :
    Written c vec inputs (EmbeddingCache.putBatch db rows entries c.modelName).1 := by
  unfold EmbeddingCache.putBatch
  split
  · exact written
  · split
    · exact written
    · exact written.insertEach each

theorem insertEach_quiet {db : DbAnswers} (quiet : db.Quiet) (model : String)
    (rows : EmbeddingCache) (entries : List (String × F32Vec)) :
    (EmbeddingCache.insertEach db model rows entries).2 = .ok () := by
  induction entries generalizing rows with
  | nil => rfl
  | cons e entries ih =>
      simp only [EmbeddingCache.insertEach, quiet.insertFails]
      exact ih _

theorem putBatch_quiet {db : DbAnswers} (quiet : db.Quiet) (rows : EmbeddingCache)
    (entries : List (String × F32Vec)) (model : String) :
    (EmbeddingCache.putBatch db rows entries model).2 = .ok () := by
  simp only [EmbeddingCache.putBatch, quiet.insertPrepare]
  split
  · rfl
  · exact insertEach_quiet quiet model rows entries

/-! ## One batch -/

/-- The text has no row that this call can read. -/
def Missing (c : CachedEmbedder) (db : DbAnswers) (rows : EmbeddingCache) (t : String) : Bool :=
  (EmbeddingCache.find db rows c.modelName (c.contentHash t)).isNone

/-- The vector of a text, where it has one. -/
def vectorOf (vec : String → Except IndexError F32Vec) (t : String) : F32Vec :=
  (vec t).toOption.getD []

theorem vec_eq_vectorOf {t : String} {v : F32Vec} (ok : vec t = .ok v) :
    vec t = .ok (vectorOf vec t) := by
  rw [vectorOf, ok]
  rfl

/-- What a call answers is what the inner embedder would answer, and the inner
embedder is asked for each text without a row once. -/
structure Faithful (c : CachedEmbedder) (inputs : Set String) (db : DbAnswers) (s : CacheState)
    (texts : List String) (a : Answer) : Prop where
  result : ∀ vectors, a.result = .ok vectors → c.inner texts = .ok vectors
  exact : db.Quiet → a.result = c.inner texts
  askedOnce : (a.asked.getD []).Nodup
  askedFor : ∀ t ∈ a.asked.getD [], t ∈ texts ∧
    (s.rows.lookup (c.contentHash t, c.modelName) = none ∨ db.unreadable (c.contentHash t) = true)
  askedAll : db.Quiet → ∀ t ∈ texts, s.rows.lookup (c.contentHash t, c.modelName) = none →
    t ∈ a.asked.getD []
  stored : ∀ t ∈ inputs, ∀ blob, a.state.rows.lookup (c.contentHash t, c.modelName) = some blob →
    c.inner [t] = .ok [decodeVector blob]

theorem missing_iff {db : DbAnswers} {rows : EmbeddingCache} {t : String} :
    Missing c db rows t = true ↔
      rows.lookup (c.contentHash t, c.modelName) = none ∨
        db.unreadable (c.contentHash t) = true := by
  unfold Missing EmbeddingCache.find
  by_cases unreadable : db.unreadable (c.contentHash t) = true <;> simp [unreadable]

/-- The hashes of the slots. -/
theorem Collapsed.refs {texts distinct : List String} {slots : Slots}
    (collapsed : Collapsed texts texts slots distinct) (hash : String → String) :
    gather slots.uniqueIdx (texts.map hash) = some (distinct.map hash) := by
  rw [gather_map, collapsed.uniqueIdx, Option.map_some]

theorem Collapsed.referred {texts distinct : List String} {slots : Slots}
    (collapsed : Collapsed texts texts slots distinct) (nonempty : texts ≠ [])
    (hash : String → String) : (distinct.map hash).isEmpty = false := by
  obtain ⟨t, mem⟩ := List.exists_mem_of_ne_nil texts nonempty
  have held := (collapsed.covers t).mpr mem
  cases distinct with
  | nil => cases held
  | cons _ _ => rfl

/-- The hashes the new rows are written under. -/
theorem Collapsed.missHashes {texts distinct : List String} {slots : Slots}
    (collapsed : Collapsed texts texts slots distinct) (hash : String → String)
    (p : String → Bool) :
    (gather (positionsOf p distinct) slots.uniqueIdx).bind (fun is => gather is (texts.map hash)) =
      some ((distinct.filter p).map hash) := by
  rw [gather_gather (collapsed.refs hash), gather_map, gather_positionsOf, Option.map_some]

/-- The found and the new vectors together are the vectors of the slots. -/
theorem Written.uniqueVecs (db : DbAnswers) {rows : EmbeddingCache}
    (written : Written c vec inputs rows) (collisionFree : Set.InjOn c.contentHash inputs)
    {distinct : List String} (input : ∀ t ∈ distinct, t ∈ inputs) :
    scatter
        ((distinct.map fun t => EmbeddingCache.find db rows c.modelName (c.contentHash t)).map
          fun v => v.getD [])
        ((positionsOf (Missing c db rows) distinct).zip
          ((distinct.filter (Missing c db rows)).map (vectorOf vec))) =
      some (distinct.map (vectorOf vec)) := by
  rw [List.map_map, scatter_positionsOf, Option.some.injEq]
  refine List.map_congr_left fun t mem => ?_
  cases found : EmbeddingCache.find db rows c.modelName (c.contentHash t) with
  | none => simp [Missing, found]
  | some v =>
      have ok := written.find collisionFree (input t mem) found
      simp only [Missing, found, Option.isNone_some, Bool.false_eq_true, if_false,
        Function.comp_apply, Option.getD_some, vectorOf, ok]
      rfl

/-- The new rows hold the vectors of the texts they are written for. -/
theorem missEntries_sound {distinct : List String} {p : String → Bool}
    (input : ∀ t ∈ distinct, t ∈ inputs)
    (answered : ∀ t ∈ distinct, p t = true → vec t = .ok (vectorOf vec t)) :
    ∀ e ∈ ((distinct.filter p).map c.contentHash).zip ((distinct.filter p).map (vectorOf vec)),
      ∃ t ∈ inputs, c.contentHash t = e.1 ∧ vec t = .ok e.2 := by
  intro e mem
  rw [List.zip_map', List.mem_map] at mem
  obtain ⟨t, kept, rfl⟩ := mem
  obtain ⟨mem, missing⟩ := List.mem_filter.mp kept
  exact ⟨t, input t mem, rfl, answered t mem missing⟩

/-- What the last two steps leave and answer, for vectors that are those of the
missing texts. -/
theorem finish_spec (collisionFree : Set.InjOn c.contentHash inputs) (db : DbAnswers)
    (s : CacheState) {texts distinct : List String} {slots : Slots}
    (written : Written c vec inputs s.rows) (requested : ∀ t ∈ texts, t ∈ inputs)
    (collapsed : Collapsed texts texts slots distinct)
    (answered : ∀ t ∈ distinct, Missing c db s.rows t = true → vec t = .ok (vectorOf vec t))
    (asked : Option (List String)) :
    ∃ rows result,
      c.finish db s asked (texts.map c.contentHash) slots
          (distinct.map fun t => EmbeddingCache.find db s.rows c.modelName (c.contentHash t))
          (positionsOf (Missing c db s.rows) distinct)
          ((distinct.filter (Missing c db s.rows)).map (vectorOf vec)) =
        some ⟨{ s with rows }, asked, result⟩ ∧
      Written c vec inputs rows ∧
      (∀ vectors, result = .ok vectors → vectors = texts.map (vectorOf vec)) ∧
      (db.Quiet → result = .ok (texts.map (vectorOf vec))) := by
  have input : ∀ t ∈ distinct, t ∈ inputs := fun t mem => requested t ((collapsed.covers t).mp mem)
  have hashes := collapsed.missHashes c.contentHash (Missing c db s.rows)
  have vectors := Written.uniqueVecs db written collisionFree input
  have results : gather slots.slot (distinct.map (vectorOf vec)) =
      some (texts.map (vectorOf vec)) := by
    rw [gather_map, collapsed.slot, Option.map_some]
  by_cases none_missing : ((distinct.filter (Missing c db s.rows)).map (vectorOf vec)).isEmpty = true
  · refine ⟨s.rows, .ok (texts.map (vectorOf vec)), ?_, written, fun _ same => ?_, fun _ => rfl⟩
    · simp only [CachedEmbedder.finish, none_missing, if_true, Option.bind_eq_bind,
        Option.bind_some, vectors, results]
    · exact (Except.ok.inj same).symm
  · have kept := Written.putBatch db written (missEntries_sound input answered)
    have quietly := fun quiet : db.Quiet => putBatch_quiet quiet s.rows
      (((distinct.filter (Missing c db s.rows)).map c.contentHash).zip
        ((distinct.filter (Missing c db s.rows)).map (vectorOf vec))) c.modelName
    cases stored : EmbeddingCache.putBatch db s.rows
        (((distinct.filter (Missing c db s.rows)).map c.contentHash).zip
          ((distinct.filter (Missing c db s.rows)).map (vectorOf vec))) c.modelName with
    | mk rows outcome =>
        rw [stored] at kept quietly
        cases outcome with
        | error e =>
            refine ⟨rows, .error e, ?_, kept, nofun, fun quiet => by cases quietly quiet⟩
            simp only [CachedEmbedder.finish, none_missing, if_false, Option.bind_eq_bind, hashes,
              Option.bind_some, stored, Bool.false_eq_true]
        | ok _ =>
            refine ⟨rows, .ok (texts.map (vectorOf vec)), ?_, kept, fun _ same => ?_, fun _ => rfl⟩
            · simp only [CachedEmbedder.finish, none_missing, if_false, Option.bind_eq_bind, hashes,
                Option.bind_some, stored, vectors, results, Bool.false_eq_true]
            · exact (Except.ok.inj same).symm

/-- The inner embedder on the missing texts fails as it would on the whole batch. -/
theorem Collapsed.inner_error (pointwise : ∀ texts, c.inner texts = texts.mapM vec)
    {texts distinct : List String} {slots : Slots}
    (collapsed : Collapsed texts texts slots distinct) {p : String → Bool}
    (found : ∀ t ∈ distinct, p t = false → ∃ v, vec t = .ok v) {e : IndexError}
    (failed : c.inner (distinct.filter p) = .error e) : c.inner texts = .error e := by
  rw [pointwise, mapM_eq_error] at failed ⊢
  rw [← collapsed.order, ← failed]
  clear failed collapsed
  induction distinct with
  | nil => rfl
  | cons t distinct ih =>
      have rest := ih fun t mem => found t (List.mem_cons_of_mem _ mem)
      by_cases kept : p t = true
      · rw [List.filter_cons_of_pos kept, List.findSome?_cons, List.findSome?_cons, rest]
      · obtain ⟨v, ok⟩ := found t List.mem_cons_self (Bool.not_eq_true _ ▸ kept)
        rw [List.filter_cons_of_neg kept, List.findSome?_cons, rest, ok]
        rfl

/-- The row of an input holds what the inner embedder answers for it. -/
theorem Written.inner_row (pointwise : ∀ texts, c.inner texts = texts.mapM vec)
    (collisionFree : Set.InjOn c.contentHash inputs) {rows : EmbeddingCache}
    (written : Written c vec inputs rows) :
    ∀ t ∈ inputs, ∀ blob, rows.lookup (c.contentHash t, c.modelName) = some blob →
      c.inner [t] = .ok [decodeVector blob] := by
  intro t input blob found
  rw [pointwise]
  refine mapM_eq_ok (g := fun _ => decodeVector blob) fun t' only => ?_
  rw [List.mem_singleton.mp only]
  exact written.row collisionFree input found

/-- What the inner embedder is asked for: the missing ones of the distinct texts. -/
theorem Collapsed.asked {texts distinct : List String} {slots : Slots}
    (collapsed : Collapsed texts texts slots distinct) (c : CachedEmbedder) (db : DbAnswers) (s : CacheState) :
    (distinct.filter (Missing c db s.rows)).Nodup ∧
    (∀ t ∈ distinct.filter (Missing c db s.rows), t ∈ texts ∧
      (s.rows.lookup (c.contentHash t, c.modelName) = none ∨
        db.unreadable (c.contentHash t) = true)) ∧
    ∀ t ∈ texts, s.rows.lookup (c.contentHash t, c.modelName) = none →
      t ∈ distinct.filter (Missing c db s.rows) := by
  refine ⟨collapsed.nodup.filter _, fun t kept => ?_, fun t mem absent => ?_⟩
  · obtain ⟨mem, missing⟩ := List.mem_filter.mp kept
    exact ⟨(collapsed.covers t).mp mem, missing_iff.mp missing⟩
  · exact List.mem_filter.mpr ⟨(collapsed.covers t).mpr mem, missing_iff.mpr (Or.inl absent)⟩

/-- The counters after a lookup. -/
def CacheState.count (s : CacheState) (hits misses : Nat) : CacheState :=
  { s with cacheHits := s.cacheHits + hits, cacheMisses := s.cacheMisses + misses }

/-- The last two steps of a call that looked the slots of `distinct` up. -/
def finishSlots (c : CachedEmbedder) (db : DbAnswers) (rows : EmbeddingCache) (s : CacheState)
    (texts distinct : List String) (asked : Option (List String)) (missVectors : List F32Vec) :
    Option Answer :=
  c.finish db s asked (texts.map c.contentHash) (Slots.collapse {} 0 texts)
    (distinct.map fun t => EmbeddingCache.find db rows c.modelName (c.contentHash t))
    (positionsOf (Missing c db rows) distinct) missVectors

/-- The call up to the inner embedder, for a batch that is looked up. -/
theorem embed_cases (c : CachedEmbedder) {db : DbAnswers} (prepared : db.queryPrepare = none)
    (s : CacheState) {texts distinct : List String} (nonempty : texts ≠ [])
    (collapsed : Collapsed texts texts (Slots.collapse {} 0 texts) distinct) :
    let missing := distinct.filter (Missing c db s.rows)
    ∃ hits misses,
      (missing = [] →
        c.embed db s texts = finishSlots c db s.rows (s.count hits misses) texts distinct none []) ∧
      (∀ e, missing ≠ [] → c.inner missing = .error e →
        c.embed db s texts = some ⟨s.count hits misses, some missing, .error e⟩) ∧
      (∀ missVectors, missing ≠ [] → c.inner missing = .ok missVectors →
        c.embed db s texts =
          finishSlots c db s.rows (s.count hits misses) texts distinct (some missing)
            missVectors) := by
  have opened : texts.isEmpty = false := by simpa using nonempty
  have refs := collapsed.refs c.contentHash
  have referred := collapsed.referred nonempty c.contentHash
  have batch : EmbeddingCache.getBatch db s.rows (distinct.map c.contentHash) c.modelName =
      .ok (distinct.map fun t => EmbeddingCache.find db s.rows c.modelName (c.contentHash t)) := by
    simp only [EmbeddingCache.getBatch, referred, Bool.false_eq_true, if_false, prepared,
      List.map_map, Function.comp_def]
  have misses : positionsOf Option.isNone (distinct.map fun t =>
      EmbeddingCache.find db s.rows c.modelName (c.contentHash t)) =
        positionsOf (Missing c db s.rows) distinct := positionsOf_map _ _ _
  have missTexts : (gather (positionsOf (Missing c db s.rows) distinct)
      (Slots.collapse {} 0 texts).uniqueIdx).bind (fun is => gather is texts) =
        some (distinct.filter (Missing c db s.rows)) := by
    rw [gather_gather collapsed.uniqueIdx, gather_positionsOf]
  refine ⟨(distinct.map c.contentHash).length - (positionsOf (Missing c db s.rows) distinct).length,
    (positionsOf (Missing c db s.rows) distinct).length, ?_⟩
  refine ⟨fun empty => ?_, fun e some_missing failed => ?_, fun vectors some_missing ok => ?_⟩
  · simp only [CachedEmbedder.embed, opened, Bool.false_eq_true, if_false, Option.bind_eq_bind, refs,
      Option.bind_some, batch, misses, missTexts, empty, List.isEmpty_nil, if_true]
    rfl
  · have called : (distinct.filter (Missing c db s.rows)).isEmpty = false := by
      simpa using some_missing
    simp only [CachedEmbedder.embed, opened, Bool.false_eq_true, if_false, Option.bind_eq_bind, refs,
      Option.bind_some, batch, misses, missTexts, called, failed]
    rfl
  · have called : (distinct.filter (Missing c db s.rows)).isEmpty = false := by
      simpa using some_missing
    simp only [CachedEmbedder.embed, opened, Bool.false_eq_true, if_false, Option.bind_eq_bind, refs,
      Option.bind_some, batch, misses, missTexts, called, ok]
    rfl

/-- A batch whose lookup cannot be prepared. -/
theorem embed_unprepared (c : CachedEmbedder) {db : DbAnswers} {e : String}
    (prepared : db.queryPrepare = some e) (s : CacheState) {texts distinct : List String}
    (nonempty : texts ≠ [])
    (collapsed : Collapsed texts texts (Slots.collapse {} 0 texts) distinct) :
    c.embed db s texts =
      some ⟨s, none, .error (.embeddingFailed ("cache query prepare failed: " ++ e))⟩ := by
  have opened : texts.isEmpty = false := by simpa using nonempty
  simp only [CachedEmbedder.embed, opened, Bool.false_eq_true, if_false, Option.bind_eq_bind,
    collapsed.refs c.contentHash, Option.bind_some, EmbeddingCache.getBatch,
    collapsed.referred nonempty c.contentHash, prepared]

/-- A call whose missing texts all have a vector goes on to its end and is faithful. -/
theorem finishSlots_faithful (pointwise : ∀ texts, c.inner texts = texts.mapM vec)
    (collisionFree : Set.InjOn c.contentHash inputs) (db : DbAnswers) {s : CacheState}
    {texts distinct : List String} (written : Written c vec inputs s.rows)
    (requested : ∀ t ∈ texts, t ∈ inputs)
    (collapsed : Collapsed texts texts (Slots.collapse {} 0 texts) distinct) (hits misses : Nat)
    {asked : Option (List String)}
    (made : asked.getD [] = distinct.filter (Missing c db s.rows))
    (each : ∀ t ∈ distinct, vec t = .ok (vectorOf vec t)) :
    ∃ a, finishSlots c db s.rows (s.count hits misses) texts distinct asked
        ((distinct.filter (Missing c db s.rows)).map (vectorOf vec)) = some a ∧
      Written c vec inputs a.state.rows ∧ Faithful c inputs db s texts a := by
  have whole : c.inner texts = .ok (texts.map (vectorOf vec)) := by
    rw [pointwise]
    exact mapM_eq_ok fun t mem => each t ((collapsed.covers t).mpr mem)
  obtain ⟨once, only, all⟩ := collapsed.asked c db s
  obtain ⟨rows, result, ran, kept, ok, quietly⟩ := finish_spec collisionFree db
    (s.count hits misses) written requested collapsed (fun t mem _ => each t mem) asked
  refine ⟨_, ran, kept, ?_⟩
  refine ⟨fun vectors same => ?_, fun quiet => ?_, ?_, ?_, fun _ => ?_,
    Written.inner_row pointwise collisionFree kept⟩
  · rw [whole, ok vectors same]
  · exact (quietly quiet).trans whole.symm
  · rw [made]
    exact once
  · rw [made]
    exact only
  · rw [made]
    exact all

/-- **One batch.**  The call does not panic, keeps the table, and answers what the
inner embedder would. -/
theorem embed_faithful (pointwise : ∀ texts, c.inner texts = texts.mapM vec)
    (collisionFree : Set.InjOn c.contentHash inputs) (db : DbAnswers) {s : CacheState}
    {texts : List String} (written : Written c vec inputs s.rows)
    (requested : ∀ t ∈ texts, t ∈ inputs) :
    ∃ a, c.embed db s texts = some a ∧ Written c vec inputs a.state.rows ∧
      Faithful c inputs db s texts a := by
  have rowOf := Written.inner_row pointwise collisionFree written
  obtain rfl | nonempty := eq_or_ne texts []
  · refine ⟨⟨s, none, .ok []⟩, rfl, written, ?_⟩
    have inner_nil : c.inner [] = .ok [] := pointwise []
    exact ⟨fun _ same => inner_nil.trans same, fun _ => inner_nil.symm, List.nodup_nil, nofun,
      fun _ => nofun, rowOf⟩
  obtain ⟨distinct, collapsed⟩ := collapse_collapsed texts
  cases prepared : db.queryPrepare with
  | some e =>
      refine ⟨_, embed_unprepared c prepared s nonempty collapsed, written, ?_⟩
      refine ⟨nofun, fun quiet => ?_, List.nodup_nil, nofun, fun quiet => ?_, rowOf⟩
      · cases quiet.queryPrepare.symm.trans prepared
      · cases quiet.queryPrepare.symm.trans prepared
  | none =>
      obtain ⟨hits, misses, served, failed, called⟩ := embed_cases c prepared s nonempty collapsed
      have found : ∀ t ∈ distinct, Missing c db s.rows t = false → ∃ v, vec t = .ok v := by
        intro t mem held
        obtain ⟨v, row⟩ := Option.isSome_iff_exists.mp (Option.isNone_eq_false_iff.mp held)
        exact ⟨v, written.find collisionFree (requested t ((collapsed.covers t).mp mem)) row⟩
      have each : (∀ t ∈ distinct.filter (Missing c db s.rows), ∃ v, vec t = .ok v) →
          ∀ t ∈ distinct, vec t = .ok (vectorOf vec t) := by
        intro answered t mem
        cases missing : Missing c db s.rows t with
        | false => exact vec_eq_vectorOf (found t mem missing).choose_spec
        | true =>
            exact vec_eq_vectorOf (answered t (List.mem_filter.mpr ⟨mem, missing⟩)).choose_spec
      by_cases empty : distinct.filter (Missing c db s.rows) = []
      · rw [served empty]
        have answer := finishSlots_faithful pointwise collisionFree db written requested collapsed
          hits misses (show (none : Option (List String)).getD [] = _ by rw [empty]; rfl) (each (by rw [empty]; nofun))
        rw [empty, List.map_nil] at answer
        exact answer
      · cases answered : c.inner (distinct.filter (Missing c db s.rows)) with
        | error e =>
            refine ⟨_, failed e empty answered, written, ?_⟩
            obtain ⟨once, only, all⟩ := collapsed.asked c db s
            have whole := collapsed.inner_error pointwise found answered
            exact ⟨nofun, fun _ => whole.symm, once, only, fun _ => all, rowOf⟩
        | ok missVectors =>
            rw [called missVectors empty answered]
            rw [pointwise] at answered
            have ok := ok_of_mapM_eq_ok answered
            have values : (distinct.filter (Missing c db s.rows)).map (vectorOf vec) =
                missVectors := by
              rw [mapM_eq_ok fun t mem => vec_eq_vectorOf (ok t mem).choose_spec] at answered
              exact Except.ok.inj answered
            rw [← values]
            exact finishSlots_faithful pointwise collisionFree db written requested collapsed
              hits misses rfl (each ok)

/-! ## Every sequence of batches -/

/-- A batch, with what the database refuses during it, as a step. -/
def CachedEmbedder.step (c : CachedEmbedder) (s : CacheState) (batch : DbAnswers × List String) :
    Option CacheState :=
  (c.embed batch.1 s batch.2).map Answer.state

/-- **Transparency.**  In every sequence of batches over the inputs, from any table the
code itself has written, every call answers faithfully; and a stored vector is read back
bit for bit. -/
theorem cachedEmbedder_transparent (pointwise : ∀ texts, c.inner texts = texts.mapM vec)
    (collisionFree : Set.InjOn c.contentHash inputs) {s : CacheState}
    (prior : Written c vec inputs s.rows) (batches : List (DbAnswers × List String))
    (requested : ∀ batch ∈ batches, ∀ t ∈ batch.2, t ∈ inputs) :
    EachStep c.step
        (fun s batch => ∃ a, c.embed batch.1 s batch.2 = some a ∧
          Faithful c inputs batch.1 s batch.2 a) s batches ∧
      ∀ vector, decodeVector (encodeVector vector) = vector := by
  refine ⟨?_, decodeVector_encodeVector⟩
  refine eachStep_of_invariant (fun s => Written c vec inputs s.rows) ?_ ?_ prior
  · intro s written batch mem
    obtain ⟨a, answered, -, faithful⟩ :=
      embed_faithful pointwise collisionFree batch.1 written (requested batch mem)
    exact ⟨a, answered, faithful⟩
  · intro s written batch mem t taken
    obtain ⟨a, answered, kept, -⟩ :=
      embed_faithful pointwise collisionFree batch.1 written (requested batch mem)
    rw [CachedEmbedder.step, answered] at taken
    cases taken
    exact kept

end Sound

/-- Two texts under their SHA-256 digests, and an embedder that knows them. -/
def twoTexts : CachedEmbedder where
  inner := fun texts => texts.mapM fun t =>
    if t = "a" then .ok [0x3f800000, 0] else .ok [0, 0x3f800000]
  contentHash := fun t =>
    if t = "a" then "ca978112ca1bbdcafac231b39a23dc4da786eff8147c4e72b9807785afee48bb"
    else "3e23e8160039594a33894f6564e1b1348bbd7a0088d42c4acb73eeaed59c009d"
  modelName := "all-MiniLM-L6-v2"

/-- A hit, misses and repeated texts within and across batches. -/
theorem cachedEmbedder_transparent_twoTexts :
    let rows : EmbeddingCache :=
      (∅ : EmbeddingCache).insert (twoTexts.contentHash "a", "all-MiniLM-L6-v2")
        (encodeVector [0x3f800000, 0])
    EachStep twoTexts.step
        (fun s batch => ∃ a, twoTexts.embed batch.1 s batch.2 = some a ∧
          Faithful twoTexts {"a", "b"} batch.1 s batch.2 a)
        { rows }
        [({}, ["b", "a", "b"]), ({}, ["a", "b"])] ∧
      ∀ vector, decodeVector (encodeVector vector) = vector := by
  intro rows
  have pointwise : ∀ texts, twoTexts.inner texts = texts.mapM fun t =>
      if t = "a" then .ok [0x3f800000, 0] else .ok [0, 0x3f800000] := fun _ => rfl
  refine cachedEmbedder_transparent pointwise ?_ ?_ _ ?_
  · rintro t (rfl | rfl) t' (rfl | rfl) same
    · rfl
    · exact absurd same (by decide)
    · exact absurd same (by decide)
    · rfl
  · intro hash blob found
    rw [Rows.lookup_insert_if] at found
    split at found
    · rename_i same
      cases found
      exact ⟨"a", Or.inl rfl, [0x3f800000, 0], (Prod.mk.inj same).1.symm, rfl, rfl⟩
    · cases found
  · intro batch mem t listed
    simp only [List.mem_cons, List.not_mem_nil, or_false] at mem
    rcases mem with rfl | rfl
    all_goals
      simp only [List.mem_cons, List.not_mem_nil, or_false] at listed
      show t = "a" ∨ t = "b"
      tauto

example : ((twoTexts.embed {} { rows := ∅ } ["b", "a", "b"]).map fun a =>
      (a.asked, a.result.toOption)) =
    some (some ["b", "a"], some [[0, 0x3f800000], [0x3f800000, 0], [0, 0x3f800000]]) := by
  decide

end Ministr.Embedding
