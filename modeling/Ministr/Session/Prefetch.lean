/-
# Session.Prefetch — the warm cache of a session

Strategies warm sections and definitions ahead of the calls that will want them.  The cache is
keyed by the storage key of an identity, bounded, and evicts the entry of least priority; a second
map keeps the definitions whose texts are in it.  Along every run the cache stays within its
capacity, its counters add up and a definition that is served is the last that was warmed
(`Sound`, `recalls_run`).

A lookup that finds nothing under the key of an identity of the primary corpus looks under the
bare content id, for entries of older callers.  But a content id can be any text, also the key of
another identity.  So what is served for an identity was warmed for it exactly when the lookup is
not misled in this way (`warmCache_iff`).

Priorities are floats: how they are computed and compared, and in what order the table is read, are
parameters.  So is `count_tokens`.  Counters are natural numbers.
-/
import Ministr.Session.Types
import Ministr.Theory.Scan

namespace Ministr.Prefetch

open Ministr.Theory

set_option autoImplicit false

/-! ## Data -/

inductive PrefetchStrategy where
  | sequential
  | topical
  | structural
  | crossSession
  | surveyExpand
  | agentPlan
  | symbolSearch
  | referenceFollow
  deriving DecidableEq, Repr

def PrefetchStrategy.all : List PrefetchStrategy :=
  [.sequential, .topical, .structural, .crossSession, .surveyExpand, .agentPlan, .symbolSearch,
    .referenceFollow]

structure CacheEntry where
  contentId : String
  text : String
  tokenCount : Nat
  headingPath : Option (List String)
  summary : Option String
  resolution : Resolution
  claimsAvailable : Nat
  strategy : PrefetchStrategy
  deriving DecidableEq, Repr

/-- The counters; `sequential_hits` and its like are `strategyHits`, `sequential_issued` and its
like `strategyIssued`. -/
structure PrefetchMetrics where
  hits : Nat
  misses : Nat
  strategyHits : PrefetchStrategy → Nat
  prefetchesIssued : Nat
  prefetchesNeverConsumed : Nat
  tokensSaved : Nat
  bytesSaved : Nat
  latencySavedMs : Nat
  strategyIssued : PrefetchStrategy → Nat

/-- A counter for each strategy, summed. -/
def summed (counters : PrefetchStrategy → Nat) : Nat := (PrefetchStrategy.all.map counters).sum

def bump (counters : PrefetchStrategy → Nat) (strategy : PrefetchStrategy) :
    PrefetchStrategy → Nat :=
  fun s => if s = strategy then counters s + 1 else counters s

theorem summed_bump (counters : PrefetchStrategy → Nat) (strategy : PrefetchStrategy) :
    summed (bump counters strategy) = summed counters + 1 := by
  cases strategy <;> simp [summed, bump, PrefetchStrategy.all] <;> omega

structure PriorityCacheEntry (P C : Type) where
  entry : CacheEntry
  priority : P
  insertTurn : Nat
  accessCount : Nat
  confidence : C

/-- What the cache and the engine call: `compute_priority` for the weights in use, its comparison,
the confidence 1.0, the order in which the table is read, and `count_tokens`. -/
structure Ranking (P C : Type) where
  computePriority : Nat → C → PrefetchStrategy → Nat → Nat → P
  greater : P → P → Bool
  certain : C
  order : HashOrder String (PriorityCacheEntry P C)
  countTokens : String → Nat

structure PriorityCache (P C : Type) where
  entries : Rows String (PriorityCacheEntry P C)
  capacity : Nat
  metrics : PrefetchMetrics
  currentTurn : Nat

/-! ## The cache -/

namespace PriorityCache

variable {P C : Type} (r : Ranking P C)

def new (capacity : Nat) : PriorityCache P C where
  entries := ∅
  capacity := capacity
  metrics := ⟨0, 0, fun _ => 0, 0, 0, 0, 0, 0, fun _ => 0⟩
  currentTurn := 0

variable (c : PriorityCache P C)

def advanceTurn : PriorityCache P C := { c with currentTurn := c.currentTurn + 1 }

def len : Nat := c.entries.keys.length

/-- The key that `get` reads. -/
def actualKey (key : String) : String :=
  if key ∈ c.entries then key
  else
    let structured := DeliveryIdentity.fromStorageKey key "section_full"
    if structured.storageKey = key then
      if structured.corpusId = primaryCorpusId then structured.contentId else key
    else (DeliveryIdentity.primary key "section_full").storageKey

def recordHit (m : PrefetchMetrics) (entry : CacheEntry) : PrefetchMetrics :=
  { m with
    hits := m.hits + 1
    tokensSaved := m.tokensSaved + entry.tokenCount
    bytesSaved := m.bytesSaved + entry.text.utf8ByteSize
    latencySavedMs := m.latencySavedMs + 50
    strategyHits := bump m.strategyHits entry.strategy }

def get (key : String) : PriorityCache P C × Option CacheEntry :=
  let actual := c.actualKey key
  match c.entries.lookup actual with
  | some e =>
      let accessCount := e.accessCount + 1
      let priority :=
        r.computePriority c.currentTurn e.confidence e.entry.strategy e.insertTurn accessCount
      ({ c with
          entries := c.entries.insert actual { e with accessCount, priority }
          metrics := recordHit c.metrics e.entry }, some e.entry)
  | none => ({ c with metrics := { c.metrics with misses := c.metrics.misses + 1 } }, none)

def peek (key : String) : Option CacheEntry :=
  ((c.entries.lookup key).orElse fun _ =>
    c.entries.lookup (DeliveryIdentity.primary key "section_full").storageKey).map
      PriorityCacheEntry.entry

def remove (key : String) : PriorityCache P C × Option CacheEntry :=
  let actual :=
    if key ∈ c.entries then key else (DeliveryIdentity.primary key "section_full").storageKey
  match c.entries.lookup actual with
  | none => (c, none)
  | some e =>
      ({ c with
          entries := c.entries.erase actual
          metrics :=
            { c.metrics with
              prefetchesNeverConsumed :=
                c.metrics.prefetchesNeverConsumed + if e.accessCount = 0 then 1 else 0 } },
        some e.entry)

/-- The priority as of now. -/
def priorityNow (e : PriorityCacheEntry P C) : P :=
  r.computePriority c.currentTurn e.confidence e.entry.strategy e.insertTurn e.accessCount

def lowestPriorityKey : Option String :=
  (scanBest (fun a b => r.greater (c.priorityNow r b.2) (c.priorityNow r a.2))
    (r.order.read c.entries)).map Sigma.fst

def evictLowest : PriorityCache P C :=
  match c.lowestPriorityKey r with
  | some key => (c.remove key).1
  | none => c

/-- An insert under a key that is not there yet. -/
def issue (key : String) (entry : CacheEntry) (confidence : C) : PriorityCache P C :=
  { c with
    entries := c.entries.insert key
      { entry := entry
        priority := r.computePriority c.currentTurn confidence entry.strategy c.currentTurn 0
        insertTurn := c.currentTurn
        accessCount := 0
        confidence := confidence }
    metrics :=
      { c.metrics with
        prefetchesIssued := c.metrics.prefetchesIssued + 1
        strategyIssued := bump c.metrics.strategyIssued entry.strategy } }

def insert (key : String) (entry : CacheEntry) (confidence : C) : PriorityCache P C :=
  if c.capacity = 0 then c
  else
    match c.entries.lookup key with
    | some existing =>
        let priority := r.computePriority c.currentTurn confidence entry.strategy
          existing.insertTurn existing.accessCount
        { c with
          entries := c.entries.insert key { existing with entry, confidence, priority } }
    | none =>
        let c := if c.capacity ≤ c.len then c.evictLowest r else c
        c.issue r key entry confidence

def insertDefault (key : String) (entry : CacheEntry) : PriorityCache P C :=
  c.insert r key entry r.certain

def clear : PriorityCache P C :=
  { c with
    entries := ∅
    metrics :=
      { c.metrics with
        prefetchesNeverConsumed := c.metrics.prefetchesNeverConsumed +
          c.entries.total fun e => if e.accessCount = 0 then 1 else 0 } }

end PriorityCache

/-! ## The engine -/

/-- A section as it is stored, as far as it is read here. -/
structure SectionRecord where
  id : String
  headingPath : List String
  text : String
  summary : Option String
  deriving DecidableEq, Repr

structure SectionDetail where
  sectionId : String
  headingPath : List String
  text : String
  summary : Option String
  claimsAvailable : Nat
  deriving DecidableEq, Repr

/-- A definition; `other` are the fields that are handed on unread. -/
structure SymbolDefinition (D : Type) where
  id : String
  docComment : Option String
  headingPath : List String
  sourceContext : String
  other : D
  deriving DecidableEq, Repr

structure PrefetchEngine (P C D : Type) where
  cache : PriorityCache P C
  definitionCache : Rows String (SymbolDefinition D)

def sectionIdentity (corpusId sectionId : String) : DeliveryIdentity :=
  ⟨corpusId, sectionId, "section_full"⟩

def definitionIdentity (corpusId symbolId : String) : DeliveryIdentity :=
  ⟨corpusId, symbolId, "symbol_definition_default"⟩

namespace PrefetchEngine

variable {P C D : Type} (r : Ranking P C)

def new (cacheCapacity : Nat) : PrefetchEngine P C D := ⟨.new cacheCapacity, ∅⟩

variable (s : PrefetchEngine P C D)

def tryServeIdentity (identity : DeliveryIdentity) : PrefetchEngine P C D × Option CacheEntry :=
  let (cache, entry) := s.cache.get r identity.storageKey
  ({ s with cache }, entry)

def tryServeDefinition (corpusId symbolId : String) :
    PrefetchEngine P C D × Option (SymbolDefinition D) :=
  let key := (definitionIdentity corpusId symbolId).storageKey
  let (cache, entry) := s.cache.get r key
  ({ s with cache }, entry.bind fun _ => s.definitionCache.lookup key)

/-- What is cached of a definition. -/
def definitionEntry (definition : SymbolDefinition D) (strategy : PrefetchStrategy) : CacheEntry where
  contentId := definition.id
  text := definition.sourceContext
  tokenCount := r.countTokens definition.sourceContext
  headingPath := some definition.headingPath
  summary := definition.docComment
  resolution := .symbolFull
  claimsAvailable := 0
  strategy := strategy

def prefetchDefinition (corpusId : String) (definition : SymbolDefinition D)
    (strategy : PrefetchStrategy) : PrefetchEngine P C D :=
  let key := (definitionIdentity corpusId definition.id).storageKey
  if (s.cache.peek key).isSome then s
  else
    let cache := s.cache.insertDefault r key (definitionEntry r definition strategy)
    { cache
      definitionCache := Rows.deleteWhere (s.definitionCache.insert key definition) fun key _ =>
        (cache.peek key).isNone }

def detailEntry (detail : SectionDetail) (strategy : PrefetchStrategy) : CacheEntry where
  contentId := detail.sectionId
  text := detail.text
  tokenCount := r.countTokens detail.text
  headingPath := some detail.headingPath
  summary := detail.summary
  resolution := .section_
  claimsAvailable := detail.claimsAvailable
  strategy := strategy

def prefetchSectionDetail (corpusId : String) (detail : SectionDetail)
    (strategy : PrefetchStrategy) : PrefetchEngine P C D :=
  let key := (sectionIdentity corpusId detail.sectionId).storageKey
  if (s.cache.peek key).isSome then s
  else { s with cache := s.cache.insertDefault r key (detailEntry r detail strategy) }

def sectionEntry (strategy : PrefetchStrategy) (claimsCounts : Rows String Nat)
    (record : SectionRecord) : CacheEntry where
  contentId := record.id
  text := record.text
  tokenCount := r.countTokens record.text
  headingPath := some record.headingPath
  summary := record.summary
  resolution := .section_
  claimsAvailable := (claimsCounts.lookup record.id).getD 0
  strategy := strategy

/-- The loop of `prefetch_sections_for`. -/
def prefetchSections (corpusId : String) (strategy : PrefetchStrategy)
    (claimsCounts : Rows String Nat) (limit : Nat) :
    List SectionRecord → Nat → PriorityCache P C → PriorityCache P C
  | [], _, cache => cache
  | record :: rest, inserted, cache =>
      if limit ≤ inserted then cache
      else
        let key := (sectionIdentity corpusId record.id).storageKey
        if (cache.peek key).isSome || (cache.peek record.id).isSome then
          prefetchSections corpusId strategy claimsCounts limit rest inserted cache
        else
          prefetchSections corpusId strategy claimsCounts limit rest (inserted + 1)
            (cache.insertDefault r key (sectionEntry r strategy claimsCounts record))

def prefetchSectionsFor (corpusId : String) (strategy : PrefetchStrategy)
    (sections : List SectionRecord) (claimsCounts : Rows String Nat) (limit : Nat) :
    PrefetchEngine P C D :=
  { s with cache := prefetchSections r corpusId strategy claimsCounts limit sections 0 s.cache }

def invalidateIdentities (stale : List DeliveryIdentity) : PrefetchEngine P C D :=
  { s with cache := stale.foldl (fun cache i => (cache.remove i.storageKey).1) s.cache }

def clearCache : PrefetchEngine P C D := { s with cache := s.cache.clear }

def advanceTurn : PrefetchEngine P C D := { s with cache := s.cache.advanceTurn }

end PrefetchEngine

inductive EngineOp (D : Type) where
  | prefetchSectionsFor (corpusId : String) (strategy : PrefetchStrategy)
      (sections : List SectionRecord) (claimsCounts : Rows String Nat) (limit : Nat)
  | prefetchSectionDetail (corpusId : String) (detail : SectionDetail)
      (strategy : PrefetchStrategy)
  | prefetchDefinition (corpusId : String) (definition : SymbolDefinition D)
      (strategy : PrefetchStrategy)
  | tryServeIdentity (identity : DeliveryIdentity)
  | tryServeDefinition (corpusId symbolId : String)
  | invalidateIdentities (stale : List DeliveryIdentity)
  | clearCache
  | advanceTurn

section Runs

variable {P C D : Type} (r : Ranking P C)

def PrefetchEngine.apply (s : PrefetchEngine P C D) : EngineOp D → PrefetchEngine P C D
  | .prefetchSectionsFor corpusId strategy sections claimsCounts limit =>
      s.prefetchSectionsFor r corpusId strategy sections claimsCounts limit
  | .prefetchSectionDetail corpusId detail strategy =>
      s.prefetchSectionDetail r corpusId detail strategy
  | .prefetchDefinition corpusId definition strategy =>
      s.prefetchDefinition r corpusId definition strategy
  | .tryServeIdentity identity => (s.tryServeIdentity r identity).1
  | .tryServeDefinition corpusId symbolId => (s.tryServeDefinition r corpusId symbolId).1
  | .invalidateIdentities stale => s.invalidateIdentities stale
  | .clearCache => s.clearCache
  | .advanceTurn => s.advanceTurn

def run (capacity : Nat) (ops : List (EngineOp D)) : PrefetchEngine P C D :=
  ops.foldl (PrefetchEngine.apply r) (.new capacity)

/-! ## What was warmed -/

/-- The entries an operation is to warm, each for its identity. -/
def EngineOp.offered : EngineOp D → List (DeliveryIdentity × CacheEntry)
  | .prefetchSectionsFor corpusId strategy sections claimsCounts _ =>
      sections.map fun record => (sectionIdentity corpusId record.id,
        PrefetchEngine.sectionEntry r strategy claimsCounts record)
  | .prefetchSectionDetail corpusId detail strategy =>
      [(sectionIdentity corpusId detail.sectionId, PrefetchEngine.detailEntry r detail strategy)]
  | .prefetchDefinition corpusId definition strategy =>
      [(definitionIdentity corpusId definition.id,
        PrefetchEngine.definitionEntry r definition strategy)]
  | _ => []

def EngineOp.Invalidates (identity : DeliveryIdentity) : EngineOp D → Prop
  | .invalidateIdentities stale => identity ∈ stale
  | .clearCache => True
  | _ => False

/-- What is cached for an identity. -/
def PriorityCache.held (c : PriorityCache P C) (identity : DeliveryIdentity) : Option CacheEntry :=
  (c.entries.lookup identity.storageKey).map PriorityCacheEntry.entry

/-- The entry was warmed for the identity, which was not invalidated since. -/
def WarmedSince (capacity : Nat) (ops : List (EngineOp D)) (identity : DeliveryIdentity)
    (entry : CacheEntry) : Prop :=
  ∃ front op back, ops = front ++ op :: back ∧ (identity, entry) ∈ op.offered r ∧
    (run r capacity (front ++ [op])).cache.held identity = some entry ∧
    ∀ later ∈ back, ¬ later.Invalidates identity

/-- The definition an operation warms: one that is not warm already. -/
def warming (s : PrefetchEngine P C D) : EngineOp D → Option (DeliveryIdentity × SymbolDefinition D)
  | .prefetchDefinition corpusId definition _ =>
      let identity := definitionIdentity corpusId definition.id
      if (s.cache.peek identity.storageKey).isSome then none else some (identity, definition)
  | _ => none

/-- The definition most recently warmed for an identity. -/
def lastDefinition (identity : DeliveryIdentity) :
    PrefetchEngine P C D → List (EngineOp D) → Option (SymbolDefinition D)
  | _, [] => none
  | s, op :: rest =>
      (lastDefinition identity (s.apply r op) rest).or
        ((warming s op).bind fun w => if w.1 = identity then some w.2 else none)

/-- The lookup is misled: nothing is cached for the identity, and its content id is a key. -/
def Misled (c : PriorityCache P C) (identity : DeliveryIdentity) : Prop :=
  identity.storageKey ∉ c.entries ∧ identity.corpusId = primaryCorpusId ∧
    identity.contentId ∈ c.entries

end Runs

/-! ## The cache stays sound -/

section Sound

variable {P C : Type} {r : Ranking P C}

/-- The cache is within its bounds, its counters add up, and every entry was warmed for the identity
whose key it stands under. -/
structure Sound (capacity : Nat) (warmed : DeliveryIdentity → CacheEntry → Prop)
    (c : PriorityCache P C) : Prop where
  fixed : c.capacity = capacity
  bounded : c.len ≤ capacity
  hits : c.metrics.hits = summed c.metrics.strategyHits
  issued : c.metrics.prefetchesIssued = summed c.metrics.strategyIssued
  accounted : c.metrics.prefetchesNeverConsumed + c.len ≤ c.metrics.prefetchesIssued
  warmed : ∀ key e, c.entries.lookup key = some e → ∃ i, i.storageKey = key ∧ warmed i e.entry

variable {capacity : Nat} {warmed warmed' : DeliveryIdentity → CacheEntry → Prop}
  {c : PriorityCache P C}

theorem sound_new (capacity : Nat) :
    Sound capacity warmed (.new capacity : PriorityCache P C) where
  fixed := rfl
  bounded := Nat.zero_le _
  hits := rfl
  issued := rfl
  accounted := Nat.le_refl _
  warmed := fun key e found => by cases found

/-- Only what is said of the entries that are there matters. -/
theorem Sound.mono (sound : Sound capacity warmed c)
    (still : ∀ i e, c.held i = some e → warmed i e → warmed' i e) :
    Sound capacity warmed' c where
  fixed := sound.fixed
  bounded := sound.bounded
  hits := sound.hits
  issued := sound.issued
  accounted := sound.accounted
  warmed := by
    intro key e found
    obtain ⟨i, rfl, was⟩ := sound.warmed key e found
    refine ⟨i, rfl, still i e.entry ?_ was⟩
    rw [PriorityCache.held, found, Option.map_some]

theorem len_eq_total (c : PriorityCache P C) : c.len = c.entries.total fun _ => 1 := by
  simp [PriorityCache.len, Rows.total, AList.keys, List.keys]

theorem total_unread_le (entries : Rows String (PriorityCacheEntry P C)) :
    (entries.total fun e => if e.accessCount = 0 then 1 else 0) ≤ entries.total fun _ => 1 := by
  unfold Rows.total
  induction entries.entries with
  | nil => exact Nat.le_refl _
  | cons e rest ih =>
      simp only [List.map_cons, List.sum_cons] at ih ⊢
      split <;> omega

theorem Sound.get (sound : Sound capacity warmed c) (key : String) :
    Sound capacity warmed (c.get r key).1 := by
  unfold PriorityCache.get
  dsimp only
  split
  · rename_i e found
    obtain ⟨i, named, was⟩ := sound.warmed _ e found
    have size := Rows.total_insert c.entries (fun _ => 1) (c.actualKey key)
      { e with
        accessCount := e.accessCount + 1
        priority := r.computePriority c.currentTurn e.confidence e.entry.strategy e.insertTurn
          (e.accessCount + 1) }
    rw [found, Option.elim_some] at size
    have bounded := sound.bounded
    have accounted := sound.accounted
    rw [len_eq_total] at bounded accounted
    refine ⟨sound.fixed, ?_, ?_, sound.issued, ?_, fun key' e' found' => ?_⟩
    · rw [len_eq_total]
      dsimp only
      omega
    · simp only [PriorityCache.recordHit, summed_bump, sound.hits]
    · rw [len_eq_total]
      simp only [PriorityCache.recordHit]
      omega
    · simp only [Rows.lookup_insert_if] at found'
      split at found'
      · rename_i here
        obtain rfl := Option.some.inj found'
        exact ⟨i, named.trans here.symm, was⟩
      · exact sound.warmed key' e' found'
  · exact { sound with }

/-- What a removal leaves. -/
structure Removed (capacity : Nat) (warmed : DeliveryIdentity → CacheEntry → Prop) (key : String)
    (c d : PriorityCache P C) : Prop where
  sound : Sound capacity warmed d
  gone : key ∉ d.entries
  left : ∀ k e, d.entries.lookup k = some e → c.entries.lookup k = some e
  len : key ∈ c.entries → d.len + 1 = c.len

theorem Sound.remove (sound : Sound capacity warmed c) (key : String) :
    Removed capacity warmed key c (c.remove key).1 := by
  unfold PriorityCache.remove
  dsimp only
  split
  · rename_i absent
    have notThere : key ∉ c.entries := by
      intro there
      rw [if_pos there] at absent
      obtain ⟨e, found⟩ := (Rows.mem_iff_lookup _ _).mp there
      rw [found] at absent
      cases absent
    exact ⟨sound, notThere, fun _ _ found => found, fun there => absurd there notThere⟩
  · rename_i e found
    generalize actualIs : (if key ∈ c.entries then key
      else (DeliveryIdentity.primary key "section_full").storageKey) = actual at found ⊢
    have size := Rows.total_erase c.entries (fun _ => 1) actual
    rw [found, Option.elim_some] at size
    have bounded := sound.bounded
    have accounted := sound.accounted
    rw [len_eq_total] at bounded accounted
    have left : ∀ k e, (c.entries.erase actual).lookup k = some e → c.entries.lookup k = some e := by
      intro k e found
      rw [Rows.lookup_erase_if] at found
      split at found
      · cases found
      · exact found
    refine ⟨⟨sound.fixed, ?_, sound.hits, sound.issued, ?_,
      fun k e found => sound.warmed k e (left k e found)⟩, ?_, left, fun _ => ?_⟩
    · rw [len_eq_total]
      dsimp only
      omega
    · rw [len_eq_total]
      dsimp only
      split <;> omega
    · intro there
      obtain ⟨e, found⟩ := (Rows.mem_iff_lookup _ _).mp there
      have before := (Rows.mem_iff_lookup _ _).mpr ⟨e, left key e found⟩
      rw [if_pos before] at actualIs
      rw [Rows.lookup_erase_if, if_pos actualIs] at found
      cases found
    · rw [len_eq_total, len_eq_total]
      exact size

theorem lowestPriorityKey_mem {key : String} (lowest : c.lowestPriorityKey r = some key) :
    key ∈ c.entries := by
  obtain ⟨e, best, rfl⟩ := Option.map_eq_some_iff.mp lowest
  have listed := (r.order.perm c.entries).mem_iff.mp (scanBest_mem best)
  exact (Rows.mem_iff_lookup _ _).mpr ⟨e.2, (Rows.mem_entries_iff _ _ _).mp listed⟩

theorem len_of_lowestPriorityKey (lowest : c.lowestPriorityKey r = none) : c.len = 0 := by
  have none := scanBest_eq_none.mp (Option.map_eq_none_iff.mp lowest)
  have empty := (r.order.perm c.entries).length_eq
  rw [none] at empty
  simpa [PriorityCache.len, AList.keys, List.keys] using empty.symm

/-- An eviction makes room for one, and removes nothing it need not. -/
theorem Sound.evictLowest (sound : Sound capacity warmed c) (held : capacity ≠ 0) :
    Sound capacity warmed (c.evictLowest r) ∧ (c.evictLowest r).len < capacity ∧
      ∀ k e, (c.evictLowest r).entries.lookup k = some e → c.entries.lookup k = some e := by
  have bounded := sound.bounded
  unfold PriorityCache.evictLowest
  cases lowest : c.lowestPriorityKey r with
  | none =>
      have empty := len_of_lowestPriorityKey lowest
      dsimp only
      exact ⟨sound, by omega, fun _ _ found => found⟩
  | some key =>
      have removed := sound.remove key
      have smaller := removed.len (lowestPriorityKey_mem lowest)
      dsimp only
      exact ⟨removed.sound, by omega, removed.left⟩

theorem Sound.issue (sound : Sound capacity warmed c) (room : c.len < capacity) {i : DeliveryIdentity}
    (fresh : c.entries.lookup i.storageKey = none) {entry : CacheEntry} (was : warmed i entry)
    (confidence : C) : Sound capacity warmed (c.issue r i.storageKey entry confidence) := by
  have size := Rows.total_insert c.entries (fun _ => 1) i.storageKey
    { entry := entry
      priority := r.computePriority c.currentTurn confidence entry.strategy c.currentTurn 0
      insertTurn := c.currentTurn
      accessCount := 0
      confidence := confidence }
  rw [fresh, Option.elim_none] at size
  have accounted := sound.accounted
  rw [len_eq_total] at room accounted
  unfold PriorityCache.issue
  refine ⟨sound.fixed, ?_, sound.hits, ?_, ?_, fun key e found => ?_⟩
  · rw [len_eq_total]
    dsimp only
    omega
  · simp only [summed_bump, sound.issued]
  · rw [len_eq_total]
    dsimp only
    omega
  · simp only [Rows.lookup_insert_if] at found
    split at found
    · rename_i here
      obtain rfl := Option.some.inj found
      exact ⟨i, here.symm, was⟩
    · exact sound.warmed key e found

theorem Sound.insert (sound : Sound capacity warmed c) {i : DeliveryIdentity}
    (fresh : c.entries.lookup i.storageKey = none) {entry : CacheEntry} (was : warmed i entry)
    (confidence : C) : Sound capacity warmed (c.insert r i.storageKey entry confidence) := by
  unfold PriorityCache.insert
  split
  · exact sound
  · rename_i held
    rw [fresh]
    dsimp only
    split
    · obtain ⟨evicted, room, left⟩ := sound.evictLowest (r := r) (sound.fixed ▸ held)
      refine evicted.issue room ?_ was confidence
      cases found : (c.evictLowest r).entries.lookup i.storageKey with
      | none => rfl
      | some e =>
          rw [left _ e found] at fresh
          cases fresh
    · rename_i room
      rw [sound.fixed, Nat.not_le] at room
      exact sound.issue room fresh was confidence

theorem Sound.clear (sound : Sound capacity warmed c) : Sound capacity warmed' c.clear := by
  have accounted := sound.accounted
  have unread := total_unread_le c.entries
  rw [len_eq_total] at accounted
  refine ⟨sound.fixed, Nat.zero_le _, sound.hits, sound.issued, ?_,
    fun key e found => by cases found⟩
  rw [len_eq_total]
  simp only [PriorityCache.clear, Rows.total_empty]
  omega

theorem Sound.removeAll (sound : Sound capacity warmed c) (stale : List DeliveryIdentity) :
    Sound capacity warmed (stale.foldl (fun cache i => (cache.remove i.storageKey).1) c) ∧
      (∀ i ∈ stale, i.storageKey ∉
        (stale.foldl (fun cache i => (cache.remove i.storageKey).1) c).entries) ∧
      ∀ k e, (stale.foldl (fun cache i => (cache.remove i.storageKey).1) c).entries.lookup k =
        some e → c.entries.lookup k = some e := by
  induction stale generalizing c with
  | nil => exact ⟨sound, (fun i mem => by cases mem), fun _ _ found => found⟩
  | cons i stale ih =>
      have removed := sound.remove i.storageKey
      obtain ⟨after, gone, left⟩ := ih removed.sound
      refine ⟨after, fun j mem there => ?_, fun k e found => removed.left k e (left k e found)⟩
      rcases List.mem_cons.mp mem with rfl | later
      · obtain ⟨e, found⟩ := (Rows.mem_iff_lookup _ _).mp there
        exact removed.gone ((Rows.mem_iff_lookup _ _).mpr ⟨e, left _ e found⟩)
      · exact gone j later there

theorem lookup_of_peek {key : String} (cold : (c.peek key).isSome = false) :
    c.entries.lookup key = none := by
  cases found : c.entries.lookup key with
  | none => rfl
  | some e => simp [PriorityCache.peek, found] at cold

theorem Sound.prefetchSections (sound : Sound capacity warmed c) (corpusId : String)
    (strategy : PrefetchStrategy) (claimsCounts : Rows String Nat) (limit : Nat)
    {sections : List SectionRecord} (was : ∀ record ∈ sections,
      warmed (sectionIdentity corpusId record.id)
        (PrefetchEngine.sectionEntry r strategy claimsCounts record)) (inserted : Nat) :
    Sound capacity warmed (PrefetchEngine.prefetchSections r corpusId strategy claimsCounts limit sections
      inserted c) := by
  induction sections generalizing c inserted with
  | nil => exact sound
  | cons record rest ih =>
      have later := fun record mem => was record (List.mem_cons_of_mem _ mem)
      unfold PrefetchEngine.prefetchSections
      split
      · exact sound
      · dsimp only
        split
        · exact ih sound later inserted
        · rename_i cold
          simp only [Bool.or_eq_true, not_or, Bool.not_eq_true] at cold
          refine ih (sound.insert ?_ (was record List.mem_cons_self) _) later _
          exact lookup_of_peek cold.1

end Sound

/-! ## Along a run -/

section Along

variable {P C D : Type} (r : Ranking P C) {capacity : Nat}
  {warmed : DeliveryIdentity → CacheEntry → Prop} {ops : List (EngineOp D)} {op : EngineOp D}

theorem run_concat (capacity : Nat) (ops : List (EngineOp D)) (op : EngineOp D) :
    run r capacity (ops ++ [op]) = (run r capacity ops).apply r op := by
  rw [run, List.foldl_append]
  rfl

theorem WarmedSince.concat {i : DeliveryIdentity} {e : CacheEntry}
    (was : WarmedSince r capacity ops i e) (kept : ¬ op.Invalidates i) :
    WarmedSince r capacity (ops ++ [op]) i e := by
  obtain ⟨front, first, back, rfl, offered, held, since⟩ := was
  refine ⟨front, first, back ++ [op], by simp, offered, held, fun later mem => ?_⟩
  rcases List.mem_append.mp mem with before | here
  · exact since later before
  · exact List.mem_singleton.mp here ▸ kept

/-- What an operation leaves in the cache was there before, and it left it there, or it is what the
operation was to warm. -/
theorem Sound.apply {s : PrefetchEngine P C D} (sound : Sound capacity warmed s.cache)
    (op : EngineOp D) : Sound capacity
      (fun i e => warmed i e ∧ ¬ op.Invalidates i ∨ (i, e) ∈ op.offered r) (s.apply r op).cache := by
  have kept : (∀ i, ¬ op.Invalidates i) → Sound capacity
      (fun i e => warmed i e ∧ ¬ op.Invalidates i ∨ (i, e) ∈ op.offered r) s.cache :=
    fun never => sound.mono fun i e _ was => .inl ⟨was, never i⟩
  cases op with
  | prefetchSectionsFor corpusId strategy sections claimsCounts limit =>
      refine (kept fun i => id).prefetchSections corpusId strategy claimsCounts limit ?_ 0
      exact fun record mem => .inr (List.mem_map_of_mem mem)
  | prefetchSectionDetail corpusId detail strategy =>
      simp only [PrefetchEngine.apply, PrefetchEngine.prefetchSectionDetail]
      split
      · exact kept fun i => id
      · rename_i cold
        refine (kept fun i => id).insert (lookup_of_peek (by simpa using cold)) ?_ _
        exact .inr List.mem_cons_self
  | prefetchDefinition corpusId definition strategy =>
      simp only [PrefetchEngine.apply, PrefetchEngine.prefetchDefinition]
      split
      · exact kept fun i => id
      · rename_i cold
        refine (kept fun i => id).insert (lookup_of_peek (by simpa using cold)) ?_ _
        exact .inr List.mem_cons_self
  | tryServeIdentity identity => exact (kept fun i => id).get _
  | tryServeDefinition corpusId symbolId => exact (kept fun i => id).get _
  | invalidateIdentities stale =>
      obtain ⟨after, gone, -⟩ := sound.removeAll stale
      refine after.mono fun i e held was => .inl ⟨was, fun invalid => ?_⟩
      obtain ⟨stored, found, -⟩ := Option.map_eq_some_iff.mp held
      exact gone i invalid ((Rows.mem_iff_lookup _ _).mpr ⟨stored, found⟩)
  | clearCache => exact sound.clear
  | advanceTurn => exact { kept fun i => id with }

/-- **The cache is sound after every run.** -/
theorem sound_run (capacity : Nat) (ops : List (EngineOp D)) :
    Sound capacity (WarmedSince r capacity ops) (run r capacity ops).cache := by
  induction ops using List.reverseRecOn with
  | nil => exact sound_new capacity
  | append_singleton ops op ih =>
      have after := ih.apply (r := r) op
      rw [← run_concat] at after
      refine after.mono fun i e held was => ?_
      rcases was with ⟨before, kept⟩ | offered
      · exact before.concat r kept
      · exact ⟨ops, op, [], rfl, offered, held, fun later mem => by cases mem⟩

theorem lastDefinition_concat (i : DeliveryIdentity) (s : PrefetchEngine P C D)
    (ops : List (EngineOp D)) (op : EngineOp D) : lastDefinition r i s (ops ++ [op]) =
      ((warming (ops.foldl (PrefetchEngine.apply r) s) op).bind fun w =>
        if w.1 = i then some w.2 else none).or (lastDefinition r i s ops) := by
  induction ops generalizing s with
  | nil => simp [lastDefinition]
  | cons first ops ih =>
      rw [List.cons_append, lastDefinition, ih, lastDefinition, List.foldl_cons, Option.or_assoc]

/-- A definition in the second map is the last that was warmed. -/
theorem recalls_run (capacity : Nat) (ops : List (EngineOp D)) {key : String}
    {d : SymbolDefinition D} (found : (run r capacity ops).definitionCache.lookup key = some d) :
    ∃ i, i.storageKey = key ∧ lastDefinition r i (.new capacity) ops = some d := by
  induction ops using List.reverseRecOn generalizing key d with
  | nil => cases found
  | append_singleton ops op ih =>
      rw [run_concat] at found
      have before : (run r capacity ops).definitionCache.lookup key = some d →
          warming (run r capacity ops) op = none →
          ∃ i, i.storageKey = key ∧ lastDefinition r i (.new capacity) (ops ++ [op]) = some d := by
        intro was nothing
        obtain ⟨i, named, last⟩ := ih was
        refine ⟨i, named, ?_⟩
        rw [lastDefinition_concat]
        show ((warming (run r capacity ops) op).bind _).or _ = _
        rw [nothing, Option.bind_none, Option.none_or, last]
      cases op with
      | prefetchDefinition corpusId definition strategy =>
          simp only [PrefetchEngine.apply, PrefetchEngine.prefetchDefinition] at found
          split at found
          · rename_i warm
            exact before found (if_pos warm)
          · rename_i cold
            have warms : warming (run r capacity ops)
                (.prefetchDefinition corpusId definition strategy) =
                some (definitionIdentity corpusId definition.id, definition) := if_neg cold
            have inserted : ((run r capacity ops).definitionCache.insert
                (definitionIdentity corpusId definition.id).storageKey definition).lookup key =
                some d := by
              rw [Rows.lookup_deleteWhere] at found
              exact (Option.filter_eq_some_iff.mp found).1
            rw [Rows.lookup_insert_if] at inserted
            split at inserted
            · rename_i here
              obtain rfl := Option.some.inj inserted
              refine ⟨_, here.symm, ?_⟩
              rw [lastDefinition_concat]
              show ((warming (run r capacity ops) _).bind _).or _ = _
              rw [warms, Option.bind_some, if_pos rfl, Option.some_or]
            · rename_i other
              obtain ⟨i, named, last⟩ := ih inserted
              refine ⟨i, named, ?_⟩
              rw [lastDefinition_concat]
              show ((warming (run r capacity ops) _).bind _).or _ = _
              have apart : definitionIdentity corpusId definition.id ≠ i := by
                rintro rfl
                exact other named.symm
              rw [warms, Option.bind_some, if_neg apart, Option.none_or, last]
      | prefetchSectionDetail corpusId detail strategy =>
          simp only [PrefetchEngine.apply, PrefetchEngine.prefetchSectionDetail] at found
          split at found <;> exact before found rfl
      | _ => exact before found rfl

/-! ## What is served -/

theorem answer_get (c : PriorityCache P C) (key : String) :
    (c.get r key).2 = (c.entries.lookup (c.actualKey key)).map PriorityCacheEntry.entry := by
  unfold PriorityCache.get
  dsimp only
  split
  · rename_i e found
    rw [found, Option.map_some]
  · rename_i absent
    rw [absent, Option.map_none]

theorem actualKey_storageKey (c : PriorityCache P C) (i : DeliveryIdentity) :
    c.actualKey i.storageKey =
      if i.storageKey ∈ c.entries then i.storageKey
      else if i.corpusId = primaryCorpusId then i.contentId else i.storageKey := by
  simp only [PriorityCache.actualKey, DeliveryIdentity.fromStorageKey_storageKey, if_true]

theorem served_eq (s : PrefetchEngine P C D) (i : DeliveryIdentity) :
    (s.tryServeIdentity r i).2 =
      (s.cache.entries.lookup (if i.storageKey ∈ s.cache.entries then i.storageKey
        else if i.corpusId = primaryCorpusId then i.contentId else i.storageKey)).map
        PriorityCacheEntry.entry := by
  rw [← actualKey_storageKey]
  exact answer_get r s.cache i.storageKey

theorem WarmedSince.contentId {i : DeliveryIdentity} {e : CacheEntry}
    (was : WarmedSince r capacity ops i e) : e.contentId = i.contentId := by
  obtain ⟨-, op, -, -, offered, -, -⟩ := was
  cases op with
  | prefetchSectionsFor corpusId strategy sections claimsCounts limit =>
      obtain ⟨record, -, same⟩ := List.mem_map.mp offered
      obtain ⟨rfl, rfl⟩ := Prod.mk.inj same
      rfl
  | prefetchSectionDetail corpusId detail strategy =>
      obtain ⟨rfl, rfl⟩ := Prod.mk.inj (List.mem_singleton.mp offered)
      rfl
  | prefetchDefinition corpusId definition strategy =>
      obtain ⟨rfl, rfl⟩ := Prod.mk.inj (List.mem_singleton.mp offered)
      rfl
  | _ => cases offered

theorem contentId_ne_storageKey (i : DeliveryIdentity) : i.contentId ≠ i.storageKey := by
  intro same
  have length := congrArg (fun s : String => s.toList.length) same
  have quotes := length_le_quoted i.contentId.toList
  have label : 0 < DeliveryIdentity.corpusLabel.length := by decide
  simp only [DeliveryIdentity.storageKey, String.toList_ofList, List.length_append] at length
  omega

/-- **What is served for an identity was warmed for it exactly when the lookup is not misled**; the
cache stays within its capacity, its counters add up, and a definition that is served is the one
that was last warmed. -/
theorem warmCache_iff (capacity : Nat) (ops : List (EngineOp D)) :
    let s := run r capacity ops
    let m := s.cache.metrics
    (s.cache.len ≤ capacity ∧ m.hits = summed m.strategyHits ∧
      m.prefetchesIssued = summed m.strategyIssued ∧
      m.prefetchesNeverConsumed + s.cache.len ≤ m.prefetchesIssued) ∧
    (∀ corpusId symbolId d, (s.tryServeDefinition r corpusId symbolId).2 = some d →
      lastDefinition r (definitionIdentity corpusId symbolId) (.new capacity) ops = some d) ∧
    ∀ i, (∀ e, (s.tryServeIdentity r i).2 = some e → WarmedSince r capacity ops i e) ↔ ¬ Misled s.cache i := by
  intro s m
  have sound : Sound capacity (WarmedSince r capacity ops) s.cache := sound_run r capacity ops
  refine ⟨⟨sound.bounded, sound.hits, sound.issued, sound.accounted⟩, ?_, fun i => ⟨?_, ?_⟩⟩
  · intro corpusId symbolId d served
    obtain ⟨-, -, found⟩ := Option.bind_eq_some_iff.mp served
    obtain ⟨i, named, last⟩ := recalls_run r capacity ops found
    obtain rfl := DeliveryIdentity.storageKey_injective named
    exact last
  · rintro right ⟨absent, primary, key⟩
    obtain ⟨e, found⟩ := (Rows.mem_iff_lookup _ _).mp key
    obtain ⟨j, named, was⟩ := sound.warmed _ e found
    have served : (s.tryServeIdentity r i).2 = some e.entry := by
      rw [served_eq, if_neg absent, if_pos primary, found, Option.map_some]
    have own := (right e.entry served).contentId
    rw [was.contentId, ← named] at own
    exact contentId_ne_storageKey j own
  · intro straight e served
    rw [served_eq] at served
    obtain ⟨stored, found, rfl⟩ := Option.map_eq_some_iff.mp served
    have own : (if i.storageKey ∈ s.cache.entries then i.storageKey
        else if i.corpusId = primaryCorpusId then i.contentId else i.storageKey) = i.storageKey := by
      by_cases there : i.storageKey ∈ s.cache.entries
      · exact if_pos there
      · rw [if_neg there] at found ⊢
        by_cases primary : i.corpusId = primaryCorpusId
        · rw [if_pos primary] at found
          exact absurd ⟨there, primary, (Rows.mem_iff_lookup _ _).mpr ⟨stored, found⟩⟩ straight
        · exact if_neg primary
    rw [own] at found
    obtain ⟨j, named, was⟩ := sound.warmed _ stored found
    obtain rfl := DeliveryIdentity.storageKey_injective named
    exact was

end Along

/-! ## A content id that is a key -/

/-- Entries in the order they came, of one priority. -/
def plainRanking : Ranking Nat Unit where
  computePriority _ _ _ _ _ := 0
  greater _ _ := false
  certain := ()
  order := .filled
  countTokens _ := 0

/-- A section of a linked corpus is warmed. -/
def linkedWarmed : EngineOp Unit :=
  .prefetchSectionDetail "web" ⟨"a", [], "linked text", none, 0⟩ .surveyExpand

/-- A content id of the primary corpus, spelled as the key of that section. -/
def keyLike : DeliveryIdentity := sectionIdentity primaryCorpusId (sectionIdentity "web" "a").storageKey

theorem linkedText_served :
    ((run plainRanking 4 [linkedWarmed]).tryServeIdentity plainRanking keyLike).2 =
        some ⟨"a", "linked text", 0, some [], none, .section_, 0, .surveyExpand⟩ ∧
      ∀ e, ¬ WarmedSince plainRanking 4 [linkedWarmed] keyLike e := by
  have other : sectionIdentity "web" "a" ≠ keyLike := fun same =>
    absurd (congrArg DeliveryIdentity.corpusId same) (by decide)
  constructor
  · have warm : (run plainRanking 4 [linkedWarmed]).cache.entries =
        AList.insert (sectionIdentity "web" "a").storageKey
          ⟨⟨"a", "linked text", 0, some [], none, .section_, 0, .surveyExpand⟩, 0, 0, 0, ()⟩ ∅ := rfl
    have absent : keyLike.storageKey ∉ (run plainRanking 4 [linkedWarmed]).cache.entries := by
      rw [warm, AList.mem_insert, not_or]
      exact ⟨fun same => other (DeliveryIdentity.storageKey_injective same).symm, AList.notMem_empty _⟩
    have primary : keyLike.corpusId = primaryCorpusId := rfl
    have key : keyLike.contentId = (sectionIdentity "web" "a").storageKey := rfl
    rw [served_eq, if_neg absent, if_pos primary, warm, key, AList.lookup_insert, Option.map_some]
  · rintro e ⟨front, op, back, whole, offered, -, -⟩
    have only : op ∈ [linkedWarmed] := whole ▸ List.mem_append_right _ List.mem_cons_self
    rw [List.mem_singleton.mp only] at offered
    exact other (Prod.mk.inj (List.mem_singleton.mp offered)).1.symm

end Ministr.Prefetch
