/-
# Session.Types — the session shadow

A session records what an agent has been given: one item per delivery identity,
with its token cost, turn, content hash and compression tier; the recent
trajectory of accesses; which items have gone stale since; and running totals.
The items are addressed by exact identity or, by older callers, by bare content
id in the primary corpus.

`SessionOp` lists the mutators, and `Session.apply` runs one.  The clock reading
`created_at` is left out; counters are natural numbers.
-/
import Ministr.Content.Document
import Ministr.Session.Identity
import Ministr.Theory.Rows
import Mathlib.Data.List.Sort
import Mathlib.Data.String.Basic

namespace Ministr

open Ministr.Theory

set_option autoImplicit false

/-! ## Data -/

/-- `MAX_TRAJECTORY_LEN`. -/
def maxTrajectoryLen : Nat := 1000

/-- `MAX_RECENT_QUERIES`. -/
def maxRecentQueries : Nat := 10

/-- Resolution of the vector index. -/
inductive Resolution where
  | summary
  | section_
  | claim
  | symbolStub
  | symbolFull
  deriving DecidableEq, Repr

/-- `Display for Resolution`. -/
def Resolution.text : Resolution → String
  | .summary => "summary"
  | .section_ => "section"
  | .claim => "claim"
  | .symbolStub => "symbol_stub"
  | .symbolFull => "symbol_full"

theorem Resolution.text_ne_empty (r : Resolution) : r.text ≠ "" := by
  cases r <;> decide

inductive DropPolicy where
  | fifo
  | lru
  | fsrs
  deriving DecidableEq, Repr

inductive CompressionTier where
  | full
  | abstractive
  | extractive
  | bookmark
  | evicted
  deriving DecidableEq, Repr

namespace CompressionTier

/-- Position in the declaration, which is what the derived order compares. -/
def rank : CompressionTier → Nat
  | .full => 0
  | .abstractive => 1
  | .extractive => 2
  | .bookmark => 3
  | .evicted => 4

def asStr : CompressionTier → String
  | .full => "full"
  | .abstractive => "abstractive"
  | .extractive => "extractive"
  | .bookmark => "bookmark"
  | .evicted => "evicted"

/-- An unknown text is `full`. -/
def fromStrOrFull (s : String) : CompressionTier :=
  if s = "abstractive" then .abstractive
  else if s = "extractive" then .extractive
  else if s = "bookmark" then .bookmark
  else if s = "evicted" then .evicted
  else .full

theorem fromStrOrFull_asStr (t : CompressionTier) : fromStrOrFull t.asStr = t := by
  cases t <;> decide

end CompressionTier

structure SessionMetrics where
  totalDeliveries : Nat := 0
  cumulativeTokensDelivered : Nat := 0
  totalEvictions : Nat := 0
  cumulativeTokensEvicted : Nat := 0
  totalCompressions : Nat := 0
  cumulativeTokensCompressed : Nat := 0
  deltaUpdates : Nat := 0
  dedupHits : Nat := 0
  cumulativeTokensDeduplicated : Nat := 0
  cumulativeBytesDeduplicated : Nat := 0
  deriving DecidableEq, Repr

structure CoherenceAlert where
  changedSections : List String
  staleContentIds : List String
  staleIdentities : List DeliveryIdentity
  deriving DecidableEq, Repr

/-- Record of one delivery. -/
structure DeliveredItem where
  contentId : String
  resolution : Resolution
  corpusId : String
  deliveryResolution : String
  tokenCount : Nat
  turnDelivered : Nat
  contentHash : String
  compressionTier : CompressionTier
  compressedSummary : Option String
  deriving DecidableEq, Repr

/-- The item's identity; a missing delivery resolution is derived from the index
resolution. -/
def DeliveredItem.identity (item : DeliveredItem) : DeliveryIdentity where
  corpusId := item.corpusId
  contentId := item.contentId
  resolution :=
    if item.deliveryResolution = "" then item.resolution.text else item.deliveryResolution

theorem DeliveredItem.identity_resolution_ne_empty (item : DeliveredItem) :
    item.identity.resolution ≠ "" := by
  simp only [DeliveredItem.identity]
  split
  · exact item.resolution.text_ne_empty
  · assumption

structure Session where
  id : String
  agentContextBudget : Nat
  evictionPolicy : DropPolicy
  delivered : Rows String DeliveredItem
  trajectory : List DeliveryIdentity
  currentTurn : Nat
  stale : List String
  pendingAlerts : List CoherenceAlert
  recentQueries : List String
  metrics : SessionMetrics
  coAccessFlushedIds : List String

/-! ## Sets, ordered maps and words -/

/-- `HashSet::insert`. -/
def addKey (set : List String) (key : String) : List String :=
  if key ∈ set then set else key :: set

/-- `HashSet::remove`. -/
def dropKey (set : List String) (key : String) : List String :=
  set.filter fun k => k ≠ key

theorem mem_addKey {set : List String} {key k : String} :
    k ∈ addKey set key ↔ k = key ∨ k ∈ set := by
  unfold addKey
  split
  · rename_i present
    exact ⟨Or.inr, fun h => h.elim (fun same => same ▸ present) id⟩
  · exact List.mem_cons

theorem mem_dropKey {set : List String} {key k : String} :
    k ∈ dropKey set key ↔ k ∈ set ∧ k ≠ key := by
  simp [dropKey]

/-- A `BTreeMap`'s entries in key order. -/
def inKeyOrder {V : Type} (m : Rows String V) : List (String × V) :=
  (m.entries.map fun e => (e.1, e.2)).insertionSort fun a b => a.1 ≤ b.1

theorem mem_inKeyOrder {V : Type} {m : Rows String V} {k : String} {v : V} :
    (k, v) ∈ inKeyOrder m ↔ m.lookup k = some v := by
  unfold inKeyOrder
  rw [List.mem_insertionSort, ← Rows.mem_entries_iff, List.mem_map]
  constructor
  · rintro ⟨e, mem, eq⟩
    cases eq
    exact mem
  · exact fun mem => ⟨_, mem, rfl⟩

/-! ## The operations -/

namespace Session

def new (id : String) (agentContextBudget : Nat) (evictionPolicy : DropPolicy) : Session where
  id := id
  agentContextBudget := agentContextBudget
  evictionPolicy := evictionPolicy
  delivered := ∅
  trajectory := []
  currentTurn := 0
  stale := []
  pendingAlerts := []
  recentQueries := []
  metrics := {}
  coAccessFlushedIds := []

/-- A trajectory entry of an old record takes the identity of the delivered item it
names, if there is one. -/
def upgradeLegacy (delivered : Rows String DeliveredItem) (i : DeliveryIdentity) :
    DeliveryIdentity :=
  if i.resolution = "legacy" then
    match (inKeyOrder delivered).find? fun e =>
        e.2.corpusId = i.corpusId && e.2.contentId = i.contentId with
    | some e => e.2.identity
    | none => i
  else i

/-- `Session::restore`: re-keys the items by their own identity, lifts the turn to
the latest delivery's and keeps the newest part of the trajectory. -/
def restore (id : String) (agentContextBudget : Nat) (evictionPolicy : DropPolicy)
    (items : Rows String DeliveredItem) (accesses : List DeliveryIdentity) (currentTurn : Nat) :
    Session :=
  let delivered : Rows String DeliveredItem :=
    Rows.upsertAll ∅ ((inKeyOrder items).map fun e => (e.2.identity.storageKey, e.2))
  let trajectory := accesses.map (upgradeLegacy delivered)
  let maxDeliveredTurn := (delivered.entries.map fun e => e.2.turnDelivered).foldl max 0
  let kept := trajectory.drop (trajectory.length - maxTrajectoryLen)
  { id, agentContextBudget, evictionPolicy, delivered
    trajectory := kept
    currentTurn := max currentTurn maxDeliveredTurn
    stale := []
    pendingAlerts := []
    recentQueries := []
    metrics := {}
    coAccessFlushedIds := kept.foldl (fun set i => addKey set i.storageKey) [] }

/-- `push_back`, then `pop_front` when over the cap. -/
def pushAccess (trajectory : List DeliveryIdentity) (i : DeliveryIdentity) :
    List DeliveryIdentity :=
  let longer := trajectory ++ [i]
  if maxTrajectoryLen < longer.length then longer.tail else longer

def recordDeliveryIdentity (s : Session) (identity : DeliveryIdentity) (resolution : Resolution)
    (tokenCount turn : Nat) (contentHash : String) : Session :=
  let item : DeliveredItem :=
    { contentId := identity.contentId, resolution, corpusId := identity.corpusId,
      deliveryResolution := identity.resolution, tokenCount, turnDelivered := turn, contentHash,
      compressionTier := .full, compressedSummary := none }
  { s with
    currentTurn := max s.currentTurn turn
    trajectory := pushAccess s.trajectory identity
    metrics := { s.metrics with
      totalDeliveries := s.metrics.totalDeliveries + 1
      cumulativeTokensDelivered := s.metrics.cumulativeTokensDelivered + tokenCount }
    delivered := s.delivered.insert identity.storageKey item
    stale := dropKey s.stale identity.storageKey }

def recordDelivery (s : Session) (contentId : String) (resolution : Resolution)
    (tokenCount turn : Nat) (contentHash : String) : Session :=
  s.recordDeliveryIdentity (.primary contentId resolution.text) resolution tokenCount turn
    contentHash

def removeDeliveredIdentity (s : Session) (identity : DeliveryIdentity) :
    Session × Option DeliveredItem :=
  let key := identity.storageKey
  let stale := dropKey s.stale key
  match s.delivered.lookup key with
  | none => ({ s with stale }, none)
  | some item =>
      ({ s with
          stale
          delivered := s.delivered.erase key
          metrics := { s.metrics with
            totalEvictions := s.metrics.totalEvictions + 1
            cumulativeTokensEvicted := s.metrics.cumulativeTokensEvicted + item.tokenCount } },
        some item)

/-- The item is of the primary corpus and this content. -/
def isPrimary (contentId : String) (item : DeliveredItem) : Bool :=
  item.corpusId = primaryCorpusId && item.contentId = contentId

/-- Remove the identities one after the other; the removed items, in order. -/
def removeAll (s : Session) : List DeliveryIdentity → Session × List DeliveredItem
  | [] => (s, [])
  | i :: rest =>
      let (t, removed) := s.removeDeliveredIdentity i
      let (u, later) := t.removeAll rest
      (u, removed.toList ++ later)

def removeDeliveredResolutions (s : Session) (contentId : String) :
    Session × List DeliveredItem :=
  let identities := ((inKeyOrder s.delivered).filter fun e => isPrimary contentId e.2).map
    fun e => e.2.identity
  s.removeAll (identities.insertionSort fun a b => a.storageKey ≤ b.storageKey)

def removeDelivered (s : Session) (contentId : String) : Session × Option DeliveredItem :=
  let (t, removed) := s.removeDeliveredResolutions contentId
  (t, removed.head?)

/-- `primary_delivery_key`: the first matching key of the map. -/
def primaryDeliveryKey (s : Session) (contentId : String) : Option String :=
  ((inKeyOrder s.delivered).find? fun e => isPrimary contentId e.2).map Prod.fst

/-- The compression counters after a transition that freed `freed` tokens. -/
def countCompression (m : SessionMetrics) (freed : Nat) : SessionMetrics :=
  if 0 < freed then
    { m with
      totalCompressions := m.totalCompressions + 1
      cumulativeTokensCompressed := m.cumulativeTokensCompressed + freed }
  else m

/-- `bookmark_text`. -/
def bookmarkText (headingPath : List String) : String :=
  if headingPath.isEmpty then "[bookmark]"
  else "[bookmark: " ++ String.intercalate " > " headingPath ++ "]"

def maskIdentityToBookmark (s : Session) (identity : DeliveryIdentity)
    (headingPath : List String) : Session × Option Nat :=
  match s.delivered.lookup identity.storageKey with
  | none => (s, none)
  | some item =>
      if CompressionTier.bookmark.rank ≤ item.compressionTier.rank then (s, none)
      else
        let bookmarkTokens := max (Content.wordCount (bookmarkText headingPath)) 1
        let freed := item.tokenCount - bookmarkTokens
        ({ s with
            delivered := s.delivered.insert identity.storageKey
              { item with compressionTier := .bookmark, tokenCount := bookmarkTokens }
            metrics := countCompression s.metrics freed }, some freed)

/-- The addressing the older callers use: the content's first key, decoded. -/
def atPrimary {R : Type} (s : Session) (contentId : String)
    (act : DeliveryIdentity → Session × Option R) : Session × Option R :=
  match s.primaryDeliveryKey contentId with
  | none => (s, none)
  | some key => act (.fromStorageKey key "section_full")

def maskToBookmark (s : Session) (contentId : String) (headingPath : List String) :
    Session × Option Nat :=
  s.atPrimary contentId fun i => s.maskIdentityToBookmark i headingPath

def setIdentityCompressionTier (s : Session) (identity : DeliveryIdentity)
    (tier : CompressionTier) (newTokenCount : Nat) : Session × Option Nat :=
  match s.delivered.lookup identity.storageKey with
  | none => (s, none)
  | some item =>
      let freed := item.tokenCount - newTokenCount
      ({ s with
          delivered := s.delivered.insert identity.storageKey
            { item with compressionTier := tier, tokenCount := newTokenCount }
          metrics := countCompression s.metrics freed }, some freed)

def setCompressionTier (s : Session) (contentId : String) (tier : CompressionTier)
    (newTokenCount : Nat) : Session × Option Nat :=
  s.atPrimary contentId fun i => s.setIdentityCompressionTier i tier newTokenCount

def setIdentityCompressedSummary (s : Session) (identity : DeliveryIdentity) (summary : String)
    (tier : CompressionTier) (newTokenCount : Nat) : Session × Option Nat :=
  match s.delivered.lookup identity.storageKey with
  | none => (s, none)
  | some item =>
      let freed := item.tokenCount - newTokenCount
      ({ s with
          delivered := s.delivered.insert identity.storageKey
            { item with
              compressionTier := tier
              tokenCount := newTokenCount
              compressedSummary := some summary }
          metrics := countCompression s.metrics freed }, some freed)

def setCompressedSummary (s : Session) (contentId summary : String) (tier : CompressionTier)
    (newTokenCount : Nat) : Session × Option Nat :=
  s.atPrimary contentId fun i => s.setIdentityCompressedSummary i summary tier newTokenCount

/-! ### Staleness -/

/-- The keys of a content id's primary items. -/
def primaryKeys (s : Session) (contentId : String) : List String :=
  ((inKeyOrder s.delivered).filter fun e => isPrimary contentId e.2).map Prod.fst

def markStale (s : Session) (contentId : String) : Session × Bool :=
  let keys := s.primaryKeys contentId
  ({ s with stale := keys.foldl addKey s.stale }, !keys.isEmpty)

def markIdentityStale (s : Session) (identity : DeliveryIdentity) : Session × Bool :=
  if identity.storageKey ∈ s.delivered then
    ({ s with stale := addKey s.stale identity.storageKey }, true)
  else (s, false)

def clearStale (s : Session) (contentId : String) : Session :=
  { s with stale := (s.primaryKeys contentId).foldl dropKey s.stale }

/-- `stale_identities`: the identities of the items under stale keys. -/
def staleIdentities (s : Session) : List DeliveryIdentity :=
  s.stale.filterMap fun key => (s.delivered.lookup key).map DeliveredItem.identity

/-- Mark each section's items; the sections that had some. -/
def markSections (s : Session) : List String → Session × List String
  | [] => (s, [])
  | sectionId :: rest =>
      let (t, marked) := s.markStale sectionId
      let (u, later) := t.markSections rest
      (u, if marked then sectionId :: later else later)

def invalidateSections (s : Session) (changedSectionIds : List String) : Session × Nat :=
  let (t, staleIds) := s.markSections changedSectionIds
  if staleIds.isEmpty then (t, 0)
  else
    ({ t with pendingAlerts := t.pendingAlerts ++
        [⟨changedSectionIds, staleIds, t.staleIdentities⟩] }, staleIds.length)

/-- Mark each identity; those that were delivered. -/
def markIdentities (s : Session) : List DeliveryIdentity → Session × List DeliveryIdentity
  | [] => (s, [])
  | i :: rest =>
      let (t, marked) := s.markIdentityStale i
      let (u, later) := t.markIdentities rest
      (u, if marked then i :: later else later)

def invalidateIdentities (s : Session) (changed : List DeliveryIdentity) : Session × Nat :=
  let (t, staleIdentities) := s.markIdentities changed
  if staleIdentities.isEmpty then (t, 0)
  else
    let contentIds := staleIdentities.map DeliveryIdentity.contentId
    ({ t with pendingAlerts := t.pendingAlerts ++ [⟨contentIds, contentIds, staleIdentities⟩] },
      staleIdentities.length)

def invalidateCorpusSections (s : Session) (corpusId : String) (changedSectionIds : List String) :
    Session × Nat :=
  s.invalidateIdentities
    (((inKeyOrder s.delivered).filter fun e =>
      e.2.corpusId = corpusId && changedSectionIds.contains e.2.contentId).map
        fun e => e.2.identity)

def drainAlerts (s : Session) : Session × List CoherenceAlert :=
  ({ s with pendingAlerts := [] }, s.pendingAlerts)

/-! ### Counters -/

/-- `tick`: `saturating_add(1)` of a `u32`. -/
def tick (s : Session) : Session × Nat :=
  let turn := if s.currentTurn < 2 ^ 32 - 1 then s.currentTurn + 1 else s.currentTurn
  ({ s with currentTurn := turn }, turn)

def recordDedupHit (s : Session) : Session :=
  { s with metrics := { s.metrics with dedupHits := s.metrics.dedupHits + 1 } }

def recordDedupSavings (s : Session) (tokenCount byteCount : Nat) : Session :=
  let t := s.recordDedupHit
  { t with metrics := { t.metrics with
      cumulativeTokensDeduplicated := t.metrics.cumulativeTokensDeduplicated + tokenCount
      cumulativeBytesDeduplicated := t.metrics.cumulativeBytesDeduplicated + byteCount } }

def recordDeltaUpdate (s : Session) : Session :=
  { s with metrics := { s.metrics with deltaUpdates := s.metrics.deltaUpdates + 1 } }

/-- The sliding window of queries. -/
def pushQuery (queries : List String) (query : String) : List String :=
  (if maxRecentQueries ≤ queries.length then queries.tail else queries) ++ [query]

def recordQuery (s : Session) (query : String) : Session :=
  { s with recentQueries := pushQuery s.recentQueries query }

def setMetrics (s : Session) (metrics : SessionMetrics) : Session := { s with metrics }

def setRecentQueries (s : Session) (queries : List String) : Session :=
  { s with recentQueries := queries.foldl pushQuery [] }

@[simp] theorem setMetrics_delivered (s : Session) (m : SessionMetrics) :
    (s.setMetrics m).delivered = s.delivered := rfl

@[simp] theorem setMetrics_currentTurn (s : Session) (m : SessionMetrics) :
    (s.setMetrics m).currentTurn = s.currentTurn := rfl

@[simp] theorem setMetrics_metrics (s : Session) (m : SessionMetrics) :
    (s.setMetrics m).metrics = m := rfl

@[simp] theorem setRecentQueries_delivered (s : Session) (queries : List String) :
    (s.setRecentQueries queries).delivered = s.delivered := rfl

@[simp] theorem setRecentQueries_currentTurn (s : Session) (queries : List String) :
    (s.setRecentQueries queries).currentTurn = s.currentTurn := rfl

@[simp] theorem setRecentQueries_metrics (s : Session) (queries : List String) :
    (s.setRecentQueries queries).metrics = s.metrics := rfl

def markCoAccessFlushed (s : Session) (ids : List DeliveryIdentity) : Session :=
  let flushed := ids.foldl (fun set i => addKey set i.storageKey) s.coAccessFlushedIds
  { s with coAccessFlushedIds := flushed }

end Session

/-! ## One call -/

/-- The mutating calls. -/
inductive SessionOp where
  | recordDelivery (contentId : String) (resolution : Resolution) (tokenCount turn : Nat)
      (contentHash : String)
  | recordDeliveryIdentity (identity : DeliveryIdentity) (resolution : Resolution)
      (tokenCount turn : Nat) (contentHash : String)
  | removeDelivered (contentId : String)
  | removeDeliveredResolutions (contentId : String)
  | removeDeliveredIdentity (identity : DeliveryIdentity)
  | maskToBookmark (contentId : String) (headingPath : List String)
  | maskIdentityToBookmark (identity : DeliveryIdentity) (headingPath : List String)
  | setCompressionTier (contentId : String) (tier : CompressionTier) (newTokenCount : Nat)
  | setIdentityCompressionTier (identity : DeliveryIdentity) (tier : CompressionTier)
      (newTokenCount : Nat)
  | setCompressedSummary (contentId summary : String) (tier : CompressionTier)
      (newTokenCount : Nat)
  | setIdentityCompressedSummary (identity : DeliveryIdentity) (summary : String)
      (tier : CompressionTier) (newTokenCount : Nat)
  | markStale (contentId : String)
  | markIdentityStale (identity : DeliveryIdentity)
  | clearStale (contentId : String)
  | invalidateSections (changedSectionIds : List String)
  | invalidateIdentities (changed : List DeliveryIdentity)
  | invalidateCorpusSections (corpusId : String) (changedSectionIds : List String)
  | drainAlerts
  | tick
  | recordDedupHit
  | recordDedupSavings (tokenCount byteCount : Nat)
  | recordDeltaUpdate
  | recordQuery (query : String)
  | setMetrics (metrics : SessionMetrics)
  | setRecentQueries (queries : List String)
  | markCoAccessFlushed (ids : List DeliveryIdentity)
  | restore (id : String) (agentContextBudget : Nat) (evictionPolicy : DropPolicy)
      (items : Rows String DeliveredItem) (accesses : List DeliveryIdentity) (currentTurn : Nat)

def Session.apply (s : Session) : SessionOp → Session
  | .recordDelivery contentId resolution tokenCount turn contentHash =>
      s.recordDelivery contentId resolution tokenCount turn contentHash
  | .recordDeliveryIdentity identity resolution tokenCount turn contentHash =>
      s.recordDeliveryIdentity identity resolution tokenCount turn contentHash
  | .removeDelivered contentId => (s.removeDelivered contentId).1
  | .removeDeliveredResolutions contentId => (s.removeDeliveredResolutions contentId).1
  | .removeDeliveredIdentity identity => (s.removeDeliveredIdentity identity).1
  | .maskToBookmark contentId headingPath => (s.maskToBookmark contentId headingPath).1
  | .maskIdentityToBookmark identity headingPath =>
      (s.maskIdentityToBookmark identity headingPath).1
  | .setCompressionTier contentId tier newTokenCount =>
      (s.setCompressionTier contentId tier newTokenCount).1
  | .setIdentityCompressionTier identity tier newTokenCount =>
      (s.setIdentityCompressionTier identity tier newTokenCount).1
  | .setCompressedSummary contentId summary tier newTokenCount =>
      (s.setCompressedSummary contentId summary tier newTokenCount).1
  | .setIdentityCompressedSummary identity summary tier newTokenCount =>
      (s.setIdentityCompressedSummary identity summary tier newTokenCount).1
  | .markStale contentId => (s.markStale contentId).1
  | .markIdentityStale identity => (s.markIdentityStale identity).1
  | .clearStale contentId => s.clearStale contentId
  | .invalidateSections changedSectionIds => (s.invalidateSections changedSectionIds).1
  | .invalidateIdentities changed => (s.invalidateIdentities changed).1
  | .invalidateCorpusSections corpusId changedSectionIds =>
      (s.invalidateCorpusSections corpusId changedSectionIds).1
  | .drainAlerts => s.drainAlerts.1
  | .tick => s.tick.1
  | .recordDedupHit => s.recordDedupHit
  | .recordDedupSavings tokenCount byteCount => s.recordDedupSavings tokenCount byteCount
  | .recordDeltaUpdate => s.recordDeltaUpdate
  | .recordQuery query => s.recordQuery query
  | .setMetrics metrics => s.setMetrics metrics
  | .setRecentQueries queries => s.setRecentQueries queries
  | .markCoAccessFlushed ids => s.markCoAccessFlushed ids
  | .restore id budget policy items accesses turn =>
      .restore id budget policy items accesses turn

end Ministr
