/-
# Session.Persist — two encodings of a session, and what they lose

A session is stored in two places: `save_session` writes one row per delivered
item and reads them back through `Session::restore`; the hosted registry takes a
snapshot and hydrates a fresh entry from it.  Both flatten an item to text columns
and parse them again.

What comes back of an item is `reread`: the compression tier survives its text,
but the index resolution goes through a parser that knows three of the five
resolutions, and the delivery resolution is the one the item's identity reports,
which is never empty.  `session_roundTrip_iff` says exactly which sessions survive
each way.
-/
import Ministr.Session.Keys

namespace Ministr

open Ministr.Theory

set_option autoImplicit false

/-! ## The SQLite store -/

structure StorageError where
  reason : String
  deriving DecidableEq, Repr

/-- `sessions`, less its timestamps. -/
structure SessionRow where
  contextBudget : Nat
  currentTurn : Nat
  metrics : SessionMetrics
  recentQueries : List String

/-- `session_deliveries`, less its key columns. -/
structure DeliveryRow where
  indexResolution : String
  tokenCount : Nat
  turnDelivered : Nat
  contentHash : String
  position : Nat
  compressionTier : String
  compressedSummary : Option String
  deriving DecidableEq, Repr

/-- The two tables; deliveries have the primary key `(session_id, corpus_id,
content_id, resolution)`. -/
structure SessionDb where
  sessions : Rows String SessionRow
  deliveries : Rows (String × DeliveryIdentity) DeliveryRow

/-- An `INTEGER` column takes a `usize` below `2^63`. -/
def fitsInteger (n : Nat) : Bool := n < 2 ^ 63

/-- `parse_resolution`, in `sqlite.rs` and again in `registry.rs`. -/
def parseResolution (s : String) : Resolution :=
  if s = "summary" then .summary else if s = "claim" then .claim else .section_

/-- The position of a key's last access. -/
def positionOf (trajectory : List DeliveryIdentity) (key : String) : Nat :=
  (lastOf (trajectory.map DeliveryIdentity.storageKey).zipIdx key).getD 0

def DeliveredItem.toRow (trajectory : List DeliveryIdentity) (item : DeliveredItem) :
    DeliveryRow where
  indexResolution := item.resolution.text
  tokenCount := item.tokenCount
  turnDelivered := item.turnDelivered
  contentHash := item.contentHash
  position := positionOf trajectory item.identity.storageKey
  compressionTier := item.compressionTier.asStr
  compressedSummary := item.compressedSummary

/-- The delivery inserts, one row after the other. -/
def insertDeliveries (id : String) (table : Rows (String × DeliveryIdentity) DeliveryRow) :
    List (DeliveryIdentity × DeliveryRow) →
      Except StorageError (Rows (String × DeliveryIdentity) DeliveryRow)
  | [] => .ok table
  | (i, row) :: rest =>
      if !fitsInteger row.tokenCount then
        .error ⟨"failed to insert session delivery: integer out of range"⟩
      else if (id, i) ∈ table then
        .error ⟨"failed to insert session delivery: UNIQUE constraint failed"⟩
      else insertDeliveries id (table.insert (id, i) row) rest

/-- The items in the order `delivered_items` has them. -/
def Session.deliveredItems (s : Session) : List DeliveredItem :=
  (inKeyOrder s.delivered).map Prod.snd

/-- `save_session`; an error rolls the savepoint back. -/
def SessionDb.saveSession (db : SessionDb) (s : Session) : Except StorageError SessionDb :=
  if !fitsInteger s.agentContextBudget then
    .error ⟨"failed to upsert session: integer out of range"⟩
  else
    let sessions := db.sessions.insert s.id
      ⟨s.agentContextBudget, s.currentTurn, s.metrics, s.recentQueries⟩
    let cleared := db.deliveries.deleteWhere fun key _ => key.1 = s.id
    let rows := s.deliveredItems.map fun item => (item.identity, item.toRow s.trajectory)
    match insertDeliveries s.id cleared rows with
    | .error reason => .error reason
    | .ok deliveries => .ok { sessions, deliveries }

/-- The item of a loaded row. -/
def DeliveryRow.toItem (i : DeliveryIdentity) (row : DeliveryRow) : DeliveredItem where
  contentId := i.contentId
  resolution := parseResolution row.indexResolution
  corpusId := i.corpusId
  deliveryResolution := i.resolution
  tokenCount := row.tokenCount
  turnDelivered := row.turnDelivered
  contentHash := row.contentHash
  compressionTier := .fromStrOrFull row.compressionTier
  compressedSummary := row.compressedSummary

/-- A session's delivery rows, `ORDER BY position`. -/
def SessionDb.deliveryRows (db : SessionDb) (id : String) : List (DeliveryIdentity × DeliveryRow) :=
  ((db.deliveries.entries.filter fun e => e.1.1 = id).map fun e => (e.1.2, e.2)).insertionSort
    fun a b => a.2.position ≤ b.2.position

/-- The delivered map two loaders collect: one entry per identity. -/
def collectItems (items : List (DeliveryIdentity × DeliveredItem)) : Rows String DeliveredItem :=
  Rows.upsertAll ∅ (items.map fun e => (e.1.storageKey, e.2))

/-- `load_session`. -/
def SessionDb.loadSession (db : SessionDb) (id : String) : Option Session :=
  match db.sessions.lookup id with
  | none => none
  | some row =>
      let rows := db.deliveryRows id
      let delivered := collectItems (rows.map fun e => (e.1, e.2.toItem e.1))
      let s := Session.restore id row.contextBudget .fifo delivered (rows.map Prod.fst)
        row.currentTurn
      some ((s.setMetrics row.metrics).setRecentQueries row.recentQueries)

/-! ## The hosted snapshot -/

/-- `SESSION_STATE_VERSION`. -/
def sessionStateVersion : Nat := 1

structure SessionDeliverySnapshot where
  identity : DeliveryIdentity
  indexResolution : String
  tokenCount : Nat
  turnDelivered : Nat
  contentHash : String
  compressionTier : String
  compressedSummary : Option String
  deriving DecidableEq, Repr

structure SessionStateSnapshot where
  version : Nat
  revision : Nat
  delivered : List SessionDeliverySnapshot
  trajectory : List DeliveryIdentity
  droppedIdentities : List DeliveryIdentity
  currentTurn : Nat
  metrics : SessionMetrics

def DeliveredItem.snapshot (item : DeliveredItem) : SessionDeliverySnapshot where
  identity := item.identity
  indexResolution := item.resolution.text
  tokenCount := item.tokenCount
  turnDelivered := item.turnDelivered
  contentHash := item.contentHash
  compressionTier := item.compressionTier.asStr
  compressedSummary := item.compressedSummary

/-- `Vec::dedup`: drop an entry equal to the one before it. -/
def dedup : List DeliveryIdentity → List DeliveryIdentity
  | [] => []
  | [i] => [i]
  | i :: j :: rest => if i = j then dedup (j :: rest) else i :: dedup (j :: rest)

/-- `snapshot_state` of a session in the registry. -/
def Session.snapshotState (s : Session) (revision : Nat) : SessionStateSnapshot :=
  let delivered := s.deliveredItems.map DeliveredItem.snapshot
  let deliveredKeys := delivered.map fun d => d.identity.storageKey
  let dropped := (s.trajectory.filter fun i => !deliveredKeys.contains i.storageKey).insertionSort
    fun a b => a.storageKey ≤ b.storageKey
  { version := sessionStateVersion
    revision
    delivered
    trajectory := s.trajectory
    droppedIdentities := dedup dropped
    currentTurn := s.currentTurn
    metrics := s.metrics }

def SessionDeliverySnapshot.toItem (d : SessionDeliverySnapshot) : DeliveredItem where
  contentId := d.identity.contentId
  resolution := parseResolution d.indexResolution
  corpusId := d.identity.corpusId
  deliveryResolution := d.identity.resolution
  tokenCount := d.tokenCount
  turnDelivered := d.turnDelivered
  contentHash := d.contentHash
  compressionTier := .fromStrOrFull d.compressionTier
  compressedSummary := d.compressedSummary

/-- `hydrate_entry`, as far as it concerns the entry's session. -/
def Session.hydrate (entry : Session) (id : String) (state : SessionStateSnapshot) : Session :=
  if 0 < state.version then
    let dropped := state.droppedIdentities.map DeliveryIdentity.storageKey
    let kept := state.delivered.filter fun d => !dropped.contains d.identity.storageKey
    let delivered := collectItems (kept.map fun d => (d.identity, d.toItem))
    (Session.restore id entry.agentContextBudget entry.evictionPolicy delivered state.trajectory
      state.currentTurn).setMetrics state.metrics
  else entry

/-! ## What comes back of one item -/

/-- An item after either round trip. -/
def DeliveredItem.reread (item : DeliveredItem) : DeliveredItem :=
  { item with
    resolution := parseResolution item.resolution.text
    deliveryResolution := item.identity.resolution }

theorem toItem_toRow (trajectory : List DeliveryIdentity) (item : DeliveredItem) :
    (item.toRow trajectory).toItem item.identity = item.reread := by
  simp only [DeliveryRow.toItem, DeliveredItem.toRow, DeliveredItem.reread,
    CompressionTier.fromStrOrFull_asStr]
  rfl

theorem toItem_snapshot (item : DeliveredItem) : item.snapshot.toItem = item.reread := by
  simp only [SessionDeliverySnapshot.toItem, DeliveredItem.snapshot, DeliveredItem.reread,
    CompressionTier.fromStrOrFull_asStr]
  rfl

/-- The resolutions the parsers know. -/
def Resolution.Known : Resolution → Prop
  | .summary => True
  | .section_ => True
  | .claim => True
  | .symbolStub => False
  | .symbolFull => False

theorem parseResolution_text_iff (r : Resolution) : parseResolution r.text = r ↔ r.Known := by
  cases r <;> simp [parseResolution, Resolution.text, Resolution.Known]

theorem parseResolution_known (s : String) : (parseResolution s).Known := by
  unfold parseResolution
  split
  · trivial
  · split <;> trivial

/-- An item both encodings keep: a known index resolution, and a delivery
resolution of its own. -/
def DeliveredItem.Storable (item : DeliveredItem) : Prop :=
  item.resolution.Known ∧ item.deliveryResolution ≠ ""

theorem reread_of_storable {item : DeliveredItem} (storable : item.Storable) :
    item.reread = item := by
  unfold DeliveredItem.reread
  rw [(parseResolution_text_iff item.resolution).mpr storable.1]
  simp only [DeliveredItem.identity, if_neg storable.2]

theorem reread_storable (item : DeliveredItem) : item.reread.Storable :=
  ⟨parseResolution_known _, item.identity_resolution_ne_empty⟩

/-! ## Restoring a list of items -/

/-- Same items under the same keys, same turn, same counters. -/
structure SameShadow (s t : Session) : Prop where
  delivered : ∀ k, t.delivered.lookup k = s.delivered.lookup k
  turn : t.currentTurn = s.currentTurn
  metrics : t.metrics = s.metrics

/-- Whatever the loaders restore was read back from an item of the list. -/
theorem restore_collect_mem {id : String} {budget turn : Nat} {policy : DropPolicy}
    {items : List (DeliveryIdentity × DeliveredItem)} {accesses : List DeliveryIdentity}
    {k : String} {item : DeliveredItem}
    (found : (Session.restore id budget policy (collectItems items) accesses turn).delivered.lookup k
      = some item) : ∃ i, (i, item) ∈ items := by
  simp only [Session.restore] at found
  rw [Rows.lookup_upsertAll, AList.lookup_empty, Option.or_none] at found
  obtain ⟨⟨key, item'⟩, listed, eq⟩ := List.mem_map.mp (mem_of_lastOf found)
  cases eq
  have held := mem_inKeyOrder.mp listed
  rw [collectItems, Rows.lookup_upsertAll, AList.lookup_empty, Option.or_none] at held
  obtain ⟨⟨i, item''⟩, mem, eq⟩ := List.mem_map.mp (mem_of_lastOf held)
  cases eq
  exact ⟨i, mem⟩

section Restored

variable {s : Session} (named : ∀ k item, s.delivered.lookup k = some item →
  k = item.identity.storageKey)

include named

theorem collect_lookup {items : List DeliveredItem}
    (same : ∀ item, item ∈ items ↔ ∃ k, s.delivered.lookup k = some item) (k : String)
    (item : DeliveredItem) :
    (collectItems (items.map fun item => (item.identity, item))).lookup k = some item ↔
      s.delivered.lookup k = some item := by
  rw [collectItems, Rows.lookup_upsertAll, AList.lookup_empty, Option.or_none, List.map_map]
  have listed : ∀ v, (k, v) ∈ items.map ((fun e : DeliveryIdentity × DeliveredItem =>
      (e.1.storageKey, e.2)) ∘ fun item => (item.identity, item)) ↔
      s.delivered.lookup k = some v := by
    intro v
    rw [List.mem_map]
    constructor
    · rintro ⟨v, mem, eq⟩
      cases eq
      obtain ⟨key, held⟩ := (same v).mp mem
      rw [← named key v held]
      exact held
    · intro held
      refine ⟨v, (same v).mpr ⟨k, held⟩, ?_⟩
      rw [named k v held]
      rfl
  rw [lastOf_eq_some_iff, listed]
  intro w left w' right
  exact Option.some.inj (((listed w).mp left).symm.trans ((listed w').mp right))

/-- Restoring the items of a keyed session gives the same map back. -/
theorem restore_collect {items : List DeliveredItem}
    (same : ∀ item, item ∈ items ↔ ∃ k, s.delivered.lookup k = some item) (id : String)
    (budget turn : Nat) (policy : DropPolicy) (accesses : List DeliveryIdentity) (k : String) :
    (Session.restore id budget policy (collectItems (items.map fun item => (item.identity, item)))
      accesses turn).delivered.lookup k = s.delivered.lookup k := by
  apply Option.ext
  intro item
  simp only [Session.restore]
  rw [Rows.lookup_upsertAll, AList.lookup_empty, Option.or_none]
  have listed : ∀ v, (k, v) ∈ (inKeyOrder (collectItems
      (items.map fun item => (item.identity, item)))).map
        (fun e => (e.2.identity.storageKey, e.2)) ↔ s.delivered.lookup k = some v := by
    intro v
    rw [List.mem_map]
    constructor
    · rintro ⟨⟨key, v⟩, mem, eq⟩
      cases eq
      have held := (collect_lookup named same key v).mp (mem_inKeyOrder.mp mem)
      rw [← named key v held]
      exact held
    · intro held
      refine ⟨(k, v), mem_inKeyOrder.mpr ((collect_lookup named same k v).mpr held), ?_⟩
      rw [← named k v held]
  rw [lastOf_eq_some_iff, listed]
  intro w left w' right
  exact Option.some.inj (((listed w).mp left).symm.trans ((listed w').mp right))

end Restored

theorem foldl_max_le {l : List Nat} {n m : Nat} (start : m ≤ n) (each : ∀ a ∈ l, a ≤ n) :
    l.foldl max m ≤ n := by
  induction l generalizing m with
  | nil => exact start
  | cons a l ih =>
      rw [List.forall_mem_cons] at each
      exact ih (max_le start each.1) each.2

/-- The restored turn is the saved one: no delivery is ahead of it. -/
theorem restore_turn {s : Session} (tracked : s.Tracked) {id : String} {budget : Nat}
    {policy : DropPolicy} {items : Rows String DeliveredItem} {accesses : List DeliveryIdentity}
    (same : ∀ k, (Session.restore id budget policy items accesses s.currentTurn).delivered.lookup k =
      s.delivered.lookup k) :
    (Session.restore id budget policy items accesses s.currentTurn).currentTurn = s.currentTurn := by
  refine max_eq_left (foldl_max_le (Nat.zero_le _) fun n mem => ?_)
  obtain ⟨⟨k, item⟩, listed, rfl⟩ := List.mem_map.mp mem
  exact tracked.turns k item ((same k).symm.trans ((Rows.mem_entries_iff _ _ _).mp listed))

theorem mem_deliveredItems {s : Session} {item : DeliveredItem} :
    item ∈ s.deliveredItems ↔ ∃ k, s.delivered.lookup k = some item := by
  unfold Session.deliveredItems
  rw [List.mem_map]
  constructor
  · rintro ⟨⟨k, v⟩, mem, rfl⟩
    exact ⟨k, mem_inKeyOrder.mp mem⟩
  · rintro ⟨k, held⟩
    exact ⟨(k, item), mem_inKeyOrder.mpr held, rfl⟩

/-! ## The SQLite round trip -/

theorem insertDeliveries_ok {id : String} {rows : List (DeliveryIdentity × DeliveryRow)}
    {table table' : Rows (String × DeliveryIdentity) DeliveryRow}
    (inserted : insertDeliveries id table rows = .ok table') :
    table' = table.upsertAll (rows.map fun e => ((id, e.1), e.2)) ∧
      ∀ e ∈ rows, fitsInteger e.2.tokenCount = true := by
  induction rows generalizing table with
  | nil =>
      cases inserted
      exact ⟨rfl, by simp⟩
  | cons e rows ih =>
      unfold insertDeliveries at inserted
      split at inserted
      · cases inserted
      · rename_i fits
        split at inserted
        · cases inserted
        · obtain ⟨eq, rest⟩ := ih inserted
          refine ⟨eq, ?_⟩
          rw [List.forall_mem_cons]
          exact ⟨by simpa using fits, rest⟩

theorem insertDeliveries_total (id : String) {rows : List (DeliveryIdentity × DeliveryRow)}
    (table : Rows (String × DeliveryIdentity) DeliveryRow) (distinct : (rows.map Prod.fst).Nodup)
    (fits : ∀ e ∈ rows, fitsInteger e.2.tokenCount = true)
    (free : ∀ e ∈ rows, (id, e.1) ∉ table) :
    ∃ table', insertDeliveries id table rows = .ok table' := by
  induction rows generalizing table with
  | nil => exact ⟨table, rfl⟩
  | cons e rows ih =>
      rw [List.map_cons, List.nodup_cons] at distinct
      rw [List.forall_mem_cons] at fits free
      unfold insertDeliveries
      rw [if_neg (by simp [fits.1]), if_neg free.1]
      refine ih _ distinct.2 fits.2 fun e' mem present => ?_
      rcases (AList.mem_insert table).mp present with same | old
      · have clash : e'.1 = e.1 := congrArg Prod.snd same
        exact distinct.1 (clash ▸ List.mem_map_of_mem mem)
      · exact free.2 e' mem old

/-- What a saved session's rows are: one per item, when the identities differ. -/
theorem mem_deliveryRows {db : SessionDb} {s : Session}
    {deliveries : Rows (String × DeliveryIdentity) DeliveryRow} {sessions : Rows String SessionRow}
    (inserted : insertDeliveries s.id (db.deliveries.deleteWhere fun key _ => key.1 = s.id)
      (s.deliveredItems.map fun item => (item.identity, item.toRow s.trajectory)) = .ok deliveries)
    {i : DeliveryIdentity} {row : DeliveryRow} :
    (i, row) ∈ SessionDb.deliveryRows { sessions, deliveries } s.id ↔
      lastOf (s.deliveredItems.map fun item => (item.identity, item.toRow s.trajectory)) i =
        some row := by
  have listed : (i, row) ∈ SessionDb.deliveryRows { sessions, deliveries } s.id ↔
      deliveries.lookup (s.id, i) = some row := by
    unfold SessionDb.deliveryRows
    rw [List.mem_insertionSort, List.mem_map, ← Rows.mem_entries_iff]
    constructor
    · rintro ⟨⟨⟨sid, i'⟩, row'⟩, mem, eq⟩
      cases eq
      obtain ⟨inTable, own⟩ := List.mem_filter.mp mem
      have sameId : sid = s.id := by simpa using own
      exact sameId ▸ inTable
    · intro inTable
      exact ⟨⟨(s.id, i), row⟩, List.mem_filter.mpr ⟨inTable, by simp⟩, rfl⟩
  have cleared : (db.deliveries.deleteWhere fun key _ => key.1 = s.id).lookup (s.id, i) = none := by
    rw [Rows.lookup_deleteWhere]
    simp
  rw [listed, (insertDeliveries_ok inserted).1, Rows.lookup_upsertAll, cleared, Option.or_none,
    lastOf_map_key]
  intro i j same
  exact congrArg Prod.snd same

/-- `save_session`, `load_session` and the restore in it give the session back. -/
def SqliteRoundTrip (db : SessionDb) (s : Session) : Prop :=
  ∃ db' t, db.saveSession s = .ok db' ∧ db'.loadSession s.id = some t ∧ SameShadow s t

/-- `snapshot_state` and `hydrate_entry` on a fresh entry give the session back. -/
def CloudRoundTrip (entry s : Session) (revision : Nat) : Prop :=
  SameShadow s (entry.hydrate s.id (s.snapshotState revision))

/-- Every item survives the text columns. -/
def Session.Storable (s : Session) : Prop :=
  ∀ k item, s.delivered.lookup k = some item → item.Storable

/-- The numbers fit the integer columns. -/
def Session.FitsColumns (s : Session) : Prop :=
  fitsInteger s.agentContextBudget = true ∧
    ∀ k item, s.delivered.lookup k = some item → fitsInteger item.tokenCount = true

/-- An item with a delivery resolution of its own is under its own key. -/
def Session.NamedKeyed (s : Session) : Prop :=
  ∀ k item, s.delivered.lookup k = some item → item.deliveryResolution ≠ "" →
    k = item.identity.storageKey

theorem Session.NamedKeyed.keyed {s : Session} (namedKeyed : s.NamedKeyed) (storable : s.Storable) :
    s.Keyed :=
  fun k item found => namedKeyed k item found (storable k item found).2

theorem Session.Keyed.identities_nodup {s : Session} (keyed : s.Keyed) :
    (s.deliveredItems.map DeliveredItem.identity).Nodup := by
  have entries : ((inKeyOrder s.delivered).map Prod.fst).Nodup := by
    have perm := (List.perm_insertionSort (fun a b : String × DeliveredItem => a.1 ≤ b.1)
      (s.delivered.entries.map fun e => (e.1, e.2))).map Prod.fst
    refine perm.nodup_iff.mpr ?_
    rw [List.map_map]
    exact s.delivered.nodupKeys
  unfold Session.deliveredItems
  rw [List.map_map]
  refine List.pairwise_map.mpr ((List.pairwise_map.mp entries).imp_of_mem ?_)
  rintro ⟨k, a⟩ ⟨k', b⟩ memA memB ne same
  have left := keyed k a (mem_inKeyOrder.mp memA)
  have right := keyed k' b (mem_inKeyOrder.mp memB)
  refine ne ?_
  simp only [Function.comp_apply] at same
  rw [left, right, same]

/-- A session that comes back was storable: what is read back always is. -/
theorem SqliteRoundTrip.storable {db : SessionDb} {s : Session} (round : SqliteRoundTrip db s) :
    s.Storable ∧ s.FitsColumns := by
  obtain ⟨db', t, saved, loaded, same⟩ := round
  unfold SessionDb.saveSession at saved
  split at saved
  · cases saved
  · rename_i budget
    dsimp only at saved
    split at saved
    · cases saved
    · rename_i deliveries inserted
      cases saved
      have fits := (insertDeliveries_ok inserted).2
      refine ⟨fun k item found => ?_, by simpa using budget, fun k item found => ?_⟩
      · simp only [SessionDb.loadSession, AList.lookup_insert] at loaded
        cases loaded
        have back := same.delivered k
        rw [found, Session.setRecentQueries_delivered, Session.setMetrics_delivered] at back
        obtain ⟨i, listed⟩ := restore_collect_mem back
        obtain ⟨⟨i', row⟩, mem, eq⟩ := List.mem_map.mp listed
        cases eq
        obtain ⟨old, -, eq⟩ := List.mem_map.mp
          (mem_of_lastOf ((mem_deliveryRows inserted).mp mem))
        cases eq
        rw [toItem_toRow]
        exact reread_storable old
      · exact fits _ (List.mem_map_of_mem (mem_deliveredItems.mpr ⟨k, found⟩))

section Saved

variable {db : SessionDb} {s : Session}

theorem Session.Keyed.rows_nodup (keyed : s.Keyed) :
    ((s.deliveredItems.map fun item => (item.identity, item.toRow s.trajectory)).map
      Prod.fst).Nodup := by
  rw [List.map_map]
  exact keyed.identities_nodup

/-- The rows of a session whose items have distinct identities can be inserted once its
old rows are gone. -/
theorem insertDeliveries_session (db : SessionDb) (keyed : s.Keyed) (fits : s.FitsColumns) :
    ∃ deliveries, insertDeliveries s.id (db.deliveries.deleteWhere fun key _ => key.1 = s.id)
      (s.deliveredItems.map fun item => (item.identity, item.toRow s.trajectory)) =
        .ok deliveries := by
  refine insertDeliveries_total s.id _ keyed.rows_nodup (fun e mem => ?_) fun e _ present => ?_
  · obtain ⟨item, listed, rfl⟩ := List.mem_map.mp mem
    obtain ⟨k, found⟩ := mem_deliveredItems.mp listed
    exact fits.2 k item found
  · obtain ⟨row, held⟩ := (Rows.mem_iff_lookup _ _).mp present
    rw [Rows.lookup_deleteWhere] at held
    simp at held

variable {deliveries : Rows (String × DeliveryIdentity) DeliveryRow}
  {sessions : Rows String SessionRow}

/-- Every row reads back as the item it was written from. -/
theorem Session.Storable.readBack (storable : s.Storable)
    (inserted : insertDeliveries s.id (db.deliveries.deleteWhere fun key _ => key.1 = s.id)
      (s.deliveredItems.map fun item => (item.identity, item.toRow s.trajectory)) = .ok deliveries)
    {e : DeliveryIdentity × DeliveryRow}
    (mem : e ∈ SessionDb.deliveryRows { sessions, deliveries } s.id) :
    ∃ item ∈ s.deliveredItems, e.1 = item.identity ∧ e.2.toItem e.1 = item := by
  obtain ⟨i, row⟩ := e
  obtain ⟨item, listed, eq⟩ := List.mem_map.mp
    (mem_of_lastOf ((mem_deliveryRows inserted).mp mem))
  cases eq
  obtain ⟨k, found⟩ := mem_deliveredItems.mp listed
  exact ⟨item, listed, rfl, (toItem_toRow _ _).trans (reread_of_storable (storable k item found))⟩

/-- The items of the rows are the delivered ones. -/
theorem Session.Storable.mem_readItems (storable : s.Storable) (keyed : s.Keyed)
    (inserted : insertDeliveries s.id (db.deliveries.deleteWhere fun key _ => key.1 = s.id)
      (s.deliveredItems.map fun item => (item.identity, item.toRow s.trajectory)) = .ok deliveries)
    (item : DeliveredItem) :
    item ∈ (SessionDb.deliveryRows { sessions, deliveries } s.id).map
        (fun e => e.2.toItem e.1) ↔ ∃ k, s.delivered.lookup k = some item := by
  rw [← mem_deliveredItems]
  constructor
  · intro mem
    obtain ⟨e, listed, rfl⟩ := List.mem_map.mp mem
    obtain ⟨item, held, -, read⟩ := storable.readBack inserted listed
    rw [read]
    exact held
  · intro held
    obtain ⟨k, found⟩ := mem_deliveredItems.mp held
    refine List.mem_map.mpr ⟨(item.identity, item.toRow s.trajectory), ?_,
      (toItem_toRow _ _).trans (reread_of_storable (storable k item found))⟩
    refine (mem_deliveryRows inserted).mpr ((lastOf_eq_some_iff ?_).mpr
      (List.mem_map_of_mem held))
    intro w left w' right
    exact eq_of_nodup_fst keyed.rows_nodup left right

theorem Session.Storable.sqliteRoundTrip (storable : s.Storable) (fits : s.FitsColumns)
    (tracked : s.Tracked) (keyed : s.Keyed) : SqliteRoundTrip db s := by
  obtain ⟨deliveries, inserted⟩ := insertDeliveries_session db keyed fits
  let sessions := db.sessions.insert s.id
    ⟨s.agentContextBudget, s.currentTurn, s.metrics, s.recentQueries⟩
  have saved : db.saveSession s = .ok { sessions, deliveries } := by
    unfold SessionDb.saveSession
    rw [if_neg (by simp [fits.1])]
    dsimp only
    rw [inserted]
  let rows := SessionDb.deliveryRows { sessions, deliveries } s.id
  have pairs : rows.map (fun e => (e.1, e.2.toItem e.1)) =
      (rows.map fun e => e.2.toItem e.1).map fun item => (item.identity, item) := by
    rw [List.map_map]
    refine List.map_congr_left fun e mem => ?_
    obtain ⟨item, -, identity, read⟩ := storable.readBack inserted mem
    simp only [Function.comp_apply]
    rw [read, identity]
  let t := Session.restore s.id s.agentContextBudget .fifo
    (collectItems (rows.map fun e => (e.1, e.2.toItem e.1))) (rows.map Prod.fst) s.currentTurn
  have restored : ∀ k, t.delivered.lookup k = s.delivered.lookup k := by
    intro k
    simp only [t, pairs]
    exact restore_collect keyed (storable.mem_readItems keyed inserted) s.id _ _ _ _ k
  refine ⟨_, (t.setMetrics s.metrics).setRecentQueries s.recentQueries, saved, ?_, ?_, ?_, ?_⟩
  · simp only [SessionDb.loadSession, sessions, AList.lookup_insert, t, rows]
  · exact restored
  · rw [Session.setRecentQueries_currentTurn, Session.setMetrics_currentTurn]
    exact restore_turn tracked restored
  · rw [Session.setRecentQueries_metrics, Session.setMetrics_metrics]

end Saved

theorem sqlite_roundTrip_iff {s : Session} (tracked : s.Tracked) (namedKeyed : s.NamedKeyed)
    (db : SessionDb) : SqliteRoundTrip db s ↔ s.Storable ∧ s.FitsColumns := by
  refine ⟨SqliteRoundTrip.storable, fun ⟨storable, fits⟩ => ?_⟩
  exact storable.sqliteRoundTrip fits tracked (namedKeyed.keyed storable)

/-! ## The hosted round trip -/

theorem mem_dedup {l : List DeliveryIdentity} {i : DeliveryIdentity} (mem : i ∈ dedup l) : i ∈ l := by
  induction l using dedup.induct with
  | case1 => exact mem
  | case2 j => exact mem
  | case3 j rest ih =>
      rw [dedup, if_pos rfl] at mem
      exact List.mem_cons_of_mem _ (ih mem)
  | case4 j k rest ne ih =>
      rw [dedup, if_neg ne] at mem
      rcases List.mem_cons.mp mem with rfl | later
      · exact List.mem_cons_self
      · exact List.mem_cons_of_mem _ (ih later)

/-- No delivered identity is among the dropped ones, so hydration filters nothing
out. -/
theorem hydrate_keeps (s : Session) (revision : Nat) :
    (s.snapshotState revision).delivered.filter (fun d =>
      !((s.snapshotState revision).droppedIdentities.map DeliveryIdentity.storageKey).contains
        d.identity.storageKey) = s.deliveredItems.map DeliveredItem.snapshot := by
  rw [List.filter_eq_self.mpr]
  · rfl
  intro d mem
  rw [Bool.not_eq_true', ← Bool.not_eq_true, List.contains_iff_mem, List.mem_map]
  rintro ⟨i, gone, same⟩
  have inTrajectory := mem_dedup gone
  rw [List.mem_insertionSort, List.mem_filter] at inTrajectory
  have missing := inTrajectory.2
  rw [Bool.not_eq_true', ← Bool.not_eq_true, List.contains_iff_mem] at missing
  exact missing (List.mem_map.mpr ⟨d, mem, same.symm⟩)

theorem cloud_roundTrip_iff {s : Session} (tracked : s.Tracked) (namedKeyed : s.NamedKeyed)
    (entry : Session) (revision : Nat) : CloudRoundTrip entry s revision ↔ s.Storable := by
  have hydrated : entry.hydrate s.id (s.snapshotState revision) =
      (Session.restore s.id entry.agentContextBudget entry.evictionPolicy
        (collectItems (s.deliveredItems.map fun item => (item.identity, item.reread)))
        s.trajectory s.currentTurn).setMetrics s.metrics := by
    have current : 0 < (s.snapshotState revision).version := Nat.one_pos
    unfold Session.hydrate
    rw [if_pos current]
    dsimp only
    rw [hydrate_keeps, List.map_map]
    have read : ((fun d : SessionDeliverySnapshot => (d.identity, d.toItem)) ∘
        DeliveredItem.snapshot) = fun item => (item.identity, item.reread) := by
      funext item
      simp only [Function.comp_apply, toItem_snapshot]
      rfl
    rw [read]
    rfl
  unfold CloudRoundTrip
  rw [hydrated]
  constructor
  · intro same k item found
    have back := same.delivered k
    rw [found, Session.setMetrics_delivered] at back
    obtain ⟨i, listed⟩ := restore_collect_mem back
    obtain ⟨old, -, eq⟩ := List.mem_map.mp listed
    cases eq
    exact reread_storable old
  · intro storable
    have keyed := namedKeyed.keyed storable
    have pairs : s.deliveredItems.map (fun item => (item.identity, item.reread)) =
        s.deliveredItems.map fun item => (item.identity, item) := by
      refine List.map_congr_left fun item mem => ?_
      obtain ⟨k, found⟩ := mem_deliveredItems.mp mem
      rw [reread_of_storable (storable k item found)]
    rw [pairs]
    have restored := restore_collect keyed (fun _ => mem_deliveredItems) s.id
      entry.agentContextBudget s.currentTurn entry.evictionPolicy s.trajectory
    refine ⟨restored, ?_, Session.setMetrics_metrics _ _⟩
    rw [Session.setMetrics_currentTurn]
    exact restore_turn tracked restored

/-! ## Every reachable session -/

theorem apply_namedKeyed {s : Session} (namedKeyed : s.NamedKeyed) (op : SessionOp) :
    (s.apply op).NamedKeyed := by
  rcases apply_cases s op with retouches | ⟨i, resolution, tokens, turn, hash, eq, -⟩ |
    ⟨id, budget, policy, items, accesses, turn, rfl⟩
  · intro k b found named
    obtain ⟨a, foundA, same⟩ := retouches.items k b found
    rw [same.identity]
    exact namedKeyed k a foundA (same.named ▸ named)
  · rw [eq]
    intro k item found named
    simp only [Session.recordDeliveryIdentity] at found
    rw [Rows.lookup_insert_if] at found
    split at found
    · rename_i same
      cases found
      rw [same]
      simp only [DeliveredItem.identity, if_neg named]
    · exact namedKeyed k item found named
  · exact fun k item found _ =>
      (restore_consistent id budget policy items accesses turn).1 k item found

theorem reachable_persistable (id : String) (budget : Nat) (policy : DropPolicy)
    (ops : List SessionOp) :
    (ops.foldl Session.apply (Session.new id budget policy)).Tracked ∧
      (ops.foldl Session.apply (Session.new id budget policy)).NamedKeyed := by
  have each : ∀ (s : Session) (ops : List SessionOp), s.Tracked → s.NamedKeyed →
      (ops.foldl Session.apply s).Tracked ∧ (ops.foldl Session.apply s).NamedKeyed := by
    intro s ops
    induction ops generalizing s with
    | nil => exact fun tracked named => ⟨tracked, named⟩
    | cons op ops ih =>
        exact fun tracked named => ih _ (apply_tracked tracked op) (apply_namedKeyed named op)
  have start := new_consistent id budget policy
  exact each _ ops start.2 fun k item found _ => start.1 k item found

/-- For every session reached by any calls: it survives the SQLite round trip
exactly when every item has a resolution the parser knows and a delivery resolution
of its own, and its numbers fit the columns; and the hosted round trip exactly when
every item has those two. -/
theorem session_roundTrip_iff (id : String) (budget : Nat) (policy : DropPolicy)
    (ops : List SessionOp) (db : SessionDb) (entry : Session) (revision : Nat) :
    let s := ops.foldl Session.apply (Session.new id budget policy)
    (SqliteRoundTrip db s ↔ s.Storable ∧ s.FitsColumns) ∧
      (CloudRoundTrip entry s revision ↔ s.Storable) := by
  intro s
  obtain ⟨tracked, namedKeyed⟩ := reachable_persistable id budget policy ops
  exact ⟨sqlite_roundTrip_iff tracked namedKeyed db,
    cloud_roundTrip_iff tracked namedKeyed entry revision⟩

/-- One delivered symbol comes back from both encodings as a section. -/
theorem session_symbol_roundTrip :
    ¬ ∀ (ops : List SessionOp) (db : SessionDb) (entry : Session) (revision : Nat),
      let s := ops.foldl Session.apply (Session.new "s" 100000 .fifo)
      SqliteRoundTrip db s ∧ CloudRoundTrip entry s revision := by
  intro roundTrips
  have cloud := (roundTrips [.recordDelivery "sym" .symbolFull 10 1 "h"] ⟨∅, ∅⟩
    (.new "s" 100000 .fifo) 1).2
  obtain ⟨tracked, namedKeyed⟩ := reachable_persistable "s" 100000 .fifo
    [.recordDelivery "sym" .symbolFull 10 1 "h"]
  exact ((cloud_roundTrip_iff tracked namedKeyed _ _).mp cloud _ _ (AList.lookup_insert _)).1

end Ministr
