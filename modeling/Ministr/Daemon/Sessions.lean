/-
# Daemon.Sessions — the daemon's session table, and two keys that meet in it

The daemon saves a session as one row: the delivered items as a JSON map and the
trajectory as a JSON list.  Saving keys the map by each item's identity; loading
moves the items of the legacy corpus `primary` to the corpus at hand and keys the
map again.  An item delivered both ways, before and after the corpus had an id,
comes out under one key.

`daemonSession_roundTrip_iff` says that nothing else goes wrong: a session comes
back whole, and every other row is as it was, exactly when no two items have one
identity in the corpus at hand.  `twice_delivered_lost` is the session that loses
an item.
-/

import Ministr.Session.Persist

namespace Ministr.Daemon

open Ministr.Theory

set_option autoImplicit false

/-! ## The source -/

/-- What a `trajectory_json` column can hold. -/
inductive TrajectoryJson where
  | identities (trajectory : List DeliveryIdentity)
  | contentIds (trajectory : List String)
  | unreadable
  deriving DecidableEq, Repr

/-- A row of `daemon_sessions` without its key; the JSON columns as they are read, and
`updated_at` left out. -/
structure SessionRow where
  budgetTokens : Int
  currentTurn : Int
  delivered : Option (Rows String DeliveredItem)
  trajectory : TrajectoryJson

/-- `daemon_sessions`, with the primary key `(corpus_id, session_id)`. -/
abbrev SessionTable := Rows (String × String) SessionRow

/-- `SavedSession`. -/
structure SavedSession where
  sessionId : String
  budgetTokens : Nat
  currentTurn : UInt32
  delivered : Rows String DeliveredItem
  trajectory : List DeliveryIdentity

/-- `.map(|item| (item.identity().storage_key(), item)).collect()` into a `BTreeMap`. -/
def collectByIdentity (items : List DeliveredItem) : Rows String DeliveredItem :=
  Rows.upsertAll ∅ (items.map fun item => (item.identity.storageKey, item))

/-- `delivered.values()`. -/
def itemsOf (delivered : Rows String DeliveredItem) : List DeliveredItem :=
  (inKeyOrder delivered).map Prod.snd

/-- The row that `save_session_identities` writes. -/
def savedRow (budgetTokens : Nat) (currentTurn : UInt32) (delivered : Rows String DeliveredItem)
    (trajectory : List DeliveryIdentity) : SessionRow where
  budgetTokens := budgetTokens
  currentTurn := currentTurn.toNat
  delivered := some (collectByIdentity (itemsOf delivered))
  trajectory := .identities trajectory

/-- `save_session_identities`; `budget_tokens` is a `usize` and the column an `i64`. -/
def saveSessionIdentities (table : SessionTable) (corpusId sessionId : String)
    (budgetTokens : Nat) (currentTurn : UInt32) (delivered : Rows String DeliveredItem)
    (trajectory : List DeliveryIdentity) : Except StorageError SessionTable :=
  if fitsInteger budgetTokens then
    .ok (table.insert (corpusId, sessionId)
      (savedRow budgetTokens currentTurn delivered trajectory))
  else .error ⟨"integer out of range"⟩

/-- `if item.corpus_id == "primary" { item.corpus_id = corpus_id }`. -/
def relocate (corpusId : String) (item : DeliveredItem) : DeliveredItem :=
  if item.corpusId = "primary" then { item with corpusId := corpusId } else item

/-- The same, of an entry of the trajectory. -/
def relocateIdentity (corpusId : String) (identity : DeliveryIdentity) : DeliveryIdentity :=
  if identity.corpusId = "primary" then { identity with corpusId := corpusId } else identity

/-- A trajectory of bare content ids takes its identities from the items. -/
def identityOfContent (corpusId : String) (delivered : Rows String DeliveredItem)
    (contentId : String) : DeliveryIdentity :=
  match (itemsOf delivered).find? fun item => item.contentId = contentId with
  | some item => item.identity
  | none => ⟨corpusId, contentId, "section_full"⟩

/-- One row of `load_sessions`; a number that does not fit its type drops the row. -/
def SessionRow.load (row : SessionRow) (corpusId sessionId : String) : Option SavedSession :=
  if 0 ≤ row.budgetTokens ∧ 0 ≤ row.currentTurn ∧ row.currentTurn < 2 ^ 32 then
    let legacy := row.delivered.getD ∅
    let delivered := collectByIdentity ((itemsOf legacy).map (relocate corpusId))
    some
      { sessionId := sessionId
        budgetTokens := row.budgetTokens.toNat
        currentTurn := UInt32.ofNat row.currentTurn.toNat
        delivered := delivered
        trajectory :=
          match row.trajectory with
          | .identities trajectory => trajectory.map (relocateIdentity corpusId)
          | .contentIds trajectory => trajectory.map (identityOfContent corpusId delivered)
          | .unreadable => [] }
  else none

/-- `load_sessions`. -/
def loadSessions (table : SessionTable) (corpusId : String) : List SavedSession :=
  (table.select fun key _ => key.1 = corpusId).filterMap fun e => e.2.load corpusId e.1.2

/-! ## The round trip -/

/-- A session that came back whole. -/
structure CameBack (corpusId sessionId : String) (budgetTokens : Nat) (currentTurn : UInt32)
    (delivered : Rows String DeliveredItem) (trajectory : List DeliveryIdentity)
    (saved : SavedSession) : Prop where
  named : saved.sessionId = sessionId
  budget : saved.budgetTokens = budgetTokens
  turn : saved.currentTurn = currentTurn
  count : saved.delivered.keys.length = delivered.keys.length
  items : ∀ key item, delivered.lookup key = some item →
    saved.delivered.lookup (relocate corpusId item).identity.storageKey =
      some (relocate corpusId item)
  ownKeys : ∀ key item, saved.delivered.lookup key = some item → key = item.identity.storageKey
  trajectory : saved.trajectory = trajectory.map (relocateIdentity corpusId)

/-- Saving and loading gives the session back, once, and leaves the others alone. -/
def RoundTrip (table : SessionTable) (corpusId sessionId : String)
    (budgetTokens : Nat) (currentTurn : UInt32) (delivered : Rows String DeliveredItem)
    (trajectory : List DeliveryIdentity) : Prop :=
  ∃ table', saveSessionIdentities table corpusId sessionId budgetTokens currentTurn delivered
      trajectory = .ok table' ∧
    (∃ saved ∈ loadSessions table' corpusId,
      CameBack corpusId sessionId budgetTokens currentTurn delivered trajectory saved ∧
      ∀ other ∈ loadSessions table' corpusId, other.sessionId = sessionId → other = saved) ∧
    ∀ corpusId' saved, (corpusId', saved.sessionId) ≠ (corpusId, sessionId) →
      (saved ∈ loadSessions table' corpusId' ↔ saved ∈ loadSessions table corpusId')

/-- No two items have one identity in the corpus at hand. -/
def Apart (corpusId : String) (delivered : Rows String DeliveredItem) : Prop :=
  ∀ key item key' item', delivered.lookup key = some item → delivered.lookup key' = some item' →
    relocateIdentity corpusId item.identity = relocateIdentity corpusId item'.identity →
    key = key'

/-! ## Maps that are keyed again -/

section Collected

variable {items : List DeliveredItem} {item : DeliveredItem} {key : String}
  {delivered : Rows String DeliveredItem}

theorem mem_itemsOf : item ∈ itemsOf delivered ↔ ∃ key, delivered.lookup key = some item := by
  unfold itemsOf
  rw [List.mem_map]
  constructor
  · rintro ⟨⟨key, item⟩, mem, rfl⟩
    exact ⟨key, mem_inKeyOrder.mp mem⟩
  · rintro ⟨key, found⟩
    exact ⟨(key, item), mem_inKeyOrder.mpr found, rfl⟩

theorem collected_mem (found : (collectByIdentity items).lookup key = some item) :
    item ∈ items ∧ key = item.identity.storageKey := by
  rw [collectByIdentity, Rows.lookup_upsertAll, AList.lookup_empty, Option.or_none] at found
  obtain ⟨other, mem, same⟩ := List.mem_map.mp (mem_of_lastOf found)
  cases same
  exact ⟨mem, rfl⟩

theorem mem_collected :
    key ∈ collectByIdentity items ↔ ∃ item ∈ items, item.identity.storageKey = key := by
  rw [collectByIdentity, Rows.mem_upsertAll]
  simp

/-- Every item has one of its own identity in the map. -/
theorem exists_collected (mem : item ∈ items) :
    ∃ other ∈ items, other.identity = item.identity ∧
      (collectByIdentity items).lookup item.identity.storageKey = some other := by
  obtain ⟨other, found⟩ := (Rows.mem_iff_lookup _ _).mp (mem_collected.mpr ⟨item, mem, rfl⟩)
  obtain ⟨inside, same⟩ := collected_mem found
  exact ⟨other, inside, (DeliveryIdentity.storageKey_injective same).symm, found⟩

theorem inKeyOrder_nodup (delivered : Rows String DeliveredItem) :
    (inKeyOrder delivered).Nodup := by
  unfold inKeyOrder
  rw [(List.perm_insertionSort _ _).nodup_iff]
  refine List.Nodup.of_map Prod.fst ?_
  rw [List.map_map]
  exact delivered.nodupKeys

theorem length_itemsOf (delivered : Rows String DeliveredItem) :
    (itemsOf delivered).length = delivered.keys.length := by
  simp [itemsOf, inKeyOrder, AList.keys, List.keys]

theorem relocate_identity (corpusId : String) (item : DeliveredItem) :
    (relocate corpusId item).identity = relocateIdentity corpusId item.identity := by
  unfold relocate relocateIdentity
  by_cases legacy : item.corpusId = "primary" <;> simp [DeliveredItem.identity, legacy]

/-- The names the items have in the corpus at hand. -/
def names (corpusId : String) (delivered : Rows String DeliveredItem) : List String :=
  (itemsOf delivered).map fun item => (relocate corpusId item).identity.storageKey

theorem names_nodup_iff {corpusId : String} :
    (names corpusId delivered).Nodup ↔ Apart corpusId delivered := by
  rw [names, itemsOf, List.map_map, List.nodup_map_iff_inj_on (inKeyOrder_nodup delivered)]
  constructor
  · intro injective key item key' item' found found' same
    have := injective (key, item) (mem_inKeyOrder.mpr found) (key', item')
      (mem_inKeyOrder.mpr found') (by simp [relocate_identity, same])
    exact congrArg Prod.fst this
  · rintro apart ⟨key, item⟩ mem ⟨key', item'⟩ mem' same
    have found := mem_inKeyOrder.mp mem
    have found' := mem_inKeyOrder.mp mem'
    have keys := apart key item key' item' found found' (by
      rw [← relocate_identity, ← relocate_identity]
      exact DeliveryIdentity.storageKey_injective same)
    subst keys
    rw [found, Option.some.injEq] at found'
    rw [found']

/-- The map that a load makes of the map a save has made. -/
def reloaded (corpusId : String) (delivered : Rows String DeliveredItem) :
    Rows String DeliveredItem :=
  collectByIdentity
    ((itemsOf (collectByIdentity (itemsOf delivered))).map (relocate corpusId))

theorem mem_saved : item ∈ itemsOf (collectByIdentity items) → item ∈ items := by
  intro mem
  obtain ⟨key, found⟩ := mem_itemsOf.mp mem
  exact (collected_mem found).1

/-- The keys of the reloaded map are the names, each once. -/
theorem mem_reloaded {corpusId : String} :
    key ∈ reloaded corpusId delivered ↔ key ∈ names corpusId delivered := by
  rw [reloaded, mem_collected, names, List.mem_map]
  constructor
  · rintro ⟨_, mem, rfl⟩
    obtain ⟨item, inside, rfl⟩ := List.mem_map.mp mem
    exact ⟨item, mem_saved inside, rfl⟩
  · rintro ⟨item, mem, rfl⟩
    obtain ⟨other, -, same, found⟩ := exists_collected mem
    refine ⟨_, List.mem_map_of_mem (mem_itemsOf.mpr ⟨_, found⟩), ?_⟩
    rw [relocate_identity, relocate_identity, same]

/-- **Counting**: as many items come back as were saved exactly when they are apart. -/
theorem length_reloaded_iff {corpusId : String} :
    (reloaded corpusId delivered).keys.length = delivered.keys.length ↔
      Apart corpusId delivered := by
  have same : (reloaded corpusId delivered).keys.toFinset = (names corpusId delivered).toFinset := by
    ext key
    rw [List.mem_toFinset, List.mem_toFinset, ← AList.mem_keys, mem_reloaded]
  rw [← names_nodup_iff, ← length_itemsOf delivered,
    ← List.toFinset_card_of_nodup (AList.keys_nodup _), same]
  have := Multiset.toFinset_card_eq_card_iff_nodup (m := (names corpusId delivered : Multiset String))
  simpa [names] using this

theorem reloaded_item {corpusId : String} (apart : Apart corpusId delivered)
    (found : delivered.lookup key = some item) :
    (reloaded corpusId delivered).lookup (relocate corpusId item).identity.storageKey =
      some (relocate corpusId item) := by
  have mem : (relocate corpusId item).identity.storageKey ∈ reloaded corpusId delivered :=
    mem_reloaded.mpr (List.mem_map_of_mem (mem_itemsOf.mpr ⟨key, found⟩))
  obtain ⟨other, there⟩ := (Rows.mem_iff_lookup _ _).mp mem
  obtain ⟨inside, same⟩ := collected_mem there
  obtain ⟨old, saved, rfl⟩ := List.mem_map.mp inside
  obtain ⟨key', found'⟩ := mem_itemsOf.mp (mem_saved saved)
  have keys := apart key item key' old found found' (by
    rw [← relocate_identity, ← relocate_identity]
    exact DeliveryIdentity.storageKey_injective same)
  subst keys
  rw [found, Option.some.injEq] at found'
  rw [there, found']

end Collected

/-! ## The table -/

section Loading

variable {table : SessionTable} {corpusId sessionId : String} {saved : SavedSession}

theorem SessionRow.load_sessionId {row : SessionRow} (loaded : row.load corpusId sessionId = some saved) :
    saved.sessionId = sessionId := by
  unfold SessionRow.load at loaded
  split at loaded
  · cases loaded
    rfl
  · cases loaded

theorem mem_loadSessions :
    saved ∈ loadSessions table corpusId ↔
      ∃ row, table.lookup (corpusId, saved.sessionId) = some row ∧
        row.load corpusId saved.sessionId = some saved := by
  unfold loadSessions
  rw [List.mem_filterMap]
  constructor
  · rintro ⟨⟨⟨corpus, session⟩, row⟩, selected, loaded⟩
    obtain ⟨found, here⟩ := (Rows.mem_select _ _ _ _).mp selected
    have : corpus = corpusId := by simpa using here
    subst this
    have named := SessionRow.load_sessionId loaded
    exact ⟨row, by rw [named]; exact found, by rw [named]; exact loaded⟩
  · rintro ⟨row, found, loaded⟩
    exact ⟨((corpusId, saved.sessionId), row), (Rows.mem_select _ _ _ _).mpr ⟨found, by simp⟩, loaded⟩

/-- What a load makes of the row that a save has written. -/
def broughtBack (corpusId sessionId : String) (budgetTokens : Nat) (currentTurn : UInt32)
    (delivered : Rows String DeliveredItem) (trajectory : List DeliveryIdentity) :
    SavedSession where
  sessionId := sessionId
  budgetTokens := budgetTokens
  currentTurn := currentTurn
  delivered := reloaded corpusId delivered
  trajectory := trajectory.map (relocateIdentity corpusId)

theorem load_savedRow (corpusId sessionId : String) (budgetTokens : Nat) (currentTurn : UInt32)
    (delivered : Rows String DeliveredItem) (trajectory : List DeliveryIdentity) :
    (savedRow budgetTokens currentTurn delivered trajectory).load corpusId sessionId =
      some (broughtBack corpusId sessionId budgetTokens currentTurn delivered trajectory) := by
  have turn : currentTurn.toNat < 4294967296 := currentTurn.toNat_lt
  simp [SessionRow.load, savedRow, broughtBack, turn, reloaded]

/-- The one session that a load finds under the key of a save. -/
theorem mem_loadSessions_saved {budgetTokens : Nat} {currentTurn : UInt32}
    {delivered : Rows String DeliveredItem} {trajectory : List DeliveryIdentity}
    (named : saved.sessionId = sessionId) :
    saved ∈ loadSessions (table.insert (corpusId, sessionId)
        (savedRow budgetTokens currentTurn delivered trajectory)) corpusId ↔
      saved = broughtBack corpusId sessionId budgetTokens currentTurn delivered trajectory := by
  rw [mem_loadSessions, named, AList.lookup_insert]
  simp only [Option.some.injEq, exists_eq_left', load_savedRow]
  exact eq_comm

end Loading

/-- **The daemon's round trip.**  A saved session comes back whole, and the other rows
are as they were, exactly when its budget fits the column and no two of its items have
one identity once the legacy corpus is replaced by the corpus at hand. -/
theorem daemonSession_roundTrip_iff (table : SessionTable) (corpusId sessionId : String)
    (budgetTokens : Nat) (currentTurn : UInt32) (delivered : Rows String DeliveredItem)
    (trajectory : List DeliveryIdentity) :
    RoundTrip table corpusId sessionId budgetTokens currentTurn delivered trajectory ↔
      budgetTokens < 2 ^ 63 ∧ Apart corpusId delivered := by
  unfold RoundTrip saveSessionIdentities fitsInteger
  by_cases fits : budgetTokens < 2 ^ 63
  · simp only [fits, decide_true, if_true, Except.ok.injEq, exists_eq_left', true_and]
    constructor
    · rintro ⟨⟨saved, loaded, back, -⟩, -⟩
      rw [mem_loadSessions_saved back.named] at loaded
      subst loaded
      exact length_reloaded_iff.mp back.count
    · intro apart
      refine ⟨⟨broughtBack corpusId sessionId budgetTokens currentTurn delivered trajectory,
        (mem_loadSessions_saved rfl).mpr rfl, ?_, ?_⟩, ?_⟩
      · exact ⟨rfl, rfl, rfl, length_reloaded_iff.mpr apart, fun key item found =>
          reloaded_item apart found, fun key item found => (collected_mem found).2, rfl⟩
      · exact fun other loaded named => (mem_loadSessions_saved named).mp loaded
      · intro corpusId' saved different
        rw [mem_loadSessions, mem_loadSessions, Rows.lookup_insert_if, if_neg different]
  · simp only [fits, decide_false, Bool.false_eq_true, if_false, reduceCtorEq, false_and,
      exists_false]

/-! ## A session that loses an item -/

/-- One section in full, delivered by the corpus `corpusId`. -/
def sectionOf (corpusId : String) (tokens turn : Nat) : DeliveredItem where
  contentId := "guide.md#setup"
  resolution := .section_
  corpusId := corpusId
  deliveryResolution := "section_full"
  tokenCount := tokens
  turnDelivered := turn
  contentHash := "h1"
  compressionTier := .full
  compressedSummary := none

/-- A session that got the section before the corpus had its id, and again afterwards. -/
def deliveredTwice : Rows String DeliveredItem :=
  Rows.upsertAll ∅
    [((sectionOf "primary" 120 1).identity.storageKey, sectionOf "primary" 120 1),
      ((sectionOf "corpus-a" 95 4).identity.storageKey, sectionOf "corpus-a" 95 4)]

theorem lookup_deliveredTwice :
    deliveredTwice.lookup (sectionOf "primary" 120 1).identity.storageKey =
        some (sectionOf "primary" 120 1) ∧
    deliveredTwice.lookup (sectionOf "corpus-a" 95 4).identity.storageKey =
        some (sectionOf "corpus-a" 95 4) := by
  decide

/-- **The section comes back once.** -/
theorem twice_delivered_lost :
    ¬ RoundTrip ∅ "corpus-a" "session-1" 50000 4 deliveredTwice [] := by
  rintro ⟨table, -, ⟨saved, -, back, -⟩, -⟩
  have first := back.items _ _ lookup_deliveredTwice.1
  have second := back.items _ _ lookup_deliveredTwice.2
  have same : (relocate "corpus-a" (sectionOf "primary" 120 1)).identity =
      (relocate "corpus-a" (sectionOf "corpus-a" 95 4)).identity := by
    decide
  rw [same, second, Option.some.injEq] at first
  exact absurd first (by decide)

end Ministr.Daemon
