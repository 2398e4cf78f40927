/-
# Session.Isolation — what a call on one corpus leaves alone in the others

Items of all corpora share one map and one set of stale marks, addressed by the text of a
storage key.  A call addresses some contents of some corpora (`SessionOp.addresses`).  It
changes no key beyond theirs (`apply_within`), and every key is of the corpus and the content
of the item under it (`Session.Addressed`), so the items and the marks of the other corpora
stay as they are, whatever ids collide.

Two calls do less, or more, than they say.

* `invalidate_corpus_sections` and `remove_delivered_resolutions` find items and then go by
  their identities, so they miss an item that does not stand under its own key;
* `invalidate_sections` reads its alert off the whole stale set, other corpora included.

`isolated_iff` says that nothing else goes wrong.
-/
import Ministr.Session.Keys

namespace Ministr

open Ministr.Theory

set_option autoImplicit false

/-! ## What a call is about -/

/-- The contents a call is addressed to, by corpus.  Draining and restoring are about all. -/
def SessionOp.addresses : SessionOp → String → String → Prop
  | .recordDelivery contentId _ _ _ _, corpus, content
  | .removeDelivered contentId, corpus, content
  | .removeDeliveredResolutions contentId, corpus, content
  | .maskToBookmark contentId _, corpus, content
  | .setCompressionTier contentId _ _, corpus, content
  | .setCompressedSummary contentId _ _ _, corpus, content
  | .markStale contentId, corpus, content
  | .clearStale contentId, corpus, content => corpus = primaryCorpusId ∧ content = contentId
  | .recordDeliveryIdentity i _ _ _ _, corpus, content
  | .removeDeliveredIdentity i, corpus, content
  | .maskIdentityToBookmark i _, corpus, content
  | .setIdentityCompressionTier i _ _, corpus, content
  | .setIdentityCompressedSummary i _ _ _, corpus, content
  | .markIdentityStale i, corpus, content => corpus = i.corpusId ∧ content = i.contentId
  | .invalidateSections ids, corpus, content => corpus = primaryCorpusId ∧ content ∈ ids
  | .invalidateIdentities changed, corpus, content =>
      ∃ i ∈ changed, corpus = i.corpusId ∧ content = i.contentId
  | .invalidateCorpusSections corpusId ids, corpus, content => corpus = corpusId ∧ content ∈ ids
  | .drainAlerts, _, _ | .restore _ _ _ _ _ _, _, _ => True
  | _, _, _ => False

/-- The identities of one corpus in the pending alerts. -/
def Session.alertIdentities (s : Session) (corpus : String) : List DeliveryIdentity :=
  (s.pendingAlerts.flatMap CoherenceAlert.staleIdentities).filter fun i => i.corpusId = corpus

/-- Exactly the addressed items become stale. -/
def MarksExactly (op : SessionOp) (s t : Session) : Prop :=
  ∀ k item, s.delivered.lookup k = some item →
    (k ∈ t.stale ↔ k ∈ s.stale ∨ op.addresses item.corpusId item.contentId)

/-- Exactly the addressed items become current. -/
def ClearsExactly (op : SessionOp) (s t : Session) : Prop :=
  ∀ k item, s.delivered.lookup k = some item →
    (k ∈ t.stale ↔ k ∈ s.stale ∧ ¬ op.addresses item.corpusId item.contentId)

/-- Exactly the addressed items go. -/
def RemovesExactly (op : SessionOp) (s t : Session) : Prop :=
  ∀ k item, t.delivered.lookup k = some item ↔
    s.delivered.lookup k = some item ∧ ¬ op.addresses item.corpusId item.contentId

/-- The effect of the calls that address every resolution of a content. -/
def SessionOp.Exact (op : SessionOp) (s t : Session) : Prop :=
  match op with
  | .markStale _ | .invalidateSections _ | .invalidateCorpusSections _ _ => MarksExactly op s t
  | .clearStale _ => ClearsExactly op s t
  | .removeDelivered _ | .removeDeliveredResolutions _ => RemovesExactly op s t
  | _ => True

/-- A call leaves the items, the stale marks and the alerts of the contents and corpora it is
not addressed to as they are, and does to those it is addressed to what it says. -/
structure Session.Isolated (s : Session) (op : SessionOp) : Prop where
  items : ∀ k item, ¬ op.addresses item.corpusId item.contentId →
    ((s.apply op).delivered.lookup k = some item ↔ s.delivered.lookup k = some item)
  stale : ∀ k item, s.delivered.lookup k = some item →
    ¬ op.addresses item.corpusId item.contentId → (k ∈ (s.apply op).stale ↔ k ∈ s.stale)
  alerts : ∀ corpus, (∀ content, ¬ op.addresses corpus content) →
    (s.apply op).alertIdentities corpus = s.alertIdentities corpus
  effect : op.Exact s (s.apply op)

/-- The items the call finds stand under their own keys, and an alert of the primary corpus is
read off when only items of that corpus are stale. -/
def Session.CorpusSafe (s : Session) : SessionOp → Prop
  | .invalidateCorpusSections corpusId ids => ∀ k item, s.delivered.lookup k = some item →
      item.corpusId = corpusId → item.contentId ∈ ids → k = item.identity.storageKey ∨ k ∈ s.stale
  | .removeDelivered contentId | .removeDeliveredResolutions contentId =>
      ∀ k item, s.delivered.lookup k = some item → Session.isPrimary contentId item →
        k = item.identity.storageKey
  | .invalidateSections ids =>
      (∀ k item, s.delivered.lookup k = some item → item.corpusId = primaryCorpusId →
        item.contentId ∉ ids) ∨
      ∀ k item, s.delivered.lookup k = some item → k ∈ s.stale → item.corpusId = primaryCorpusId
  | _ => True

/-! ## Keys -/

/-- Every key is of the corpus and the content of its item; its resolution is the one the
delivery named or the one the item gives. -/
def Session.Addressed (s : Session) : Prop :=
  ∀ k item, s.delivered.lookup k = some item →
    ∃ resolution, k = (⟨item.corpusId, item.contentId, resolution⟩ : DeliveryIdentity).storageKey ∧
      (resolution = item.deliveryResolution ∨ resolution = item.identity.resolution)

theorem Retouches.addressed {s t : Session} (retouches : Retouches s t) (addressed : s.Addressed) :
    t.Addressed := by
  intro k b found
  obtain ⟨a, foundA, same⟩ := retouches.items k b found
  have corpus : b.corpusId = a.corpusId := congrArg DeliveryIdentity.corpusId same.identity
  have content : b.contentId = a.contentId := congrArg DeliveryIdentity.contentId same.identity
  rw [corpus, content, same.identity, same.named]
  exact addressed k a foundA

theorem apply_addressed {s : Session} (addressed : s.Addressed) (op : SessionOp) :
    (s.apply op).Addressed := by
  rcases apply_cases s op with retouches | ⟨i, resolution, tokens, turn, hash, eq, -⟩ |
    ⟨id, budget, policy, items, accesses, turn, rfl⟩
  · exact retouches.addressed addressed
  · rw [eq]
    intro k item found
    simp only [Session.recordDeliveryIdentity] at found
    rw [Rows.lookup_insert_if] at found
    split at found
    · rename_i here
      cases found
      exact ⟨i.resolution, here, .inl rfl⟩
    · exact addressed k item found
  · intro k item found
    have keyed := (restore_consistent id budget policy items accesses turn).1 k item found
    exact ⟨_, keyed, .inr rfl⟩

/-- A key that some item calls its own is the key of the item under it. -/
theorem Session.Addressed.own_key {s : Session} (addressed : s.Addressed) {k : String}
    {item other : DeliveredItem} (found : s.delivered.lookup k = some item)
    (key : k = other.identity.storageKey) : k = item.identity.storageKey := by
  obtain ⟨resolution, here, named⟩ := addressed k item found
  have same := DeliveryIdentity.storageKey_injective (here.symm.trans key)
  have given : resolution ≠ "" := by
    have eq : resolution = other.identity.resolution := congrArg DeliveryIdentity.resolution same
    rw [eq]
    exact other.identity_resolution_ne_empty
  have own : resolution = item.identity.resolution := by
    rcases named with rfl | own
    · simp [DeliveredItem.identity, given]
    · exact own
  rw [here, own]
  rfl

/-- Outside the touched keys nothing changes, and new alerts are about touched keys. -/
structure Within (touched : String → Prop) (s t : Session) : Prop where
  items : ∀ k, ¬ touched k → t.delivered.lookup k = s.delivered.lookup k
  stale : ∀ k, ¬ touched k → (k ∈ t.stale ↔ k ∈ s.stale)
  alerts : ∃ added, t.pendingAlerts = s.pendingAlerts ++ added ∧
    ∀ i ∈ added.flatMap CoherenceAlert.staleIdentities, touched i.storageKey

/-- A call that raises no alert. -/
theorem Within.quiet {touched : String → Prop} {s t : Session}
    (items : ∀ k, ¬ touched k → t.delivered.lookup k = s.delivered.lookup k)
    (stale : ∀ k, ¬ touched k → (k ∈ t.stale ↔ k ∈ s.stale))
    (alerts : t.pendingAlerts = s.pendingAlerts) : Within touched s t :=
  ⟨items, stale, [], by rw [alerts, List.append_nil], fun i mem => absurd mem List.not_mem_nil⟩

theorem Within.refl (touched : String → Prop) (s : Session) : Within touched s s :=
  .quiet (fun _ _ => rfl) (fun _ _ => Iff.rfl) rfl

theorem Within.trans {touched : String → Prop} {s t u : Session} (first : Within touched s t)
    (second : Within touched t u) : Within touched s u := by
  obtain ⟨added, alerts, about⟩ := first.alerts
  obtain ⟨added', alerts', about'⟩ := second.alerts
  refine ⟨fun k out => (second.items k out).trans (first.items k out),
    fun k out => (second.stale k out).trans (first.stale k out), added ++ added', ?_, ?_⟩
  · rw [alerts', alerts, List.append_assoc]
  · intro i mem
    rw [List.flatMap_append] at mem
    exact (List.mem_append.mp mem).elim (about i) (about' i)

/-! ## Each call stays within its keys -/

section Within

variable {touched : String → Prop} {s : Session}

theorem within_insert {k : String} (inside : touched k) (item : DeliveredItem)
    (metrics : SessionMetrics) :
    Within touched s { s with delivered := s.delivered.insert k item, metrics } := by
  refine .quiet (fun k' out => ?_) (fun _ _ => Iff.rfl) rfl
  have other : k' ≠ k := fun same => out (same ▸ inside)
  simp only [Rows.lookup_insert_if, if_neg other]

theorem recordDeliveryIdentity_within {i : DeliveryIdentity} (inside : touched i.storageKey)
    (resolution : Resolution) (tokens turn : Nat) (hash : String) :
    Within touched s (s.recordDeliveryIdentity i resolution tokens turn hash) := by
  refine .quiet (fun k out => ?_) (fun k out => ?_) rfl
  · have other : k ≠ i.storageKey := fun same => out (same ▸ inside)
    simp only [Session.recordDeliveryIdentity, Rows.lookup_insert_if, if_neg other]
  · have other : k ≠ i.storageKey := fun same => out (same ▸ inside)
    simp only [Session.recordDeliveryIdentity, mem_dropKey, and_iff_left other]

theorem removeDeliveredIdentity_within {i : DeliveryIdentity} (inside : touched i.storageKey) :
    Within touched s (s.removeDeliveredIdentity i).1 := by
  have other : ∀ k, ¬ touched k → k ≠ i.storageKey := fun k out same => out (same ▸ inside)
  unfold Session.removeDeliveredIdentity
  dsimp only
  split
  · exact .quiet (fun _ _ => rfl) (fun k out => mem_dropKey.trans (and_iff_left (other k out))) rfl
  · refine .quiet (fun k out => ?_)
      (fun k out => mem_dropKey.trans (and_iff_left (other k out))) rfl
    simp only [Rows.lookup_erase_if, if_neg (other k out)]

theorem removeAll_within {ids : List DeliveryIdentity} (inside : ∀ i ∈ ids, touched i.storageKey) :
    Within touched s (s.removeAll ids).1 := by
  induction ids generalizing s with
  | nil => exact .refl touched s
  | cons i ids ih =>
      exact (removeDeliveredIdentity_within (inside i List.mem_cons_self)).trans
        (ih fun j mem => inside j (List.mem_cons_of_mem _ mem))

theorem maskIdentityToBookmark_within {i : DeliveryIdentity} (inside : touched i.storageKey)
    (path : List String) : Within touched s (s.maskIdentityToBookmark i path).1 := by
  unfold Session.maskIdentityToBookmark
  split
  · exact .refl touched s
  · split
    · exact .refl touched s
    · exact within_insert inside _ _

theorem setIdentityCompressionTier_within {i : DeliveryIdentity} (inside : touched i.storageKey)
    (tier : CompressionTier) (n : Nat) :
    Within touched s (s.setIdentityCompressionTier i tier n).1 := by
  unfold Session.setIdentityCompressionTier
  split
  · exact .refl touched s
  · exact within_insert inside _ _

theorem setIdentityCompressedSummary_within {i : DeliveryIdentity} (inside : touched i.storageKey)
    (summary : String) (tier : CompressionTier) (n : Nat) :
    Within touched s (s.setIdentityCompressedSummary i summary tier n).1 := by
  unfold Session.setIdentityCompressedSummary
  split
  · exact .refl touched s
  · exact within_insert inside _ _

/-- The bare addressing reaches an identity of the primary corpus and the content, if any. -/
theorem atPrimary_cases {R : Type} (addressed : s.Addressed) (contentId : String)
    (act : DeliveryIdentity → Session × Option R) :
    (s.atPrimary contentId act).1 = s ∨
      ∃ resolution, s.atPrimary contentId act = act (.primary contentId resolution) := by
  unfold Session.atPrimary
  split
  · exact .inl rfl
  · rename_i key chosen
    obtain ⟨⟨k, item⟩, found, rfl⟩ := Option.map_eq_some_iff.mp chosen
    have holds := List.find?_some found
    have primary := isPrimary_iff.mp holds
    obtain ⟨resolution, key, -⟩ :=
      addressed k item (mem_inKeyOrder.mp (List.mem_of_find?_eq_some found))
    simp only at primary key
    refine .inr ⟨resolution, ?_⟩
    rw [key, DeliveryIdentity.fromStorageKey_storageKey, primary.1, primary.2]
    rfl

theorem atPrimary_within {R : Type} (addressed : s.Addressed) {contentId : String}
    (inside : ∀ resolution, touched (DeliveryIdentity.primary contentId resolution).storageKey)
    {act : DeliveryIdentity → Session × Option R}
    (each : ∀ i : DeliveryIdentity, touched i.storageKey → Within touched s (act i).1) :
    Within touched s (s.atPrimary contentId act).1 := by
  rcases atPrimary_cases addressed contentId act with same | ⟨resolution, same⟩
  · rw [same]
    exact .refl touched s
  · rw [same]
    exact each _ (inside resolution)

theorem primaryKeys_touched (addressed : s.Addressed) {contentId : String}
    (inside : ∀ resolution, touched (DeliveryIdentity.primary contentId resolution).storageKey)
    {k : String} (mem : k ∈ s.primaryKeys contentId) : touched k := by
  obtain ⟨item, found, primary⟩ := mem_primaryKeys_iff.mp mem
  obtain ⟨resolution, rfl, -⟩ := addressed k item found
  obtain ⟨corpus, content⟩ := isPrimary_iff.mp primary
  rw [corpus, content]
  exact inside resolution

theorem markStale_within (addressed : s.Addressed) {contentId : String}
    (inside : ∀ resolution, touched (DeliveryIdentity.primary contentId resolution).storageKey) :
    Within touched s (s.markStale contentId).1 := by
  refine .quiet (fun _ _ => rfl) (fun k out => ?_) rfl
  have other : k ∉ s.primaryKeys contentId := fun mem => out (primaryKeys_touched addressed inside mem)
  exact mem_foldl_addKey_iff.trans (or_iff_right other)

theorem markIdentityStale_within {i : DeliveryIdentity} (inside : touched i.storageKey) :
    Within touched s (s.markIdentityStale i).1 := by
  unfold Session.markIdentityStale
  split
  · refine .quiet (fun _ _ => rfl) (fun k out => ?_) rfl
    have other : k ≠ i.storageKey := fun same => out (same ▸ inside)
    exact mem_addKey.trans (or_iff_right other)
  · exact .refl touched s

theorem markIdentities_within {ids : List DeliveryIdentity}
    (inside : ∀ i ∈ ids, touched i.storageKey) : Within touched s (s.markIdentities ids).1 := by
  induction ids generalizing s with
  | nil => exact .refl touched s
  | cons i ids ih =>
      exact (markIdentityStale_within (inside i List.mem_cons_self)).trans
        (ih fun j mem => inside j (List.mem_cons_of_mem _ mem))

theorem markIdentities_marked {ids : List DeliveryIdentity} :
    ∀ i ∈ (s.markIdentities ids).2, i ∈ ids := by
  induction ids generalizing s with
  | nil => exact fun i mem => mem
  | cons j ids ih =>
      intro i mem
      simp only [Session.markIdentities] at mem
      split at mem
      · rcases List.mem_cons.mp mem with rfl | later
        · exact List.mem_cons_self
        · exact List.mem_cons_of_mem _ (ih i later)
      · exact List.mem_cons_of_mem _ (ih i mem)

theorem invalidateIdentities_within {ids : List DeliveryIdentity}
    (inside : ∀ i ∈ ids, touched i.storageKey) :
    Within touched s (s.invalidateIdentities ids).1 := by
  have marked : Within touched s (s.markIdentities ids).1 := markIdentities_within inside
  unfold Session.invalidateIdentities
  dsimp only
  split
  · exact marked
  · refine marked.trans ⟨fun _ _ => rfl, fun _ _ => Iff.rfl, _, rfl, fun i mem => ?_⟩
    exact inside i (markIdentities_marked i (by simpa using mem))

end Within

/-- The keys of the contents a call is addressed to. -/
def SessionOp.Touches (op : SessionOp) (k : String) : Prop :=
  ∃ i : DeliveryIdentity, op.addresses i.corpusId i.contentId ∧ k = i.storageKey

/-- The identities of the items `invalidate_corpus_sections` finds. -/
def Session.corpusIdentities (s : Session) (corpusId : String) (ids : List String) :
    List DeliveryIdentity :=
  ((inKeyOrder s.delivered).filter fun e =>
    e.2.corpusId = corpusId && ids.contains e.2.contentId).map fun e => e.2.identity

theorem mem_corpusIdentities {s : Session} {corpusId : String} {ids : List String}
    {i : DeliveryIdentity} :
    i ∈ s.corpusIdentities corpusId ids ↔ ∃ k item, s.delivered.lookup k = some item ∧
      item.corpusId = corpusId ∧ item.contentId ∈ ids ∧ i = item.identity := by
  simp only [Session.corpusIdentities, List.mem_map, List.mem_filter, Prod.exists, mem_inKeyOrder,
    Bool.and_eq_true, decide_eq_true_eq, List.contains_iff_mem]
  constructor
  · rintro ⟨k, item, ⟨found, corpus, content⟩, rfl⟩
    exact ⟨k, item, found, corpus, content, rfl⟩
  · rintro ⟨k, item, found, corpus, content, rfl⟩
    exact ⟨k, item, ⟨found, corpus, content⟩, rfl⟩

/-- The identities of the primary items of a content, as `remove_delivered_resolutions` sorts
them. -/
def Session.primaryIdentities (s : Session) (contentId : String) : List DeliveryIdentity :=
  (((inKeyOrder s.delivered).filter fun e => Session.isPrimary contentId e.2).map
    fun e => e.2.identity).insertionSort fun a b => a.storageKey ≤ b.storageKey

theorem mem_primaryIdentities {s : Session} {contentId : String} {i : DeliveryIdentity} :
    i ∈ s.primaryIdentities contentId ↔ ∃ k item, s.delivered.lookup k = some item ∧
      Session.isPrimary contentId item = true ∧ i = item.identity := by
  simp only [Session.primaryIdentities, List.mem_insertionSort, List.mem_map, List.mem_filter,
    Prod.exists, mem_inKeyOrder]
  constructor
  · rintro ⟨k, item, ⟨found, primary⟩, rfl⟩
    exact ⟨k, item, found, primary, rfl⟩
  · rintro ⟨k, item, found, primary, rfl⟩
    exact ⟨k, item, ⟨found, primary⟩, rfl⟩

/-- The calls whose every trace is under a key of a content they are addressed to. -/
def SessionOp.Framed : SessionOp → Prop
  | .invalidateSections _ | .drainAlerts | .restore _ _ _ _ _ _ => False
  | _ => True

/-- **A call changes nothing beyond the keys of the contents it is addressed to**; the alert of
`invalidate_sections` is another matter. -/
theorem apply_within {s : Session} (addressed : s.Addressed) (op : SessionOp) (framed : op.Framed) :
    Within op.Touches s (s.apply op) := by
  have identity : ∀ i : DeliveryIdentity, op.addresses i.corpusId i.contentId →
      op.Touches i.storageKey := fun i addressed => ⟨i, addressed, rfl⟩
  have primary : ∀ contentId, op.addresses primaryCorpusId contentId →
      ∀ r, op.Touches (DeliveryIdentity.primary contentId r).storageKey :=
    fun contentId addressed r => ⟨_, addressed, rfl⟩
  have removed : ∀ contentId, (∀ r, op.Touches (DeliveryIdentity.primary contentId r).storageKey) →
      Within op.Touches s (s.removeAll (s.primaryIdentities contentId)).1 := by
    intro contentId inside
    refine removeAll_within fun i mem => ?_
    obtain ⟨k, item, found, primary, rfl⟩ := mem_primaryIdentities.mp mem
    obtain ⟨corpus, content⟩ := isPrimary_iff.mp primary
    have same : item.identity = .primary contentId item.identity.resolution := by
      simp [DeliveredItem.identity, DeliveryIdentity.primary, corpus, content]
    rw [same]
    exact inside _
  cases op with
  | recordDelivery contentId resolution tokens turn hash =>
      exact recordDeliveryIdentity_within (primary contentId ⟨rfl, rfl⟩ _) _ _ _ _
  | recordDeliveryIdentity i resolution tokens turn hash =>
      exact recordDeliveryIdentity_within (identity i ⟨rfl, rfl⟩) _ _ _ _
  | removeDelivered contentId =>
      exact removed contentId (primary contentId ⟨rfl, rfl⟩)
  | removeDeliveredResolutions contentId =>
      exact removed contentId (primary contentId ⟨rfl, rfl⟩)
  | removeDeliveredIdentity i =>
      exact removeDeliveredIdentity_within (identity i ⟨rfl, rfl⟩)
  | maskToBookmark contentId path =>
      exact atPrimary_within addressed (primary contentId ⟨rfl, rfl⟩)
        fun i inside => maskIdentityToBookmark_within inside path
  | maskIdentityToBookmark i path =>
      exact maskIdentityToBookmark_within (identity i ⟨rfl, rfl⟩) path
  | setCompressionTier contentId tier n =>
      exact atPrimary_within addressed (primary contentId ⟨rfl, rfl⟩)
        fun i inside => setIdentityCompressionTier_within inside tier n
  | setIdentityCompressionTier i tier n =>
      exact setIdentityCompressionTier_within (identity i ⟨rfl, rfl⟩) tier n
  | setCompressedSummary contentId summary tier n =>
      exact atPrimary_within addressed (primary contentId ⟨rfl, rfl⟩)
        fun i inside => setIdentityCompressedSummary_within inside summary tier n
  | setIdentityCompressedSummary i summary tier n =>
      exact setIdentityCompressedSummary_within (identity i ⟨rfl, rfl⟩) summary tier n
  | markStale contentId =>
      exact markStale_within addressed (primary contentId ⟨rfl, rfl⟩)
  | markIdentityStale i => exact markIdentityStale_within (identity i ⟨rfl, rfl⟩)
  | clearStale contentId =>
      refine .quiet (fun _ _ => rfl) (fun k out => ?_) rfl
      have other : k ∉ s.primaryKeys contentId := fun mem =>
        out (primaryKeys_touched addressed (primary contentId ⟨rfl, rfl⟩) mem)
      exact mem_foldl_dropKey_iff.trans (and_iff_left other)
  | invalidateSections ids => exact framed.elim
  | invalidateIdentities changed =>
      exact invalidateIdentities_within fun i mem => identity i ⟨i, mem, rfl, rfl⟩
  | invalidateCorpusSections corpusId ids =>
      refine invalidateIdentities_within fun i mem => ?_
      obtain ⟨k, item, found, corpus, content, rfl⟩ := mem_corpusIdentities.mp mem
      exact identity _ ⟨corpus, content⟩
  | drainAlerts => exact framed.elim
  | restore id budget policy items accesses turn => exact framed.elim
  -- the counters, the queries and the flushed ids
  | _ => exact .quiet (fun _ _ => rfl) (fun _ _ => Iff.rfl) rfl

/-! ## The exact effects -/

section Effects

variable {s : Session}

theorem mem_markStale {contentId k : String} :
    k ∈ (s.markStale contentId).1.stale ↔ k ∈ s.primaryKeys contentId ∨ k ∈ s.stale :=
  mem_foldl_addKey_iff

theorem mem_markSections {ids : List String} {k : String} :
    k ∈ (s.markSections ids).1.stale ↔ (∃ id ∈ ids, k ∈ s.primaryKeys id) ∨ k ∈ s.stale := by
  induction ids generalizing s with
  | nil => simp [Session.markSections]
  | cons id ids ih =>
      -- marking leaves the items, and so the keys of the later sections, alone
      have step : k ∈ (s.markSections (id :: ids)).1.stale ↔
          (∃ id' ∈ ids, k ∈ s.primaryKeys id') ∨ k ∈ (s.markStale id).1.stale := by
        exact ih (s := (s.markStale id).1)
      rw [step, mem_markStale, List.exists_mem_cons_iff]
      exact or_left_comm.trans or_assoc.symm

theorem markSections_delivered (s : Session) (ids : List String) :
    (s.markSections ids).1.delivered = s.delivered := by
  induction ids generalizing s with
  | nil => rfl
  | cons id ids ih => exact ih (s.markStale id).1

theorem markSections_pendingAlerts (s : Session) (ids : List String) :
    (s.markSections ids).1.pendingAlerts = s.pendingAlerts := by
  induction ids generalizing s with
  | nil => rfl
  | cons id ids ih => exact ih (s.markStale id).1

theorem markSections_marked (s : Session) (ids : List String) :
    (s.markSections ids).2 = [] ↔ ∀ id ∈ ids, s.primaryKeys id = [] := by
  induction ids generalizing s with
  | nil => simp [Session.markSections]
  | cons id ids ih =>
      have later := ih (s.markStale id).1
      have same : ∀ id', (s.markStale id).1.primaryKeys id' = s.primaryKeys id' := fun _ => rfl
      simp only [same] at later
      have whole : (s.markSections (id :: ids)).2 =
          if !(s.primaryKeys id).isEmpty then id :: ((s.markStale id).1.markSections ids).2
          else ((s.markStale id).1.markSections ids).2 := rfl
      rw [List.forall_mem_cons, ← later, whole, ← List.isEmpty_iff (l := s.primaryKeys id)]
      cases (s.primaryKeys id).isEmpty with
      | true => simp
      | false => simp

theorem mem_markIdentities {ids : List DeliveryIdentity} {k : String} :
    k ∈ (s.markIdentities ids).1.stale ↔
      (k ∈ s.delivered ∧ ∃ i ∈ ids, k = i.storageKey) ∨ k ∈ s.stale := by
  induction ids generalizing s with
  | nil => simp [Session.markIdentities]
  | cons i ids ih =>
      have step := ih (s := (s.markIdentityStale i).1)
      have delivered : (s.markIdentityStale i).1.delivered = s.delivered := by
        unfold Session.markIdentityStale
        split <;> rfl
      have marked : k ∈ (s.markIdentityStale i).1.stale ↔
          (k ∈ s.delivered ∧ k = i.storageKey) ∨ k ∈ s.stale := by
        unfold Session.markIdentityStale
        split
        · rename_i present
          rw [mem_addKey]
          constructor
          · rintro (rfl | old)
            · exact .inl ⟨present, rfl⟩
            · exact .inr old
          · exact fun mem => mem.imp_left fun both => both.2
        · rename_i absent
          constructor
          · exact .inr
          · rintro (⟨present, rfl⟩ | old)
            · exact absurd present absent
            · exact old
      have whole : k ∈ (s.markIdentities (i :: ids)).1.stale ↔
          k ∈ ((s.markIdentityStale i).1.markIdentities ids).1.stale := Iff.rfl
      rw [whole, step, marked, delivered, List.exists_mem_cons_iff, and_or_left]
      exact or_left_comm.trans or_assoc.symm

theorem mem_invalidateIdentities {ids : List DeliveryIdentity} {k : String} :
    k ∈ (s.invalidateIdentities ids).1.stale ↔
      (k ∈ s.delivered ∧ ∃ i ∈ ids, k = i.storageKey) ∨ k ∈ s.stale := by
  rw [← mem_markIdentities]
  unfold Session.invalidateIdentities
  dsimp only
  split <;> exact Iff.rfl

theorem lookup_removeAll {ids : List DeliveryIdentity} {k : String} {item : DeliveredItem} :
    (s.removeAll ids).1.delivered.lookup k = some item ↔
      s.delivered.lookup k = some item ∧ ∀ i ∈ ids, k ≠ i.storageKey := by
  induction ids generalizing s with
  | nil => simp [Session.removeAll]
  | cons i ids ih =>
      have one : (s.removeDeliveredIdentity i).1.delivered.lookup k = some item ↔
          s.delivered.lookup k = some item ∧ k ≠ i.storageKey := by
        unfold Session.removeDeliveredIdentity
        dsimp only
        split
        · rename_i absent
          refine ⟨fun found => ⟨found, ?_⟩, fun both => both.1⟩
          rintro rfl
          rw [absent] at found
          cases found
        · simp only [Rows.lookup_erase_if]
          split
          · rename_i here
            simp [here]
          · rename_i other
            simp [other]
      have whole : (s.removeAll (i :: ids)).1 = ((s.removeDeliveredIdentity i).1.removeAll ids).1 := rfl
      rw [whole, ih, one, List.forall_mem_cons, and_assoc]

end Effects

/-! ## Isolation -/

section Isolation

variable {s : Session}

/-- The items and the stale marks of what is not addressed. -/
theorem Within.frame {op : SessionOp} {t : Session} (addressed : s.Addressed)
    (addressed' : t.Addressed) (within : Within op.Touches s t) {k : String} {item : DeliveredItem}
    (other : ¬ op.addresses item.corpusId item.contentId) :
    (t.delivered.lookup k = some item ↔ s.delivered.lookup k = some item) ∧
      (s.delivered.lookup k = some item → (k ∈ t.stale ↔ k ∈ s.stale)) := by
  have outside : ∀ {u : Session}, u.Addressed → u.delivered.lookup k = some item →
      ¬ op.Touches k := by
    rintro u ok found ⟨i, about, rfl⟩
    obtain ⟨resolution, key, -⟩ := ok _ item found
    cases DeliveryIdentity.storageKey_injective key
    exact other about
  refine ⟨⟨fun found => ?_, fun found => ?_⟩, fun found => within.stale k (outside addressed found)⟩
  · rw [← within.items k (outside addressed' found)]
    exact found
  · rw [within.items k (outside addressed found)]
    exact found

/-- The alerts of a corpus none of whose contents is addressed. -/
theorem Within.alertIdentities {op : SessionOp} {t : Session} (within : Within op.Touches s t)
    {corpus : String} (other : ∀ content, ¬ op.addresses corpus content) :
    t.alertIdentities corpus = s.alertIdentities corpus := by
  obtain ⟨added, alerts, about⟩ := within.alerts
  have none : (added.flatMap CoherenceAlert.staleIdentities).filter
      (fun i => i.corpusId = corpus) = [] := by
    refine List.filter_eq_nil_iff.mpr fun i mem here => ?_
    obtain ⟨j, addresses, key⟩ := about i mem
    cases DeliveryIdentity.storageKey_injective key
    exact other i.contentId (of_decide_eq_true here ▸ addresses)
  rw [Session.alertIdentities, alerts, List.flatMap_append, List.filter_append, none,
    List.append_nil]
  rfl

/-- A call that stays within its keys is isolated if it has its effect. -/
theorem Within.isolated {op : SessionOp} (addressed : s.Addressed)
    (within : Within op.Touches s (s.apply op)) (effect : op.Exact s (s.apply op)) :
    s.Isolated op :=
  ⟨fun _ _ other => (within.frame addressed (apply_addressed addressed op) other).1,
    fun _ _ found other => (within.frame addressed (apply_addressed addressed op) other).2 found,
    fun _ other => within.alertIdentities other, effect⟩

theorem invalidateCorpusSections_exact_iff (addressed : s.Addressed) (corpusId : String)
    (ids : List String) :
    (SessionOp.invalidateCorpusSections corpusId ids).Exact s
        (s.apply (.invalidateCorpusSections corpusId ids)) ↔
      s.CorpusSafe (.invalidateCorpusSections corpusId ids) := by
  have marked : ∀ k, k ∈ (s.apply (.invalidateCorpusSections corpusId ids)).stale ↔
      (k ∈ s.delivered ∧ ∃ i ∈ s.corpusIdentities corpusId ids, k = i.storageKey) ∨ k ∈ s.stale :=
    fun k => mem_invalidateIdentities
  constructor
  · intro marks k item found corpus content
    rcases (marked k).mp ((marks k item found).mpr (.inr ⟨corpus, content⟩)) with
      ⟨-, i, listed, key⟩ | old
    · obtain ⟨k', item', -, -, -, rfl⟩ := mem_corpusIdentities.mp listed
      exact .inl (addressed.own_key found key)
    · exact .inr old
  · intro safe k item found
    rw [marked k]
    constructor
    · rintro (⟨-, i, listed, rfl⟩ | old)
      · obtain ⟨k', item', -, corpus, content, rfl⟩ := mem_corpusIdentities.mp listed
        obtain ⟨resolution, key, -⟩ := addressed _ item found
        have same := DeliveryIdentity.storageKey_injective key
        have sameCorpus : item'.corpusId = item.corpusId := congrArg DeliveryIdentity.corpusId same
        have sameContent : item'.contentId = item.contentId :=
          congrArg DeliveryIdentity.contentId same
        exact .inr ⟨sameCorpus ▸ corpus, sameContent ▸ content⟩
      · exact .inl old
    · rintro (old | ⟨corpus, content⟩)
      · exact .inr old
      · rcases safe k item found corpus content with key | old
        · refine .inl ⟨(Rows.mem_iff_lookup _ _).mpr ⟨item, found⟩, _, ?_, key⟩
          exact mem_corpusIdentities.mpr ⟨k, item, found, corpus, content, rfl⟩
        · exact .inr old

theorem removeResolutions_exact_iff (addressed : s.Addressed) (contentId : String) :
    (∀ k item, (s.removeAll (s.primaryIdentities contentId)).1.delivered.lookup k = some item ↔
        s.delivered.lookup k = some item ∧
          ¬ (item.corpusId = primaryCorpusId ∧ item.contentId = contentId)) ↔
      ∀ k item, s.delivered.lookup k = some item → Session.isPrimary contentId item →
        k = item.identity.storageKey := by
  constructor
  · intro removes k item found primary
    by_contra foreign
    have kept : ∀ i ∈ s.primaryIdentities contentId, k ≠ i.storageKey := by
      intro i listed key
      obtain ⟨k', item', -, -, rfl⟩ := mem_primaryIdentities.mp listed
      exact foreign (addressed.own_key found key)
    exact ((removes k item).mp (lookup_removeAll.mpr ⟨found, kept⟩)).2 (isPrimary_iff.mp primary)
  · intro safe k item
    rw [lookup_removeAll]
    refine and_congr_right fun found => ⟨fun kept primary => ?_, fun other i listed key => ?_⟩
    · have own := safe k item found (isPrimary_iff.mpr primary)
      exact kept _ (mem_primaryIdentities.mpr ⟨k, item, found, isPrimary_iff.mpr primary, rfl⟩) own
    · obtain ⟨k', item', -, primary, rfl⟩ := mem_primaryIdentities.mp listed
      obtain ⟨corpus, content⟩ := isPrimary_iff.mp primary
      obtain ⟨resolution, here, -⟩ := addressed k item found
      have same := DeliveryIdentity.storageKey_injective (here.symm.trans key)
      have sameCorpus : item.corpusId = item'.corpusId := congrArg DeliveryIdentity.corpusId same
      have sameContent : item.contentId = item'.contentId :=
        congrArg DeliveryIdentity.contentId same
      exact other ⟨sameCorpus.trans corpus, sameContent.trans content⟩

theorem mem_staleIdentities {i : DeliveryIdentity} :
    i ∈ s.staleIdentities ↔
      ∃ k item, k ∈ s.stale ∧ s.delivered.lookup k = some item ∧ i = item.identity := by
  simp only [Session.staleIdentities, List.mem_filterMap, Option.map_eq_some_iff]
  constructor
  · rintro ⟨k, marked, item, found, rfl⟩
    exact ⟨k, item, marked, found, rfl⟩
  · rintro ⟨k, item, marked, found, rfl⟩
    exact ⟨k, marked, item, found, rfl⟩

theorem primaryKeys_of_found {k id : String} {item : DeliveredItem}
    (found : s.delivered.lookup k = some item) :
    k ∈ s.primaryKeys id ↔ item.corpusId = primaryCorpusId ∧ item.contentId = id := by
  rw [mem_primaryKeys_iff, ← isPrimary_iff]
  constructor
  · rintro ⟨item', found', primary⟩
    cases found.symm.trans found'
    exact primary
  · exact fun primary => ⟨item, found, primary⟩

theorem invalidateSections_delivered (s : Session) (ids : List String) :
    (s.invalidateSections ids).1.delivered = s.delivered := by
  rw [← markSections_delivered s ids]
  unfold Session.invalidateSections
  dsimp only
  split <;> rfl

theorem invalidateSections_marks (ids : List String) :
    MarksExactly (.invalidateSections ids) s (s.invalidateSections ids).1 := by
  intro k item found
  have stale : k ∈ (s.invalidateSections ids).1.stale ↔ k ∈ (s.markSections ids).1.stale := by
    unfold Session.invalidateSections
    dsimp only
    split <;> exact Iff.rfl
  rw [stale, mem_markSections, or_comm]
  refine or_congr_right ⟨?_, ?_⟩
  · rintro ⟨id, listed, mem⟩
    obtain ⟨corpus, rfl⟩ := (primaryKeys_of_found found).mp mem
    exact ⟨corpus, listed⟩
  · rintro ⟨corpus, content⟩
    exact ⟨item.contentId, content, (primaryKeys_of_found found).mpr ⟨corpus, rfl⟩⟩

/-- No addressed item is delivered exactly when nothing is marked. -/
theorem markSections_marked_iff (ids : List String) :
    (s.markSections ids).2 = [] ↔ ∀ k item, s.delivered.lookup k = some item →
      item.corpusId = primaryCorpusId → item.contentId ∉ ids := by
  rw [markSections_marked]
  constructor
  · intro none k item found corpus content
    have mem := (primaryKeys_of_found found).mpr ⟨corpus, rfl⟩
    rw [none _ content] at mem
    cases mem
  · intro none id listed
    refine List.eq_nil_iff_forall_not_mem.mpr fun k mem => ?_
    obtain ⟨item, found, primary⟩ := mem_primaryKeys_iff.mp mem
    obtain ⟨corpus, rfl⟩ := isPrimary_iff.mp primary
    exact none k item found corpus listed

/-- The new alert lists the stale identities of every corpus. -/
theorem invalidateSections_alertIdentities {ids : List String}
    (marked : (s.markSections ids).2 ≠ []) (corpus : String) :
    (s.invalidateSections ids).1.alertIdentities corpus =
      s.alertIdentities corpus ++
        (s.markSections ids).1.staleIdentities.filter fun i => i.corpusId = corpus := by
  have some : ¬ (s.markSections ids).2.isEmpty = true := fun empty =>
    marked (List.isEmpty_iff.mp empty)
  simp only [Session.invalidateSections, if_neg some, Session.alertIdentities,
    markSections_pendingAlerts, List.flatMap_append, List.filter_append, List.flatMap_cons,
    List.flatMap_nil, List.append_nil]

theorem invalidateSections_quiet {ids : List String} (unmarked : (s.markSections ids).2 = [])
    (corpus : String) :
    (s.invalidateSections ids).1.alertIdentities corpus = s.alertIdentities corpus := by
  have empty : (s.markSections ids).2.isEmpty = true := List.isEmpty_iff.mpr unmarked
  simp only [Session.invalidateSections, if_pos empty, Session.alertIdentities,
    markSections_pendingAlerts]

theorem invalidateSections_isolated_iff (ids : List String) :
    s.Isolated (.invalidateSections ids) ↔ s.CorpusSafe (.invalidateSections ids) := by
  have marks := invalidateSections_marks (s := s) ids
  have frame : (∀ corpus, (∀ content, ¬ (corpus = primaryCorpusId ∧ content ∈ ids)) →
      (s.invalidateSections ids).1.alertIdentities corpus = s.alertIdentities corpus) →
      s.Isolated (.invalidateSections ids) := by
    intro alerts
    refine ⟨fun k item _ => ?_, fun k item found other => ?_, alerts, marks⟩
    · rw [Session.apply, invalidateSections_delivered]
    · exact (marks k item found).trans (or_iff_left other)
  constructor
  · intro isolated
    by_cases marked : (s.markSections ids).2 = []
    · exact .inl ((markSections_marked_iff ids).mp marked)
    · refine .inr fun k item found old => ?_
      by_contra foreign
      have alerts : (s.invalidateSections ids).1.alertIdentities item.corpusId =
          s.alertIdentities item.corpusId :=
        isolated.alerts item.corpusId fun content about => foreign about.1
      rw [invalidateSections_alertIdentities marked, List.append_right_eq_self] at alerts
      have listed : item.identity ∈ (s.markSections ids).1.staleIdentities := by
        refine mem_staleIdentities.mpr ⟨k, item, mem_markSections.mpr (.inr old), ?_, rfl⟩
        rw [markSections_delivered]
        exact found
      exact absurd (List.filter_eq_nil_iff.mp alerts _ listed) (by simp [DeliveredItem.identity])
  · intro safe
    refine frame fun corpus other => ?_
    by_cases marked : (s.markSections ids).2 = []
    · exact invalidateSections_quiet marked corpus
    · rcases safe with none | only
      · exact absurd ((markSections_marked_iff ids).mpr none) marked
      · rw [invalidateSections_alertIdentities marked, List.append_right_eq_self]
        refine List.filter_eq_nil_iff.mpr fun i listed here => ?_
        obtain ⟨k, item, stale, found, rfl⟩ := mem_staleIdentities.mp listed
        rw [markSections_delivered] at found
        have primary : item.corpusId = primaryCorpusId := by
          rcases mem_markSections.mp stale with ⟨id, -, mem⟩ | old
          · exact ((primaryKeys_of_found found).mp mem).1
          · exact only k item found old
        -- some section was marked, so the primary corpus is addressed
        obtain ⟨id, listed⟩ := List.exists_mem_of_ne_nil ids (fun none => marked (by rw [none]; rfl))
        have same : item.corpusId = corpus := of_decide_eq_true here
        exact other id ⟨same ▸ primary, listed⟩

theorem markStale_marks (contentId : String) :
    MarksExactly (.markStale contentId) s (s.markStale contentId).1 := by
  intro k item found
  rw [mem_markStale, or_comm, primaryKeys_of_found found]
  exact Iff.rfl

theorem clearStale_clears (contentId : String) :
    ClearsExactly (.clearStale contentId) s (s.clearStale contentId) := by
  intro k item found
  rw [Session.clearStale, mem_foldl_dropKey_iff, primaryKeys_of_found found]
  exact Iff.rfl

/-- **What a call does to the other corpora, and to its own.** -/
theorem isolated_iff (addressed : s.Addressed) (op : SessionOp) :
    s.Isolated op ↔ s.CorpusSafe op := by
  have within : op.Framed → op.Exact s (s.apply op) → s.Isolated op :=
    fun framed effect => (apply_within addressed op framed).isolated addressed effect
  cases op with
  | invalidateSections ids => exact invalidateSections_isolated_iff ids
  | invalidateCorpusSections corpusId ids =>
      rw [← invalidateCorpusSections_exact_iff addressed]
      exact ⟨fun isolated => isolated.effect, within trivial⟩
  | removeDelivered contentId =>
      refine Iff.trans ?_ (removeResolutions_exact_iff addressed contentId)
      exact ⟨fun isolated => isolated.effect, within trivial⟩
  | removeDeliveredResolutions contentId =>
      refine Iff.trans ?_ (removeResolutions_exact_iff addressed contentId)
      exact ⟨fun isolated => isolated.effect, within trivial⟩
  | drainAlerts =>
      exact iff_of_true ⟨fun _ _ other => absurd trivial other, fun _ _ _ other => absurd trivial other,
        fun _ other => absurd trivial (other ""), trivial⟩ trivial
  | restore id budget policy items accesses turn =>
      exact iff_of_true ⟨fun _ _ other => absurd trivial other, fun _ _ _ other => absurd trivial other,
        fun _ other => absurd trivial (other ""), trivial⟩ trivial
  | markStale contentId => exact iff_of_true (within trivial (markStale_marks contentId)) trivial
  | clearStale contentId => exact iff_of_true (within trivial (clearStale_clears contentId)) trivial
  | _ => exact iff_of_true (within trivial trivial) trivial

end Isolation

/-- **Corpora are isolated along every run**, call by call, exactly where the items a call finds
stand under their own keys and the alerts of the primary corpus are not read off a stale set
that holds more. -/
theorem session_isolated_iff (id : String) (budget : Nat) (policy : DropPolicy)
    (ops : List SessionOp) :
    EachStep Session.step Session.Isolated (Session.new id budget policy) ops ↔
      EachStep Session.step Session.CorpusSafe (Session.new id budget policy) ops := by
  have start : (Session.new id budget policy).Addressed := fun k item found => by cases found
  have keeps : ∀ (s : Session) (op : SessionOp) (t : Session), s.Addressed →
      Session.step s op = some t → t.Addressed := by
    intro s op t addressed taken
    cases taken
    exact apply_addressed addressed op
  constructor
  · exact EachStep.imp_of_invariant Session.Addressed
      (fun s op addressed => (isolated_iff addressed op).mp) keeps start
  · exact EachStep.imp_of_invariant Session.Addressed
      (fun s op addressed => (isolated_iff addressed op).mpr) keeps start

/-- A linked section goes stale and its alert is drained; then a primary section changes. -/
def foreignAlert : List SessionOp :=
  [.recordDeliveryIdentity ⟨"linked", "docs/a.md", "section_full"⟩ .section_ 10 1 "h1",
    .recordDelivery "docs/b.md" .section_ 10 2 "h2",
    .invalidateCorpusSections "linked" ["docs/a.md"], .drainAlerts]

/-- A delivery that names no resolution. -/
def unnamedDelivery : List SessionOp :=
  [.recordDeliveryIdentity ⟨"linked", "docs/a.md", ""⟩ .section_ 10 1 "h1"]

/-- The alert of the primary section lists the linked one again; and an item that is not under
its own key is not marked when its section changes. -/
theorem corpora_not_isolated :
    ¬ EachStep Session.step Session.Isolated (Session.new "s" 100000 .fifo)
        (foreignAlert ++ [.invalidateSections ["docs/b.md"]]) ∧
      ¬ EachStep Session.step Session.Isolated (Session.new "s" 100000 .fifo)
        (unnamedDelivery ++ [.invalidateCorpusSections "linked" ["docs/a.md"]]) := by
  constructor
  · intro each
    have last := each.append_right (Session.exec_step _ foreignAlert)
    have alerts := last.1.alerts "linked" fun content about => absurd about.1 (by decide)
    exact absurd alerts (by decide)
  · intro each
    have last := each.append_right (Session.exec_step _ unnamedDelivery)
    have marked := last.1.effect (⟨"linked", "docs/a.md", ""⟩ : DeliveryIdentity).storageKey
      ⟨"docs/a.md", .section_, "linked", "", 10, 1, "h1", .full, none⟩ (by decide)
    exact absurd (marked.mpr (.inr ⟨rfl, by simp⟩)) (by decide)

end Ministr
