/-
# Session.Keys — every item under its own key, every stale mark on an item

Most mutators leave the session's skeleton alone: which keys there are, whose
identity and turn stand under them.  `Retouches` says so once, and every call but a
delivery and a restore is shown to be one.  A delivery stores its item under the
key of the identity it was given.  The item, asked for its identity, substitutes
the index resolution where the delivery resolution is empty: so the key is the
item's own exactly when the identity names a resolution (`delivery_keyed_iff`).

`session_keys_iff` is the result over runs.  That stale marks are on delivered
keys, that turns do not run ahead and that the trajectory stays capped needs no
condition (`apply_tracked`).
-/
import Ministr.Session.Types
import Ministr.Theory.Run

namespace Ministr

open Ministr.Theory

set_option autoImplicit false

/-! ## The invariant -/

/-- Stale marks, turns and the trajectory. -/
structure Session.Tracked (s : Session) : Prop where
  stale : ∀ k ∈ s.stale, k ∈ s.delivered
  turns : ∀ k item, s.delivered.lookup k = some item → item.turnDelivered ≤ s.currentTurn
  capped : s.trajectory.length ≤ maxTrajectoryLen

/-- Every key is the storage key of the item under it. -/
def Session.Keyed (s : Session) : Prop :=
  ∀ k item, s.delivered.lookup k = some item → k = item.identity.storageKey

/-- The whole invariant. -/
def Session.Consistent (s : Session) : Prop := s.Keyed ∧ s.Tracked

/-! ## Calls that leave the skeleton alone -/

/-- The two records are of the same delivery. -/
structure SameDelivery (a b : DeliveredItem) : Prop where
  identity : b.identity = a.identity
  named : b.deliveryResolution = a.deliveryResolution
  turn : b.turnDelivered = a.turnDelivered

theorem SameDelivery.refl (a : DeliveredItem) : SameDelivery a a := ⟨rfl, rfl, rfl⟩

/-- No key is added, no item becomes another delivery's, and no stale mark is left
without its item. -/
structure Retouches (s t : Session) : Prop where
  items : ∀ k b, t.delivered.lookup k = some b →
    ∃ a, s.delivered.lookup k = some a ∧ SameDelivery a b
  stale : (∀ k ∈ s.stale, k ∈ s.delivered) → ∀ k ∈ t.stale, k ∈ t.delivered
  turn : s.currentTurn ≤ t.currentTurn
  trajectory : t.trajectory = s.trajectory

theorem Retouches.refl (s : Session) : Retouches s s :=
  ⟨fun _ b found => ⟨b, found, .refl b⟩, fun h => h, le_refl _, rfl⟩

theorem Retouches.trans {s t u : Session} (first : Retouches s t) (second : Retouches t u) :
    Retouches s u := by
  refine ⟨fun k c found => ?_, fun h => second.stale (first.stale h),
    le_trans first.turn second.turn, second.trajectory.trans first.trajectory⟩
  obtain ⟨b, foundB, later⟩ := second.items k c found
  obtain ⟨a, foundA, earlier⟩ := first.items k b foundB
  exact ⟨a, foundA, later.identity.trans earlier.identity, later.named.trans earlier.named,
    later.turn.trans earlier.turn⟩

theorem Retouches.tracked {s t : Session} (retouches : Retouches s t) (tracked : s.Tracked) :
    t.Tracked := by
  refine ⟨retouches.stale tracked.stale, fun k b found => ?_, ?_⟩
  · obtain ⟨a, foundA, same⟩ := retouches.items k b found
    rw [same.turn]
    exact le_trans (tracked.turns k a foundA) retouches.turn
  · rw [retouches.trajectory]
    exact tracked.capped

theorem Retouches.keyed {s t : Session} (retouches : Retouches s t) (keyed : s.Keyed) :
    t.Keyed := by
  intro k b found
  obtain ⟨a, foundA, same⟩ := retouches.items k b found
  rw [same.identity]
  exact keyed k a foundA

/-- Items, stale marks, turn and trajectory are all there is to check. -/
theorem retouches_of_eq {s t : Session} (delivered : t.delivered = s.delivered)
    (stale : ∀ k ∈ t.stale, k ∈ s.stale ∨ k ∈ s.delivered) (turn : s.currentTurn ≤ t.currentTurn)
    (trajectory : t.trajectory = s.trajectory) : Retouches s t := by
  refine ⟨fun k b found => ⟨b, delivered ▸ found, .refl b⟩, fun held k mem => ?_, turn, trajectory⟩
  rw [delivered]
  exact (stale k mem).elim (held k) id

/-- Rewriting one item's cost. -/
theorem retouches_update {s : Session} {key : String} {item item' : DeliveredItem}
    {metrics : SessionMetrics} (found : s.delivered.lookup key = some item)
    (same : SameDelivery item item') :
    Retouches s { s with delivered := s.delivered.insert key item', metrics } := by
  refine ⟨fun k b held => ?_, fun stale k mem => ?_, le_refl _, rfl⟩
  · simp only at held
    rw [Rows.lookup_insert_if] at held
    split at held
    · rename_i here
      cases held
      exact ⟨item, here ▸ found, same⟩
    · exact ⟨b, held, .refl b⟩
  · exact (AList.mem_insert s.delivered).mpr (Or.inr (stale k mem))

theorem removeDeliveredIdentity_retouches (s : Session) (i : DeliveryIdentity) :
    Retouches s (s.removeDeliveredIdentity i).1 := by
  unfold Session.removeDeliveredIdentity
  dsimp only
  split
  · rename_i absent
    refine retouches_of_eq rfl (fun k mem => Or.inl ?_) (le_refl _) rfl
    exact (mem_dropKey.mp mem).1
  · refine ⟨fun k b held => ?_, fun stale k mem => ?_, le_refl _, rfl⟩
    · simp only at held
      rw [Rows.lookup_erase_if] at held
      split at held
      · cases held
      · exact ⟨b, held, .refl b⟩
    · obtain ⟨old, other⟩ := mem_dropKey.mp mem
      exact AList.mem_erase.mpr ⟨other, stale k old⟩

theorem removeAll_retouches (s : Session) (ids : List DeliveryIdentity) :
    Retouches s (s.removeAll ids).1 := by
  induction ids generalizing s with
  | nil => exact Retouches.refl s
  | cons i ids ih => exact (removeDeliveredIdentity_retouches s i).trans (ih _)

theorem maskIdentityToBookmark_retouches (s : Session) (i : DeliveryIdentity)
    (headingPath : List String) : Retouches s (s.maskIdentityToBookmark i headingPath).1 := by
  unfold Session.maskIdentityToBookmark
  split
  · exact Retouches.refl s
  · rename_i item found
    split
    · exact Retouches.refl s
    · exact retouches_update found ⟨rfl, rfl, rfl⟩

theorem setIdentityCompressionTier_retouches (s : Session) (i : DeliveryIdentity)
    (tier : CompressionTier) (n : Nat) :
    Retouches s (s.setIdentityCompressionTier i tier n).1 := by
  unfold Session.setIdentityCompressionTier
  split
  · exact Retouches.refl s
  · rename_i item found
    exact retouches_update found ⟨rfl, rfl, rfl⟩

theorem setIdentityCompressedSummary_retouches (s : Session) (i : DeliveryIdentity)
    (summary : String) (tier : CompressionTier) (n : Nat) :
    Retouches s (s.setIdentityCompressedSummary i summary tier n).1 := by
  unfold Session.setIdentityCompressedSummary
  split
  · exact Retouches.refl s
  · rename_i item found
    exact retouches_update found ⟨rfl, rfl, rfl⟩

/-- Addressing by bare content id ends in the identity-addressed call, or does
nothing. -/
theorem atPrimary_retouches {R : Type} (s : Session) (contentId : String)
    (act : DeliveryIdentity → Session × Option R) (each : ∀ i, Retouches s (act i).1) :
    Retouches s (s.atPrimary contentId act).1 := by
  unfold Session.atPrimary
  split
  · exact Retouches.refl s
  · exact each _

theorem mem_foldl_addKey_iff {keys set : List String} {k : String} :
    k ∈ keys.foldl addKey set ↔ k ∈ keys ∨ k ∈ set := by
  induction keys generalizing set with
  | nil => simp
  | cons key keys ih =>
      rw [List.foldl_cons, ih, mem_addKey, List.mem_cons]
      tauto

theorem mem_foldl_dropKey_iff {keys set : List String} {k : String} :
    k ∈ keys.foldl dropKey set ↔ k ∈ set ∧ k ∉ keys := by
  induction keys generalizing set with
  | nil => simp
  | cons key keys ih =>
      rw [List.foldl_cons, ih, mem_dropKey, List.mem_cons]
      tauto

theorem mem_primaryKeys_iff {s : Session} {contentId k : String} :
    k ∈ s.primaryKeys contentId ↔
      ∃ item, s.delivered.lookup k = some item ∧ Session.isPrimary contentId item = true := by
  simp only [Session.primaryKeys, List.mem_map, List.mem_filter, Prod.exists, mem_inKeyOrder]
  constructor
  · rintro ⟨k', item, ⟨found, primary⟩, rfl⟩
    exact ⟨item, found, primary⟩
  · rintro ⟨item, found, primary⟩
    exact ⟨k, item, ⟨found, primary⟩, rfl⟩

theorem isPrimary_iff {contentId : String} {item : DeliveredItem} :
    Session.isPrimary contentId item = true ↔
      item.corpusId = primaryCorpusId ∧ item.contentId = contentId := by
  simp [Session.isPrimary]

theorem markStale_retouches (s : Session) (contentId : String) :
    Retouches s (s.markStale contentId).1 := by
  refine retouches_of_eq rfl (fun k mem => ?_) (le_refl _) rfl
  refine (mem_foldl_addKey_iff.mp mem).elim (fun new => Or.inr ?_) Or.inl
  obtain ⟨item, found, -⟩ := mem_primaryKeys_iff.mp new
  exact (Rows.mem_iff_lookup _ _).mpr ⟨item, found⟩

theorem markIdentityStale_retouches (s : Session) (i : DeliveryIdentity) :
    Retouches s (s.markIdentityStale i).1 := by
  unfold Session.markIdentityStale
  split
  · rename_i present
    refine retouches_of_eq rfl (fun k mem => ?_) (le_refl _) rfl
    exact (mem_addKey.mp mem).elim (fun same => Or.inr (same ▸ present)) Or.inl
  · exact Retouches.refl s

theorem markSections_retouches (s : Session) (ids : List String) :
    Retouches s (s.markSections ids).1 := by
  induction ids generalizing s with
  | nil => exact Retouches.refl s
  | cons id ids ih => exact (markStale_retouches s id).trans (ih _)

theorem markIdentities_retouches (s : Session) (ids : List DeliveryIdentity) :
    Retouches s (s.markIdentities ids).1 := by
  induction ids generalizing s with
  | nil => exact Retouches.refl s
  | cons id ids ih => exact (markIdentityStale_retouches s id).trans (ih _)

theorem invalidateSections_retouches (s : Session) (ids : List String) :
    Retouches s (s.invalidateSections ids).1 := by
  have marked := markSections_retouches s ids
  unfold Session.invalidateSections
  dsimp only
  split
  · exact marked
  · exact ⟨marked.items, marked.stale, marked.turn, marked.trajectory⟩

theorem invalidateIdentities_retouches (s : Session) (ids : List DeliveryIdentity) :
    Retouches s (s.invalidateIdentities ids).1 := by
  have marked := markIdentities_retouches s ids
  unfold Session.invalidateIdentities
  dsimp only
  split
  · exact marked
  · exact ⟨marked.items, marked.stale, marked.turn, marked.trajectory⟩

/-! ## Deliveries and restores -/

theorem pushAccess_length (trajectory : List DeliveryIdentity) (i : DeliveryIdentity)
    (capped : trajectory.length ≤ maxTrajectoryLen) :
    (Session.pushAccess trajectory i).length ≤ maxTrajectoryLen := by
  unfold Session.pushAccess
  dsimp only
  split
  · rw [List.length_tail, List.length_append, List.length_singleton]
    omega
  · rename_i short
    omega

theorem recordDeliveryIdentity_tracked {s : Session} (tracked : s.Tracked) (i : DeliveryIdentity)
    (resolution : Resolution) (tokens turn : Nat) (hash : String) :
    (s.recordDeliveryIdentity i resolution tokens turn hash).Tracked := by
  refine ⟨fun k mem => ?_, fun k item found => ?_, pushAccess_length _ _ tracked.capped⟩
  · obtain ⟨old, -⟩ := mem_dropKey.mp mem
    exact (AList.mem_insert s.delivered).mpr (Or.inr (tracked.stale k old))
  · simp only [Session.recordDeliveryIdentity] at found ⊢
    rw [Rows.lookup_insert_if] at found
    split at found
    · cases found
      exact le_max_right _ _
    · exact le_trans (tracked.turns k item found) (le_max_left _ _)

/-- **A delivery keeps every key the item's own exactly when its identity names a
resolution.** -/
theorem delivery_keyed_iff {s : Session} (keyed : s.Keyed) (i : DeliveryIdentity)
    (resolution : Resolution) (tokens turn : Nat) (hash : String) :
    (s.recordDeliveryIdentity i resolution tokens turn hash).Keyed ↔ i.resolution ≠ "" := by
  constructor
  · intro after empty
    have own := after i.storageKey _ (AList.lookup_insert s.delivered)
    have clash := congrArg DeliveryIdentity.resolution (DeliveryIdentity.storageKey_injective own)
    simp only [DeliveredItem.identity, empty, if_true] at clash
    exact resolution.text_ne_empty clash.symm
  · intro named k item found
    simp only [Session.recordDeliveryIdentity] at found
    rw [Rows.lookup_insert_if] at found
    split at found
    · rename_i same
      cases found
      rw [same]
      simp only [DeliveredItem.identity, if_neg named]
    · exact keyed k item found

theorem le_foldl_max {l : List Nat} {n m : Nat} (mem : n ∈ l) : n ≤ l.foldl max m := by
  have start : ∀ (l : List Nat) (m : Nat), m ≤ l.foldl max m := by
    intro l
    induction l with
    | nil => exact fun m => le_refl m
    | cons a l ih => exact fun m => le_trans (le_max_left m a) (ih _)
  induction l generalizing m with
  | nil => cases mem
  | cons a l ih =>
      rcases List.mem_cons.mp mem with rfl | later
      · exact le_trans (le_max_right m n) (start l _)
      · exact ih later

theorem restore_consistent (id : String) (budget : Nat) (policy : DropPolicy)
    (items : Rows String DeliveredItem) (accesses : List DeliveryIdentity) (turn : Nat) :
    (Session.restore id budget policy items accesses turn).Consistent := by
  refine ⟨fun k item found => ?_, fun k mem => (by cases mem), fun k item found => ?_, ?_⟩
  · simp only [Session.restore] at found
    rw [Rows.lookup_upsertAll, AList.lookup_empty, Option.or_none] at found
    obtain ⟨e, -, eq⟩ := List.mem_map.mp (mem_of_lastOf found)
    cases eq
    rfl
  · refine le_trans (le_foldl_max ?_) (le_max_right turn _)
    exact List.mem_map.mpr ⟨⟨k, item⟩, (Rows.mem_entries_iff _ _ _).mpr found, rfl⟩
  · simp only [Session.restore, List.length_drop]
    omega

/-! ## Every call -/

/-- What a call can do to the skeleton. -/
theorem apply_cases (s : Session) (op : SessionOp) :
    Retouches s (s.apply op) ∨
      (∃ i resolution tokens turn hash,
        s.apply op = s.recordDeliveryIdentity i resolution tokens turn hash ∧
        ((∃ contentId, op = .recordDelivery contentId resolution tokens turn hash ∧
            i = .primary contentId resolution.text) ∨
          op = .recordDeliveryIdentity i resolution tokens turn hash)) ∨
      ∃ id budget policy items accesses turn,
        op = .restore id budget policy items accesses turn := by
  cases op with
  | recordDelivery contentId resolution tokens turn hash =>
      exact Or.inr (Or.inl ⟨_, resolution, tokens, turn, hash, rfl, Or.inl ⟨contentId, rfl, rfl⟩⟩)
  | recordDeliveryIdentity i resolution tokens turn hash =>
      exact Or.inr (Or.inl ⟨i, resolution, tokens, turn, hash, rfl, Or.inr rfl⟩)
  | restore id budget policy items accesses turn =>
      exact Or.inr (Or.inr ⟨id, budget, policy, items, accesses, turn, rfl⟩)
  | removeDelivered contentId => exact Or.inl (removeAll_retouches s _)
  | removeDeliveredResolutions contentId => exact Or.inl (removeAll_retouches s _)
  | removeDeliveredIdentity i => exact Or.inl (removeDeliveredIdentity_retouches s i)
  | maskToBookmark contentId path =>
      exact Or.inl (atPrimary_retouches s _ _ fun i => maskIdentityToBookmark_retouches s i path)
  | maskIdentityToBookmark i path => exact Or.inl (maskIdentityToBookmark_retouches s i path)
  | setCompressionTier contentId tier n =>
      exact Or.inl
        (atPrimary_retouches s _ _ fun i => setIdentityCompressionTier_retouches s i tier n)
  | setIdentityCompressionTier i tier n =>
      exact Or.inl (setIdentityCompressionTier_retouches s i tier n)
  | setCompressedSummary contentId summary tier n =>
      exact Or.inl
        (atPrimary_retouches s _ _ fun i => setIdentityCompressedSummary_retouches s i summary tier n)
  | setIdentityCompressedSummary i summary tier n =>
      exact Or.inl (setIdentityCompressedSummary_retouches s i summary tier n)
  | markStale contentId => exact Or.inl (markStale_retouches s contentId)
  | markIdentityStale i => exact Or.inl (markIdentityStale_retouches s i)
  | clearStale contentId =>
      exact Or.inl
        (retouches_of_eq rfl (fun k mem => Or.inl (mem_foldl_dropKey_iff.mp mem).1) (le_refl _) rfl)
  | invalidateSections ids => exact Or.inl (invalidateSections_retouches s ids)
  | invalidateIdentities ids => exact Or.inl (invalidateIdentities_retouches s ids)
  | invalidateCorpusSections corpusId ids => exact Or.inl (invalidateIdentities_retouches s _)
  | tick =>
      refine Or.inl (retouches_of_eq rfl (fun k mem => Or.inl mem) ?_ rfl)
      simp only [Session.apply, Session.tick]
      split <;> omega
  | drainAlerts => exact Or.inl (retouches_of_eq rfl (fun k mem => Or.inl mem) (le_refl _) rfl)
  | recordDedupHit => exact Or.inl (retouches_of_eq rfl (fun k mem => Or.inl mem) (le_refl _) rfl)
  | recordDedupSavings tokens bytes =>
      exact Or.inl (retouches_of_eq rfl (fun k mem => Or.inl mem) (le_refl _) rfl)
  | recordDeltaUpdate =>
      exact Or.inl (retouches_of_eq rfl (fun k mem => Or.inl mem) (le_refl _) rfl)
  | recordQuery query =>
      exact Or.inl (retouches_of_eq rfl (fun k mem => Or.inl mem) (le_refl _) rfl)
  | setMetrics metrics =>
      exact Or.inl (retouches_of_eq rfl (fun k mem => Or.inl mem) (le_refl _) rfl)
  | setRecentQueries queries =>
      exact Or.inl (retouches_of_eq rfl (fun k mem => Or.inl mem) (le_refl _) rfl)
  | markCoAccessFlushed ids =>
      exact Or.inl (retouches_of_eq rfl (fun k mem => Or.inl mem) (le_refl _) rfl)

/-- Stale marks, turns and the cap hold whatever the calls are. -/
theorem apply_tracked {s : Session} (tracked : s.Tracked) (op : SessionOp) :
    (s.apply op).Tracked := by
  rcases apply_cases s op with retouches | ⟨i, resolution, tokens, turn, hash, eq, -⟩ |
    ⟨id, budget, policy, items, accesses, turn, rfl⟩
  · exact retouches.tracked tracked
  · rw [eq]
    exact recordDeliveryIdentity_tracked tracked i resolution tokens turn hash
  · exact (restore_consistent id budget policy items accesses turn).2

/-- A delivery by identity names the representation it delivers. -/
def NamesResolution (_ : Session) : SessionOp → Prop
  | .recordDeliveryIdentity i _ _ _ _ => i.resolution ≠ ""
  | _ => True

theorem apply_keyed_iff {s : Session} (keyed : s.Keyed) (op : SessionOp) :
    (s.apply op).Keyed ↔ NamesResolution s op := by
  cases op with
  | recordDelivery contentId resolution tokens turn hash =>
      refine iff_of_true ?_ trivial
      exact (delivery_keyed_iff keyed _ _ _ _ _).mpr resolution.text_ne_empty
  | recordDeliveryIdentity i resolution tokens turn hash =>
      exact delivery_keyed_iff keyed i resolution tokens turn hash
  | restore id budget policy items accesses turn =>
      exact iff_of_true (restore_consistent id budget policy items accesses turn).1 trivial
  | _ =>
      refine iff_of_true ?_ trivial
      rcases apply_cases s _ with retouches | ⟨i, resolution, tokens, turn, hash, -, named⟩ |
        ⟨id, budget, policy, items, accesses, turn, same⟩
      · exact retouches.keyed keyed
      · rcases named with ⟨contentId, same, -⟩ | same <;> cases same
      · cases same

theorem new_consistent (id : String) (budget : Nat) (policy : DropPolicy) :
    (Session.new id budget policy).Consistent :=
  ⟨fun k item found => (by cases found), fun k mem => (by cases mem),
    fun k item found => (by cases found), Nat.zero_le _⟩

/-- The calls as a step function; every call is enabled. -/
def Session.step (s : Session) (op : SessionOp) : Option Session := some (s.apply op)

theorem Session.exec_step (s : Session) (ops : List SessionOp) :
    exec Session.step s ops = some (ops.foldl Session.apply s) := by
  induction ops generalizing s with
  | nil => rfl
  | cons op ops ih => exact ih (s.apply op)

/-- Along every sequence of calls on a new session, the invariant holds in every
state reached exactly when every delivery by identity names its resolution. -/
theorem session_keys_iff (id : String) (budget : Nat) (policy : DropPolicy)
    (ops : List SessionOp) :
    Throughout Session.step Session.Consistent (Session.new id budget policy) ops ↔
      EachStep Session.step NamesResolution (Session.new id budget policy) ops := by
  have start := new_consistent id budget policy
  refine throughout_iff_eachStep Session.Tracked ?_ ?_ start.2 start (Session.exec_step _ ops)
  · intro s op t tracked taken
    cases taken
    exact apply_tracked tracked op
  · intro s op t tracked consistent taken
    cases taken
    rw [← apply_keyed_iff consistent.1 op]
    exact and_iff_left (apply_tracked tracked op)

/-- A delivery whose identity leaves the resolution empty is stored under a key that
is not its item's own. -/
theorem session_empty_resolution :
    ¬ ∀ (ops : List SessionOp),
      (ops.foldl Session.apply (Session.new "s" 100000 .fifo)).Consistent := by
  intro consistent
  have after := (consistent
    [.recordDeliveryIdentity ⟨"primary", "docs/a.md", ""⟩ .section_ 10 1 "h"]).1
  exact (delivery_keyed_iff (new_consistent "s" 100000 .fifo).1 _ _ _ _ _).mp after rfl

end Ministr
