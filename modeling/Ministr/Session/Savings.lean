/-
# Session.Savings — tokens credited as saved against tokens delivered

A session counts the tokens it delivered and credits the tokens it saved: those of
an item that is dropped, and those by which a compression shrinks an item.  What is
neither is still held.  A drop moves an item's tokens from held to evicted and a
shrinking compression from held to compressed, so both keep the sum; a delivery adds
to both sides; a re-delivery forgets the tokens of the item it replaces, which is
where `slack` comes from.

A compression may also grow an item: a summary that takes the place of a bookmark is
longer than the bookmark.  `saturating_sub` then credits nothing and nothing takes
the earlier credit back, so the tokens the item regained are counted as saved and as
held.  `session_savings_iff` is the result over runs: the savings stay within what
was delivered exactly when no item grows by more than the slack and no metrics are
set from outside that do not cover the items held.

The totals are natural numbers.  The source keeps them in 64 bits, so what is said here is said
of runs in which the tokens delivered, and the tokens credited, stay below `2 ^ 64`.
-/
import Ministr.Session.Keys

namespace Ministr

open Ministr.Theory

set_option autoImplicit false

namespace Session

/-! ## The balance -/

/-- `total_delivered_tokens`: the tokens of the items held. -/
def totalDeliveredTokens (s : Session) : Nat := s.delivered.total DeliveredItem.tokenCount

/-- Tokens credited as saved or still held. -/
def accounted (s : Session) : Nat :=
  s.metrics.cumulativeTokensEvicted + s.metrics.cumulativeTokensCompressed +
    s.totalDeliveredTokens

/-- No token is accounted for that was not delivered. -/
def Conserves (s : Session) : Prop := s.accounted ≤ s.metrics.cumulativeTokensDelivered

/-- Delivered tokens that are accounted for nowhere. -/
def slack (s : Session) : Nat := s.metrics.cumulativeTokensDelivered - s.accounted

/-- The item under the identity's key, if there is one, can take `n` tokens. -/
def Affords (s : Session) (i : DeliveryIdentity) (n : Nat) : Prop :=
  ∀ item, s.delivered.lookup i.storageKey = some item → n ≤ item.tokenCount + s.slack

/-- The same for a bookmark, which is given only to an item of a lower tier. -/
def AffordsBookmark (s : Session) (i : DeliveryIdentity) (headingPath : List String) : Prop :=
  ∀ item, s.delivered.lookup i.storageKey = some item →
    item.compressionTier.rank < CompressionTier.bookmark.rank →
      max (Content.wordCount (bookmarkText headingPath)) 1 ≤ item.tokenCount + s.slack

/-- What the older callers' addressing reaches meets `P`. -/
def AtPrimary (s : Session) (contentId : String) (P : DeliveryIdentity → Prop) : Prop :=
  ∀ key, s.primaryDeliveryKey contentId = some key → P (.fromStorageKey key "section_full")

/-- The metrics cover the tokens held. -/
def Covers (s : Session) (m : SessionMetrics) : Prop :=
  m.cumulativeTokensEvicted + m.cumulativeTokensCompressed + s.totalDeliveredTokens ≤
    m.cumulativeTokensDelivered

/-- The call grows no item by more than the slack, and brings no uncovered items or
metrics in from outside. -/
def Sparing (s : Session) : SessionOp → Prop
  | .maskToBookmark contentId headingPath =>
      s.AtPrimary contentId fun i => s.AffordsBookmark i headingPath
  | .maskIdentityToBookmark i headingPath => s.AffordsBookmark i headingPath
  | .setCompressionTier contentId _ n => s.AtPrimary contentId fun i => s.Affords i n
  | .setIdentityCompressionTier i _ n => s.Affords i n
  | .setCompressedSummary contentId _ _ n => s.AtPrimary contentId fun i => s.Affords i n
  | .setIdentityCompressedSummary i _ _ n => s.Affords i n
  | .setMetrics m => s.Covers m
  | .restore _ _ _ items _ _ =>
      ∀ key item,
        lastOf ((inKeyOrder items).map fun e => (e.2.identity.storageKey, e.2)) key = some item →
          item.tokenCount = 0
  | _ => True

/-! ## What each call does to the balance -/

/-- The two states account for the same tokens. -/
structure SameTokens (s t : Session) : Prop where
  items : t.delivered = s.delivered
  given : t.metrics.cumulativeTokensDelivered = s.metrics.cumulativeTokensDelivered
  evicted : t.metrics.cumulativeTokensEvicted = s.metrics.cumulativeTokensEvicted
  compressed : t.metrics.cumulativeTokensCompressed = s.metrics.cumulativeTokensCompressed

theorem SameTokens.conserves_iff {s t : Session} (same : SameTokens s t) :
    t.Conserves ↔ s.Conserves := by
  simp only [Conserves, accounted, totalDeliveredTokens, same.items, same.given, same.evicted,
    same.compressed]

theorem SameTokens.refl (s : Session) : SameTokens s s := ⟨rfl, rfl, rfl, rfl⟩

theorem SameTokens.trans {s t u : Session} (first : SameTokens s t) (second : SameTokens t u) :
    SameTokens s u :=
  ⟨second.items.trans first.items, second.given.trans first.given,
    second.evicted.trans first.evicted, second.compressed.trans first.compressed⟩

theorem markIdentityStale_sameTokens (s : Session) (i : DeliveryIdentity) :
    SameTokens s (s.markIdentityStale i).1 := by
  unfold markIdentityStale
  split <;> exact ⟨rfl, rfl, rfl, rfl⟩

theorem markSections_sameTokens (s : Session) (ids : List String) :
    SameTokens s (s.markSections ids).1 := by
  induction ids generalizing s with
  | nil => exact .refl s
  | cons id ids ih =>
      have first : SameTokens s (s.markStale id).1 := ⟨rfl, rfl, rfl, rfl⟩
      exact first.trans (ih _)

theorem markIdentities_sameTokens (s : Session) (ids : List DeliveryIdentity) :
    SameTokens s (s.markIdentities ids).1 := by
  induction ids generalizing s with
  | nil => exact .refl s
  | cons i ids ih => exact (markIdentityStale_sameTokens s i).trans (ih _)

theorem invalidateSections_sameTokens (s : Session) (ids : List String) :
    SameTokens s (s.invalidateSections ids).1 := by
  have marked := markSections_sameTokens s ids
  simp only [invalidateSections]
  split
  · exact marked
  · exact marked.trans ⟨rfl, rfl, rfl, rfl⟩

theorem invalidateIdentities_sameTokens (s : Session) (ids : List DeliveryIdentity) :
    SameTokens s (s.invalidateIdentities ids).1 := by
  have marked := markIdentities_sameTokens s ids
  simp only [invalidateIdentities]
  split
  · exact marked
  · exact marked.trans ⟨rfl, rfl, rfl, rfl⟩

/-- A delivery adds its tokens to what was delivered and at most as many to what is
accounted for. -/
theorem recordDeliveryIdentity_conserves {s : Session} (conserves : s.Conserves)
    (i : DeliveryIdentity) (resolution : Resolution) (tokens turn : Nat) (hash : String) :
    (s.recordDeliveryIdentity i resolution tokens turn hash).Conserves := by
  have stored := s.delivered.total_insert DeliveredItem.tokenCount i.storageKey
    ⟨i.contentId, resolution, i.corpusId, i.resolution, tokens, turn, hash, .full, none⟩
  simp only [Conserves, accounted, totalDeliveredTokens, recordDeliveryIdentity] at *
  omega

/-- A drop moves the item's tokens from held to evicted. -/
theorem removeDeliveredIdentity_accounted (s : Session) (i : DeliveryIdentity) :
    (s.removeDeliveredIdentity i).1.accounted = s.accounted ∧
      (s.removeDeliveredIdentity i).1.metrics.cumulativeTokensDelivered =
        s.metrics.cumulativeTokensDelivered := by
  have gone := s.delivered.total_erase DeliveredItem.tokenCount i.storageKey
  cases found : s.delivered.lookup i.storageKey with
  | none => simp [removeDeliveredIdentity, found, accounted, totalDeliveredTokens]
  | some item =>
      simp only [found, Option.elim_some] at gone
      simp only [removeDeliveredIdentity, found, accounted, totalDeliveredTokens, and_true]
      omega

theorem removeAll_accounted (s : Session) (ids : List DeliveryIdentity) :
    (s.removeAll ids).1.accounted = s.accounted ∧
      (s.removeAll ids).1.metrics.cumulativeTokensDelivered =
        s.metrics.cumulativeTokensDelivered := by
  induction ids generalizing s with
  | nil => exact ⟨rfl, rfl⟩
  | cons i ids ih =>
      obtain ⟨accounted, given⟩ := removeDeliveredIdentity_accounted s i
      exact ⟨(ih _).1.trans accounted, (ih _).2.trans given⟩

/-- A removal leaves the balance as it is. -/
theorem removeAll_conserves (s : Session) (ids : List DeliveryIdentity) :
    (s.removeAll ids).1.Conserves ↔ s.Conserves := by
  obtain ⟨accounted, given⟩ := removeAll_accounted s ids
  rw [Conserves, Conserves, accounted, given]

@[simp] theorem countCompression_evicted (m : SessionMetrics) (freed : Nat) :
    (countCompression m freed).cumulativeTokensEvicted = m.cumulativeTokensEvicted := by
  unfold countCompression
  split <;> rfl

@[simp] theorem countCompression_delivered (m : SessionMetrics) (freed : Nat) :
    (countCompression m freed).cumulativeTokensDelivered = m.cumulativeTokensDelivered := by
  unfold countCompression
  split <;> rfl

@[simp] theorem countCompression_compressed (m : SessionMetrics) (freed : Nat) :
    (countCompression m freed).cumulativeTokensCompressed =
      m.cumulativeTokensCompressed + freed := by
  unfold countCompression
  split
  · rfl
  · omega

/-- Giving an item another token count keeps the balance exactly when the item does
not grow by more than the slack.  All three compressions are of this form. -/
theorem recount_conserves_iff {s t : Session} {key : String} {item : DeliveredItem}
    (item' : DeliveredItem) (conserves : s.Conserves) (found : s.delivered.lookup key = some item)
    (items : t.delivered = s.delivered.insert key item')
    (metrics : t.metrics = countCompression s.metrics (item.tokenCount - item'.tokenCount)) :
    t.Conserves ↔ item'.tokenCount ≤ item.tokenCount + s.slack := by
  have stored := s.delivered.total_insert DeliveredItem.tokenCount key item'
  simp only [found, Option.elim_some] at stored
  simp only [Conserves, slack, accounted, totalDeliveredTokens, items, metrics,
    countCompression_evicted, countCompression_delivered, countCompression_compressed] at *
  omega

theorem maskIdentityToBookmark_conserves_iff {s : Session} (conserves : s.Conserves)
    (i : DeliveryIdentity) (headingPath : List String) :
    (s.maskIdentityToBookmark i headingPath).1.Conserves ↔ s.AffordsBookmark i headingPath := by
  unfold maskIdentityToBookmark AffordsBookmark
  cases found : s.delivered.lookup i.storageKey with
  | none => simpa using conserves
  | some item =>
      by_cases masked : CompressionTier.bookmark.rank ≤ item.compressionTier.rank
      · simp [masked, conserves]
      · simp only [masked, if_false, Option.some.injEq, forall_eq', not_le.mp masked, true_imp_iff]
        exact recount_conserves_iff
          { item with
            compressionTier := .bookmark
            tokenCount := max (Content.wordCount (bookmarkText headingPath)) 1 }
          conserves found rfl rfl

theorem setIdentityCompressionTier_conserves_iff {s : Session} (conserves : s.Conserves)
    (i : DeliveryIdentity) (tier : CompressionTier) (n : Nat) :
    (s.setIdentityCompressionTier i tier n).1.Conserves ↔ s.Affords i n := by
  unfold setIdentityCompressionTier Affords
  cases found : s.delivered.lookup i.storageKey with
  | none => simpa using conserves
  | some item =>
      simp only [Option.some.injEq, forall_eq']
      exact recount_conserves_iff { item with compressionTier := tier, tokenCount := n }
        conserves found rfl rfl

theorem setIdentityCompressedSummary_conserves_iff {s : Session} (conserves : s.Conserves)
    (i : DeliveryIdentity) (summary : String) (tier : CompressionTier) (n : Nat) :
    (s.setIdentityCompressedSummary i summary tier n).1.Conserves ↔ s.Affords i n := by
  unfold setIdentityCompressedSummary Affords
  cases found : s.delivered.lookup i.storageKey with
  | none => simpa using conserves
  | some item =>
      simp only [Option.some.injEq, forall_eq']
      exact recount_conserves_iff
        { item with compressionTier := tier, tokenCount := n, compressedSummary := some summary }
        conserves found rfl rfl

theorem atPrimary_conserves_iff {R : Type} {s : Session} (conserves : s.Conserves)
    (contentId : String) {act : DeliveryIdentity → Session × Option R}
    {P : DeliveryIdentity → Prop} (each : ∀ i, (act i).1.Conserves ↔ P i) :
    (s.atPrimary contentId act).1.Conserves ↔ s.AtPrimary contentId P := by
  unfold atPrimary AtPrimary
  cases s.primaryDeliveryKey contentId with
  | none => simpa using conserves
  | some key => simpa using each _

/-- A restored session has delivered nothing yet, so it conserves exactly when what it
holds has no tokens. -/
theorem restore_conserves_iff (id : String) (budget : Nat) (policy : DropPolicy)
    (items : Rows String DeliveredItem) (accesses : List DeliveryIdentity) (turn : Nat) :
    (restore id budget policy items accesses turn).Conserves ↔
      ∀ key item,
        lastOf ((inKeyOrder items).map fun e => (e.2.identity.storageKey, e.2)) key = some item →
          item.tokenCount = 0 := by
  simp only [Conserves, accounted, totalDeliveredTokens, restore, zero_add, Nat.le_zero,
    Rows.total_eq_zero_iff, Rows.lookup_upsertAll, AList.lookup_empty, Option.or_none]

/-- **One call.**  Out of a state that conserves, a call leads to one that conserves
exactly when it is sparing. -/
theorem apply_conserves_iff {s : Session} (conserves : s.Conserves) (op : SessionOp) :
    (s.apply op).Conserves ↔ s.Sparing op := by
  have kept : ∀ {t : Session}, SameTokens s t → (t.Conserves ↔ True) := fun same =>
    iff_true_intro (same.conserves_iff.mpr conserves)
  cases op with
  | recordDelivery contentId resolution tokens turn hash =>
      exact iff_true_intro (recordDeliveryIdentity_conserves conserves _ _ _ _ _)
  | recordDeliveryIdentity i resolution tokens turn hash =>
      exact iff_true_intro (recordDeliveryIdentity_conserves conserves _ _ _ _ _)
  | removeDelivered contentId =>
      exact iff_true_intro ((removeAll_conserves s _).mpr conserves)
  | removeDeliveredResolutions contentId =>
      exact iff_true_intro ((removeAll_conserves s _).mpr conserves)
  | removeDeliveredIdentity i =>
      exact iff_true_intro ((removeAll_conserves s [i]).mpr conserves)
  | maskToBookmark contentId headingPath =>
      exact atPrimary_conserves_iff conserves contentId fun i =>
        maskIdentityToBookmark_conserves_iff conserves i headingPath
  | maskIdentityToBookmark i headingPath =>
      exact maskIdentityToBookmark_conserves_iff conserves i headingPath
  | setCompressionTier contentId tier n =>
      exact atPrimary_conserves_iff conserves contentId fun i =>
        setIdentityCompressionTier_conserves_iff conserves i tier n
  | setIdentityCompressionTier i tier n =>
      exact setIdentityCompressionTier_conserves_iff conserves i tier n
  | setCompressedSummary contentId summary tier n =>
      exact atPrimary_conserves_iff conserves contentId fun i =>
        setIdentityCompressedSummary_conserves_iff conserves i summary tier n
  | setIdentityCompressedSummary i summary tier n =>
      exact setIdentityCompressedSummary_conserves_iff conserves i summary tier n
  | setMetrics metrics => exact Iff.rfl
  | restore id budget policy items accesses turn =>
      exact restore_conserves_iff id budget policy items accesses turn
  | markIdentityStale i => exact kept (markIdentityStale_sameTokens s i)
  | invalidateSections ids => exact kept (invalidateSections_sameTokens s ids)
  | invalidateIdentities ids => exact kept (invalidateIdentities_sameTokens s ids)
  | invalidateCorpusSections corpusId ids => exact kept (invalidateIdentities_sameTokens s _)
  | markStale _ | clearStale _ | drainAlerts | tick | recordDedupHit | recordDedupSavings _ _
  | recordDeltaUpdate | recordQuery _ | setRecentQueries _ | markCoAccessFlushed _ =>
      exact kept ⟨rfl, rfl, rfl, rfl⟩

end Session

/-! ## Runs -/

/-- **Savings.**  Along every sequence of calls on a new session, the tokens credited
as saved and those still held stay within the tokens delivered, in every state
reached, exactly when every call is sparing. -/
theorem session_savings_iff (id : String) (budget : Nat) (policy : DropPolicy)
    (ops : List SessionOp) :
    Throughout Session.step Session.Conserves (Session.new id budget policy) ops ↔
      EachStep Session.step Session.Sparing (Session.new id budget policy) ops := by
  have start : (Session.new id budget policy).Conserves := Nat.le_refl 0
  refine throughout_iff_eachStep (fun _ => True) (fun _ _ _ _ _ => trivial) ?_ trivial start
    (Session.exec_step _ ops)
  intro s op t _ conserves taken
  cases taken
  exact Session.apply_conserves_iff conserves op

/-- A section of 100 tokens is masked, which credits 99, and then summarized in 50:
the session holds 50 tokens and has credited 99 of 100. -/
theorem session_summary_grows :
    ¬ ∀ ops : List SessionOp,
      (ops.foldl Session.apply (Session.new "s" 100000 .fifo)).Conserves := by
  intro conserves
  have after := conserves
    [.recordDelivery "docs/a.md" .section_ 100 1 "h",
      .maskIdentityToBookmark (.primary "docs/a.md" "section") [],
      .setIdentityCompressedSummary (.primary "docs/a.md" "section") "short" .extractive 50]
  revert after
  simp [Session.Conserves, Session.accounted]
  decide

end Ministr
