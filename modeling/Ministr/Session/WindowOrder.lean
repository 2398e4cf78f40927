/-
# Session.WindowOrder — which entries a delivery evicts, and how many

The eviction loop looks for its victim anew in every round, in a queue it has just changed.
What it evicts in the end is nevertheless a prefix of one list, fixed before the loop starts:
the queue itself, or under FSRS with scores the queue sorted by score, ties in queue order
(`victim_policyOrder`).  `evictToCapacity_order` says that the prefix is the shortest one that
makes the rest fit.

The queue is in the order of the last use (`Recency`, `After.run`): the last record of an id or,
under LRU, the last touch.  The delivery just recorded counts as score 1 and stands last, so
it goes only after every entry of a score of at most 1, and not at all if it fits.

Scores are exact here: `partial_cmp` is the comparison of a linear order.
-/
import Ministr.Session.Window
import Ministr.Theory.LeastFirst
import Mathlib.Order.Compare
import Mathlib.Algebra.Order.BigOperators.Group.List

namespace Ministr

open Ministr.Theory

set_option autoImplicit false

/-- Scores that are never incomparable. -/
class ExactScore (F : Type) [LinearOrder F] extends Score F where
  partialCmp_eq : ∀ a b : F, partialCmp a b = some (compare a b)
  zero_le_one : zero ≤ one

/-! ## The first of the least -/

section Least

variable {α F : Type} [LinearOrder F] {key : α → F}

theorem Theory.FirstLeast.scan (rest : List α) {front back : List α} {a : α}
    (least : FirstLeast key front a back) :
    ∃ front' a' back', front ++ a :: back ++ rest = front' ++ a' :: back' ∧
      FirstLeast key front' a' back' ∧
      (rest.zipIdx (front ++ a :: back).length).foldl
        (fun best e => if compare (key best.1) (key e.1) = .gt then e else best)
        (a, front.length) = (a', front'.length) := by
  induction rest generalizing front a back with
  | nil => exact ⟨front, a, back, List.append_nil _, least, rfl⟩
  | cons b rest ih =>
      rw [List.zipIdx_cons, List.foldl_cons]
      by_cases less : key b < key a
      · have next : FirstLeast key (front ++ a :: back) b [] := by
          refine ⟨fun c mem => ?_, fun c mem => absurd mem List.not_mem_nil⟩
          rcases List.mem_append.mp mem with mem | mem
          · exact less.trans (least.before c mem)
          · rcases List.mem_cons.mp mem with rfl | mem
            · exact less
            · exact less.trans_le (least.after c mem)
        obtain ⟨front', a', back', whole, kept, scanned⟩ := ih next
        refine ⟨front', a', back', by rw [← whole]; simp, kept, ?_⟩
        rw [if_pos (compare_gt_iff_gt.mpr less), ← scanned]
        simp [Nat.add_assoc]
      · have next : FirstLeast key front a (back ++ [b]) := by
          refine ⟨least.before, fun c mem => ?_⟩
          rcases List.mem_append.mp mem with mem | mem
          · exact least.after c mem
          · rw [List.mem_singleton.mp mem]
            exact not_lt.mp less
        obtain ⟨front', a', back', whole, kept, scanned⟩ := ih next
        refine ⟨front', a', back', by rw [← whole]; simp, kept, ?_⟩
        rw [if_neg (fun more => less (compare_gt_iff_gt.mp more)), ← scanned]
        simp [Nat.add_assoc]

theorem minIdx_firstLeast {as : List α} {i : Nat}
    (least : minIdx (fun a b => compare (key a) (key b)) as = some i) :
    ∃ front a back, as = front ++ a :: back ∧ front.length = i ∧ FirstLeast key front a back := by
  cases as with
  | nil => cases least
  | cons a as =>
      have start : FirstLeast key [] a [] :=
        ⟨fun b mem => absurd mem List.not_mem_nil, fun b mem => absurd mem List.not_mem_nil⟩
      obtain ⟨front, b, back, whole, kept, scanned⟩ := start.scan as
      refine ⟨front, b, back, whole, ?_, kept⟩
      simp only [minIdx, Option.some.injEq] at least
      rw [← least]
      exact congrArg Prod.snd scanned.symm

end Least

namespace WindowEstimator

/-! ## The order of the victims -/

section Order

variable {F : Type} [LinearOrder F]

/-- The order a policy evicts in: by score under FSRS with scores, else as queued. -/
def policyOrder (policy : DropPolicy) (score : Option (String → F)) (entries : List WindowEntry) :
    List WindowEntry :=
  match policy, score with
  | .fsrs, some score => sortByKey (fun e => score e.contentId) entries
  | _, _ => entries

theorem policyOrder_perm (policy : DropPolicy) (score : Option (String → F))
    (entries : List WindowEntry) : (policyOrder policy score entries).Perm entries := by
  unfold policyOrder
  split
  · exact sortByKey_perm entries
  · exact .refl _

theorem tokensOf_policyOrder (policy : DropPolicy) (score : Option (String → F))
    (entries : List WindowEntry) : tokensOf (policyOrder policy score entries) = tokensOf entries :=
  ((policyOrder_perm policy score entries).map _).sum_eq

theorem policyOrder_congr {policy : DropPolicy} {scores : Option (Rows String F)}
    {score score' : Rows String F → String → F} {entries : List WindowEntry}
    (same : ∀ s, ∀ e ∈ entries, score s e.contentId = score' s e.contentId) :
    policyOrder policy (scores.map score) entries = policyOrder policy (scores.map score') entries := by
  cases scores with
  | none => rfl
  | some s =>
      cases policy with
      | fsrs => exact sortByKey_congr (same s)
      | fifo => rfl
      | lru => rfl

/-- An entry that scores no less than those before it comes last. -/
theorem policyOrder_concat {policy : DropPolicy} {score : Option (String → F)}
    {entries : List WindowEntry} {fresh : WindowEntry}
    (most : ∀ f, score = some f → ∀ e ∈ entries, f e.contentId ≤ f fresh.contentId) :
    policyOrder policy score (entries ++ [fresh]) = policyOrder policy score entries ++ [fresh] := by
  unfold policyOrder
  split
  · exact sortByKey_concat (most _ rfl)
  · rfl

variable [ExactScore F]

/-- The loop's next victim is the first of the order; the rest keep theirs. -/
theorem victim_policyOrder {policy : DropPolicy} {scores : Option (Rows String F)}
    {protectFresh : Option String} {entries rest : List WindowEntry} {e : WindowEntry}
    (chosen : victim policy scores protectFresh entries = some (e, rest)) :
    policyOrder policy (scores.map fun s => scoreFor s protectFresh) entries =
      e :: policyOrder policy (scores.map fun s => scoreFor s protectFresh) rest := by
  have first : ∀ {es : List WindowEntry}, removeAt es 0 = some (e, rest) → es = e :: rest := by
    intro es removed
    obtain ⟨front, back, rfl, rfl, none⟩ := removeAt_eq_some removed
    rw [List.length_eq_zero_iff.mp none]
    rfl
  unfold victim at chosen
  split at chosen
  · rename_i s
    split at chosen
    · rename_i empty
      rw [List.isEmpty_iff.mp empty] at chosen
      cases chosen
    · obtain ⟨i, least, removed⟩ := Option.bind_eq_some_iff.mp chosen
      have exact : compareScores s protectFresh = fun a b : WindowEntry =>
          compare (scoreFor s protectFresh a.contentId) (scoreFor s protectFresh b.contentId) := by
        funext a b
        rw [compareScores, ExactScore.partialCmp_eq, Option.getD_some]
      rw [exact] at least
      obtain ⟨front, a, back, rfl, rfl, firstLeast⟩ := minIdx_firstLeast least
      obtain ⟨front', back', whole, rfl, same⟩ := removeAt_eq_some removed
      obtain ⟨rfl, tails⟩ := List.append_inj whole same.symm
      obtain ⟨rfl, rfl⟩ := List.cons.inj tails
      exact firstLeast.sortByKey_eq
  · rename_i plain
    have queued : ∀ es : List WindowEntry,
        policyOrder policy (scores.map fun s => scoreFor s protectFresh) es = es := by
      intro es
      cases scores with
      | none => cases policy <;> rfl
      | some s =>
          cases policy with
          | fsrs => exact absurd rfl (plain s rfl)
          | fifo => rfl
          | lru => rfl
    rw [queued, queued]
    exact first chosen

/-- **The loop evicts the shortest prefix of the order that makes the rest fit.** -/
theorem evictToCapacity_order (w : WindowEstimator) (scores : Option (Rows String F))
    (protectFresh : Option String) (counted : w.Counted) :
    ∃ k, (w.evictToCapacity scores protectFresh).1 =
        idsOf ((policyOrder w.policy (scores.map fun s => scoreFor s protectFresh) w.entries).take k) ∧
      tokensOf ((policyOrder w.policy (scores.map fun s => scoreFor s protectFresh)
        w.entries).drop k) ≤ w.capacity ∧
      ∀ j < k, w.capacity < tokensOf ((policyOrder w.policy
        (scores.map fun s => scoreFor s protectFresh) w.entries).drop j) := by
  fun_induction evictToCapacity w scores protectFresh with
  | case1 w full nothing =>
      have none := counted.tokens
      rw [victim_eq_none nothing] at none
      have zero : w.currentTokens = 0 := none
      omega
  | case2 w full evicted rest chosen later ih =>
      obtain ⟨front, back, whole, rfl⟩ := victim_eq_some chosen
      obtain ⟨k, ids, fits, excess⟩ := ih (counted.remove whole _)
      have order := victim_policyOrder chosen
      refine ⟨k + 1, ?_, ?_, fun j below => ?_⟩
      · rw [order, List.take_succ_cons, idsOf, List.map_cons]
        exact congrArg (evicted.contentId :: ·) ids
      · rw [order, List.drop_succ_cons]
        exact fits
      · cases j with
        | zero =>
            rw [List.drop_zero, tokensOf_policyOrder, ← counted.tokens]
            exact full
        | succ j =>
            rw [order, List.drop_succ_cons]
            exact excess j (by omega)
  | case3 w within =>
      refine ⟨0, rfl, ?_, fun j below => absurd below (Nat.not_lt_zero j)⟩
      rw [List.drop_zero, tokensOf_policyOrder, ← counted.tokens]
      exact not_lt.mp within

end Order

/-! ## What a delivery evicts -/

/-- The entries of the other ids. -/
def others (w : WindowEstimator) (contentId : String) : List WindowEntry :=
  w.entries.filter fun e => e.contentId ≠ contentId

/-- The entry of a delivery. -/
def freshEntry (w : WindowEstimator) (contentId : String) (tokenCount : Nat) : WindowEntry :=
  ⟨contentId, tokenCount, w.nextSequence⟩

/-- The window before the eviction loop. -/
def pushed (w : WindowEstimator) (contentId : String) (tokenCount : Nat) : WindowEstimator :=
  { w with
    nextSequence := w.nextSequence + 1
    currentTokens := tokensOf (w.others contentId) + tokenCount
    entries := w.others contentId ++ [w.freshEntry contentId tokenCount] }

theorem others_of_absent {w : WindowEstimator} {contentId : String}
    (absent : contentId ∉ idsOf w.entries) : w.others contentId = w.entries := by
  refine List.filter_eq_self.mpr fun e mem => ?_
  simp only [ne_eq, decide_not, Bool.not_eq_true', decide_eq_false_iff_not]
  exact fun same => absent (List.mem_map.mpr ⟨e, mem, same⟩)

theorem others_of_middle {w : WindowEstimator} {contentId : String} {front back : List WindowEntry}
    {e : WindowEntry} (whole : w.entries = front ++ e :: back) (here : e.contentId = contentId)
    (absent : contentId ∉ idsOf (front ++ back)) : w.others contentId = front ++ back := by
  rw [others, whole, List.filter_append, List.filter_cons_of_neg (by simp [here]),
    ← List.filter_append]
  exact others_of_absent (w := { w with entries := front ++ back }) absent

theorem not_mem_others (w : WindowEstimator) (contentId : String) :
    contentId ∉ idsOf (w.others contentId) := by
  intro mem
  obtain ⟨e, held, same⟩ := List.mem_map.mp mem
  simpa [same] using (List.mem_filter.mp held).2

section Record

variable {F : Type} [Score F]

/-- A delivery is a push behind the other entries, then the loop. -/
theorem recordWithScores_eq {w : WindowEstimator} (counted : w.Counted) (contentId : String)
    (tokenCount : Nat) (scores : Option (Rows String F)) :
    (w.pushed contentId tokenCount).Counted ∧
      w.recordWithScores contentId tokenCount scores =
        (w.pushed contentId tokenCount).evictToCapacity scores (some contentId) := by
  rcases removeId_spec counted contentId with
    ⟨none, absent⟩ | ⟨e, front, back, removed, whole, here, absent⟩
  · have start := counted.push absent tokenCount
    simp only [pushed, others_of_absent absent, recordWithScores, none, freshEntry,
      ← counted.tokens]
    exact ⟨start, trivial⟩
  · have kept := counted.remove whole w.evictedCount
    have start := kept.push absent tokenCount
    have tokens : tokensOf (front ++ back) = w.currentTokens - e.tokenCount := kept.tokens.symm
    simp only [pushed, others_of_middle whole here absent, recordWithScores, removed, freshEntry,
      tokens]
    exact ⟨start, trivial⟩

theorem evictToCapacity_sublist (w : WindowEstimator) (scores : Option (Rows String F))
    (protectFresh : Option String) :
    (w.evictToCapacity scores protectFresh).2.entries.Sublist w.entries := by
  fun_induction evictToCapacity w scores protectFresh with
  | case1 w full nothing => exact .refl _
  | case2 w full evicted rest chosen later ih =>
      obtain ⟨front, back, whole, rfl⟩ := victim_eq_some chosen
      refine List.Sublist.trans ih ?_
      rw [whole]
      exact (List.sublist_cons_self evicted back).append_left front
  | case3 w within => exact .refl _

end Record

section Victims

variable {F : Type} [LinearOrder F] [ExactScore F] {w : WindowEstimator} {contentId : String} {tokenCount : Nat}
  {scores : Option (Rows String F)}

/-- The order of the other entries. -/
def victims (w : WindowEstimator) (contentId : String) (scores : Option (Rows String F)) :
    List WindowEntry :=
  policyOrder w.policy (scores.map fun s => scoreFor s none) (w.others contentId)

/-- The order with the delivery in it, at score 1. -/
def victimsWith (w : WindowEstimator) (contentId : String) (tokenCount : Nat)
    (scores : Option (Rows String F)) : List WindowEntry :=
  policyOrder w.policy (scores.map fun s => scoreFor s (some contentId))
    (w.others contentId ++ [w.freshEntry contentId tokenCount])

/-- Every score is at most 1. -/
def AtMostOne (scores : Option (Rows String F)) : Prop :=
  ∀ s, scores = some s → ∀ id score, s.lookup id = some score → score ≤ Score.one

theorem scoreFor_other {s : Rows String F} {id : String} (other : id ≠ contentId) :
    scoreFor s (some contentId) id = scoreFor s none id := by
  simp [scoreFor, other]

theorem scoreFor_le_one {s : Rows String F} (atMost : AtMostOne (some s)) (id : String) :
    scoreFor s none id ≤ Score.one := by
  rw [scoreFor, if_neg (by simp)]
  cases found : s.lookup id with
  | none => exact ExactScore.zero_le_one
  | some score => exact atMost s rfl id score found

/-- The delivery comes last. -/
theorem victimsWith_eq (atMost : AtMostOne scores) :
    w.victimsWith contentId tokenCount scores =
      w.victims contentId scores ++ [w.freshEntry contentId tokenCount] := by
  have other : ∀ e ∈ w.others contentId, e.contentId ≠ contentId := by
    intro e mem
    simpa using (List.mem_filter.mp mem).2
  unfold victimsWith victims
  rw [policyOrder_concat, policyOrder_congr fun s e mem => scoreFor_other (other e mem)]
  intro f score e mem
  obtain ⟨s, rfl, rfl⟩ := Option.map_eq_some_iff.mp score
  have fresh : scoreFor s (some contentId) contentId = Score.one := by simp [scoreFor]
  show scoreFor s (some contentId) e.contentId ≤ scoreFor s (some contentId) contentId
  rw [scoreFor_other (other e mem), fresh]
  exact scoreFor_le_one atMost _

variable (contentId tokenCount scores) in
theorem record_order (counted : w.Counted) :
    ∃ k, (w.recordWithScores contentId tokenCount scores).1 =
        idsOf ((w.victimsWith contentId tokenCount scores).take k) ∧
      tokensOf ((w.victimsWith contentId tokenCount scores).drop k) ≤ w.capacity ∧
      ∀ j < k, w.capacity < tokensOf ((w.victimsWith contentId tokenCount scores).drop j) := by
  obtain ⟨start, eq⟩ := recordWithScores_eq counted contentId tokenCount scores
  rw [eq]
  exact evictToCapacity_order _ scores (some contentId) start

theorem record_prefix (counted : w.Counted) (fits : tokenCount ≤ w.capacity)
    (atMost : AtMostOne scores) :
    ∃ k, (w.recordWithScores contentId tokenCount scores).1 =
        idsOf ((w.victims contentId scores).take k) ∧
      tokensOf ((w.victims contentId scores).drop k) + tokenCount ≤ w.capacity ∧
      ∀ j < k, w.capacity < tokensOf ((w.victims contentId scores).drop j) + tokenCount := by
  obtain ⟨k, ids, rest, excess⟩ := record_order contentId tokenCount scores counted
  rw [victimsWith_eq atMost] at ids rest excess
  have tokens : ∀ j ≤ (w.victims contentId scores).length,
      tokensOf ((w.victims contentId scores ++ [w.freshEntry contentId tokenCount]).drop j) =
        tokensOf ((w.victims contentId scores).drop j) + tokenCount := by
    intro j within
    rw [List.drop_append_of_le_length within, tokensOf_middle, List.append_nil]
    rfl
  -- were all the others gone, the delivery alone would fit
  have short : k ≤ (w.victims contentId scores).length := by
    by_contra long
    have alone := excess _ (not_le.mp long)
    rw [tokens _ (le_refl _), List.drop_length] at alone
    have none : tokensOf [] = 0 := rfl
    omega
  refine ⟨k, ?_, ?_, fun j below => ?_⟩
  · rw [ids, List.take_append_of_le_length short]
  · rw [← tokens k short]
    exact rest
  · rw [← tokens j (by omega)]
    exact excess j below

/-- An oversized delivery goes itself, after what stands before it. -/
theorem record_oversized (sound : w.Sound) (large : w.capacity < tokenCount) :
    (w.recordWithScores contentId tokenCount scores).1 =
      idsOf ((w.victimsWith contentId tokenCount scores).takeWhile fun e => e.contentId ≠ contentId) ++
        [contentId] := by
  obtain ⟨k, ids, rest, excess⟩ := record_order contentId tokenCount scores sound.toCounted
  have perm : (w.victimsWith contentId tokenCount scores).Perm
      (w.others contentId ++ [w.freshEntry contentId tokenCount]) := policyOrder_perm _ _ _
  obtain ⟨front, back, whole⟩ :=
    List.append_of_mem (perm.mem_iff.mpr (List.mem_append_right _ List.mem_cons_self))
  rw [whole] at ids rest excess perm ⊢
  have rested : (front ++ back).Perm (w.others contentId) :=
    (List.perm_middle.symm.trans (perm.trans (List.perm_append_singleton _ _))).cons_inv
  have elsewhere : ∀ e ∈ front, e.contentId ≠ contentId := by
    intro e mem same
    have held := rested.mem_iff.mp (List.mem_append_left back mem)
    exact not_mem_others w contentId (List.mem_map.mpr ⟨e, held, same⟩)
  have light : tokensOf back ≤ w.capacity := by
    have parts : tokensOf (front ++ back) = tokensOf (w.others contentId) := (rested.map _).sum_eq
    have some : tokensOf (w.others contentId) ≤ tokensOf w.entries :=
      (List.filter_sublist.map _).sum_le_sum fun _ _ => Nat.zero_le _
    have whole := sound.tokens
    have within := sound.within
    simp only [tokensOf, List.map_append, List.sum_append] at parts some whole ⊢
    omega
  have heavy : w.capacity < tokensOf (w.freshEntry contentId tokenCount :: back) := by
    show w.capacity < tokenCount + tokensOf back
    omega
  have count : k = front.length + 1 := by
    by_contra other
    rcases Nat.lt_or_gt_of_ne other with less | more
    · have left : tokensOf (w.freshEntry contentId tokenCount :: back) ≤
          tokensOf ((front ++ w.freshEntry contentId tokenCount :: back).drop k) := by
        rw [List.drop_append_of_le_length (by omega), tokensOf, tokensOf, List.map_append,
          List.sum_append]
        omega
      omega
    · have left := excess (front.length + 1) more
      rw [← List.drop_drop, List.drop_left] at left
      have same : List.drop 1 (w.freshEntry contentId tokenCount :: back) = back := rfl
      rw [same] at left
      omega
  rw [ids, count, List.take_length_add_append, List.takeWhile_append_of_pos (by simpa using elsewhere),
    List.takeWhile_cons_of_neg (by simp [freshEntry])]
  simp [idsOf, freshEntry]

end Victims

end WindowEstimator

/-! ## The queue is in the order of last use -/

/-- The call puts this id at the back of the queue, if it is in the window after it. -/
def WindowOp.uses {F : Type} (policy : DropPolicy) (id : String) : WindowOp F → Bool
  | .record contentId _ | .recordWithScores contentId _ _ => contentId = id
  | .recordPriorConsumption _ => priorConsumptionContentId = id
  | .touch contentId => policy = .lru && contentId = id
  | .forceEvict _ => false

namespace WindowEstimator

section LastUse

variable {F : Type}

/-- The position of the last call that uses an id, from 1; 0 if there is none. -/
def lastUse (policy : DropPolicy) (ops : List (WindowOp F)) (id : String) : Nat :=
  ops.length - ops.reverse.findIdx (WindowOp.uses policy id)

theorem lastUse_concat (policy : DropPolicy) (ops : List (WindowOp F)) (op : WindowOp F)
    (id : String) :
    lastUse policy (ops ++ [op]) id =
      if op.uses policy id then ops.length + 1 else lastUse policy ops id := by
  unfold lastUse
  rw [List.reverse_append, List.reverse_singleton, List.singleton_append, List.findIdx_cons,
    List.length_append, List.length_singleton]
  cases op.uses policy id with
  | true => rfl
  | false =>
      show ops.length + 1 - (_ + 1) = ops.length - _
      omega

theorem lastUse_le (policy : DropPolicy) (ops : List (WindowOp F)) (id : String) :
    lastUse policy ops id ≤ ops.length := Nat.sub_le _ _

/-- The ids are queued in the order of their last use. -/
def Recency (policy : DropPolicy) (ops : List (WindowOp F)) (ids : List String) : Prop :=
  ids.Pairwise fun a b => lastUse policy ops a < lastUse policy ops b

/-- A call that uses none of the ids. -/
theorem Recency.unused {policy : DropPolicy} {ops : List (WindowOp F)} {op : WindowOp F}
    {ids : List String} (recency : Recency policy ops ids)
    (unused : ∀ id ∈ ids, op.uses policy id = false) : Recency policy (ops ++ [op]) ids := by
  refine recency.imp_of_mem fun {a b} memA memB less => ?_
  rw [lastUse_concat, lastUse_concat, unused a memA, unused b memB]
  exact less

/-- A call that uses the id it puts at the back. -/
theorem Recency.used {policy : DropPolicy} {ops : List (WindowOp F)} {op : WindowOp F}
    {ids : List String} {id : String} (recency : Recency policy ops ids) (fresh : id ∉ ids)
    (only : ∀ other, op.uses policy other = decide (id = other)) :
    Recency policy (ops ++ [op]) (ids ++ [id]) := by
  refine List.pairwise_append.mpr ⟨recency.unused fun a mem => ?_, List.pairwise_singleton _ _, ?_⟩
  · rw [only, decide_eq_false_iff_not]
    rintro rfl
    exact fresh mem
  · intro a mem b last
    rw [List.mem_singleton.mp last, lastUse_concat, lastUse_concat, only, only]
    have other : ¬ id = a := fun same => fresh (same ▸ mem)
    have within := lastUse_le policy ops a
    simp only [other, decide_false, decide_true, if_true, Bool.false_eq_true, if_false]
    omega

theorem Recency.touch {w : WindowEstimator} (counted : w.Counted) {ops : List (WindowOp F)}
    (recency : Recency w.policy ops (idsOf w.entries)) (contentId : String) :
    Recency w.policy (ops ++ [.touch contentId]) (idsOf (w.touch contentId).entries) := by
  unfold WindowEstimator.touch
  split
  · rename_i other
    refine recency.unused fun id _ => ?_
    simp [WindowOp.uses, other]
  · rename_i lru
    have lru : w.policy = .lru := not_not.mp lru
    have only : ∀ other, (WindowOp.touch contentId : WindowOp F).uses w.policy other =
        decide (contentId = other) := fun other => by simp [WindowOp.uses, lru]
    rcases removeId_spec counted contentId with
      ⟨none, absent⟩ | ⟨e, front, back, removed, whole, here, absent⟩
    · rw [none]
      refine recency.unused fun id mem => ?_
      rw [only, decide_eq_false_iff_not]
      rintro rfl
      exact absent mem
    · rw [removed]
      have rest : Recency w.policy ops (idsOf (front ++ back)) := by
        refine List.Pairwise.sublist ?_ recency
        rw [whole]
        exact ((List.sublist_cons_self e back).append_left front).map _
      have queued := rest.used absent only
      simpa [idsOf, here] using queued

theorem Recency.forceEvict {w : WindowEstimator} (counted : w.Counted) {ops : List (WindowOp F)}
    (recency : Recency w.policy ops (idsOf w.entries)) (contentId : String) :
    Recency w.policy (ops ++ [.forceEvict contentId]) (idsOf (w.forceEvict contentId).2.entries) := by
  have kept : Recency w.policy (ops ++ [.forceEvict contentId]) (idsOf w.entries) :=
    recency.unused fun id _ => rfl
  unfold WindowEstimator.forceEvict
  rcases removeId_spec counted contentId with
    ⟨none, -⟩ | ⟨e, front, back, removed, whole, -, -⟩
  · rw [none]
    exact kept
  · rw [removed]
    refine List.Pairwise.sublist ?_ kept
    rw [whole]
    exact ((List.sublist_cons_self e back).append_left front).map _

variable [Score F]

/-- A record keeps the queue in the order of last use. -/
theorem Recency.record {w : WindowEstimator} (counted : w.Counted) {ops : List (WindowOp F)}
    {op : WindowOp F} {contentId : String} (recency : Recency w.policy ops (idsOf w.entries))
    (only : ∀ other, op.uses w.policy other = decide (contentId = other)) (tokenCount : Nat)
    (scores : Option (Rows String F)) :
    Recency w.policy (ops ++ [op])
      (idsOf (w.recordWithScores contentId tokenCount scores).2.entries) := by
  rw [(recordWithScores_eq counted contentId tokenCount scores).2]
  have rest : Recency w.policy ops (idsOf (w.others contentId)) :=
    List.Pairwise.sublist (List.filter_sublist.map _) recency
  have queued := rest.used (not_mem_others w contentId) only
  have sub := (evictToCapacity_sublist (w.pushed contentId tokenCount) scores
    (some contentId)).map WindowEntry.contentId
  have ids : (w.pushed contentId tokenCount).entries.map WindowEntry.contentId =
      idsOf (w.others contentId) ++ [contentId] := by
    simp [idsOf, pushed, freshEntry]
  rw [ids] at sub
  exact List.Pairwise.sublist sub queued

end LastUse

/-! ## Every run -/

section Runs

variable {F : Type}

/-- What is known of a window after the given calls. -/
structure After (capacity : Nat) (policy : DropPolicy) (ops : List (WindowOp F))
    (w : WindowEstimator) : Prop where
  sound : w.Sound
  capacity_eq : w.capacity = capacity
  policy_eq : w.policy = policy
  recency : Recency policy ops (idsOf w.entries)

theorem after_new (capacity : Nat) (policy : DropPolicy) :
    After capacity policy ([] : List (WindowOp F)) (.new capacity policy) :=
  ⟨sound_new capacity policy, rfl, rfl, List.Pairwise.nil⟩

variable [Score F]

theorem recordWithScores_config {w : WindowEstimator} (counted : w.Counted) (contentId : String)
    (tokenCount : Nat) (scores : Option (Rows String F)) :
    (w.recordWithScores contentId tokenCount scores).2.capacity = w.capacity ∧
      (w.recordWithScores contentId tokenCount scores).2.policy = w.policy := by
  obtain ⟨start, eq⟩ := recordWithScores_eq counted contentId tokenCount scores
  have evicted := evictToCapacity_spec _ scores (some contentId) start
  rw [eq]
  exact ⟨evicted.capacity, evicted.policy⟩

theorem call_config {w : WindowEstimator} (counted : w.Counted) (op : WindowOp F) :
    (w.call op).2.capacity = w.capacity ∧ (w.call op).2.policy = w.policy := by
  cases op with
  | record contentId tokenCount => exact recordWithScores_config counted contentId tokenCount none
  | recordWithScores contentId tokenCount scores =>
      exact recordWithScores_config counted contentId tokenCount scores
  | recordPriorConsumption tokenCount => exact recordWithScores_config counted _ tokenCount none
  | touch contentId =>
      simp only [call, touch]
      split
      · exact ⟨rfl, rfl⟩
      · split <;> exact ⟨rfl, rfl⟩
  | forceEvict contentId =>
      simp only [call, forceEvict]
      split <;> exact ⟨rfl, rfl⟩

theorem call_recency {w : WindowEstimator} (counted : w.Counted) {ops : List (WindowOp F)}
    (recency : Recency w.policy ops (idsOf w.entries)) (op : WindowOp F) :
    Recency w.policy (ops ++ [op]) (idsOf (w.call op).2.entries) := by
  cases op with
  | record contentId tokenCount => exact recency.record counted (fun _ => rfl) tokenCount none
  | recordWithScores contentId tokenCount scores =>
      exact recency.record counted (fun _ => rfl) tokenCount scores
  | recordPriorConsumption tokenCount => exact recency.record counted (fun _ => rfl) tokenCount none
  | touch contentId => exact recency.touch counted contentId
  | forceEvict contentId => exact recency.forceEvict counted contentId

theorem After.call {capacity : Nat} {policy : DropPolicy} {ops : List (WindowOp F)}
    {w : WindowEstimator} (after : After capacity policy ops w) (op : WindowOp F) :
    After capacity policy (ops ++ [op]) (w.call op).2 := by
  obtain ⟨sound, rfl, rfl, recency⟩ := after
  obtain ⟨capacity_eq, policy_eq⟩ := call_config sound.toCounted op
  exact ⟨(sound.call op).1, capacity_eq, policy_eq, call_recency sound.toCounted recency op⟩

theorem After.run {capacity : Nat} {policy : DropPolicy} {done ops : List (WindowOp F)}
    {w t : WindowEstimator} (after : After capacity policy done w)
    (ran : exec WindowEstimator.step w ops = some t) : After capacity policy (done ++ ops) t := by
  induction ops generalizing done w with
  | nil =>
      cases ran
      rw [List.append_nil]
      exact after
  | cons op ops ih =>
      obtain ⟨next, taken, later⟩ := (exec_cons_eq_some _).mp ran
      cases taken
      have whole := ih (after.call op) later
      rwa [List.append_assoc] at whole

end Runs

/-- **Which entries a delivery evicts.**  In every state of every run: the queue is in the order
of last use.  If no score exceeds 1 the delivery comes last in the order of the victims, and if
it fits, a prefix of the others goes, the shortest that makes room.  A delivery that does not
fit goes itself, after the entries before it and nothing else. -/
theorem delivery_evicts {F : Type} [LinearOrder F] [ExactScore F] (capacity : Nat) (policy : DropPolicy)
    (ops : List (WindowOp F)) (w : WindowEstimator)
    (reached : exec WindowEstimator.step (.new capacity policy) ops = some w) (contentId : String)
    (tokenCount : Nat) (scores : Option (Rows String F)) :
    let out := w.recordWithScores contentId tokenCount scores
    w.policy = policy ∧ Recency policy ops (idsOf w.entries) ∧ out.2.currentTokens ≤ capacity ∧
      (AtMostOne scores →
        w.victimsWith contentId tokenCount scores =
          w.victims contentId scores ++ [w.freshEntry contentId tokenCount]) ∧
      (AtMostOne scores → tokenCount ≤ capacity →
        contentId ∉ out.1 ∧ contentId ∈ idsOf out.2.entries ∧
          ∃ k, out.1 = idsOf ((w.victims contentId scores).take k) ∧
            tokensOf ((w.victims contentId scores).drop k) + tokenCount ≤ capacity ∧
            ∀ j < k, capacity < tokensOf ((w.victims contentId scores).drop j) + tokenCount) ∧
      (capacity < tokenCount →
        out.1 = idsOf ((w.victimsWith contentId tokenCount scores).takeWhile
          fun e => e.contentId ≠ contentId) ++ [contentId]) := by
  intro out
  obtain ⟨sound, rfl, rfl, recency⟩ := (after_new capacity policy).run reached
  rw [List.nil_append] at recency
  obtain ⟨kept, reported⟩ := recordWithScores_spec sound.toCounted contentId tokenCount scores
  have config := recordWithScores_config sound.toCounted contentId tokenCount scores
  refine ⟨rfl, recency, config.1 ▸ kept.within, victimsWith_eq, fun atMost fits => ?_,
    record_oversized sound⟩
  obtain ⟨k, ids, rest, excess⟩ := record_prefix sound.toCounted fits atMost
  have safe : contentId ∉ out.1 := by
    intro mem
    rw [ids] at mem
    obtain ⟨e, taken, same⟩ := List.mem_map.mp mem
    have held := (policyOrder_perm _ _ _).mem_iff.mp (List.mem_of_mem_take taken)
    exact not_mem_others w contentId (List.mem_map.mpr ⟨e, held, same⟩)
  refine ⟨safe, ?_, k, ids, rest, excess⟩
  by_contra gone
  exact safe ((reported.gone_iff contentId).mpr ⟨.inl rfl, gone⟩)

/-- Scores in percent. -/
instance percentScore : ExactScore Int where
  one := 100
  zero := 0
  partialCmp := fun a b => some (compare a b)
  partialCmp_eq := fun _ _ => rfl
  zero_le_one := by decide

/-- Two entries of four tokens in a window of ten. -/
def twoEntries : WindowEstimator where
  capacity := 10
  policy := .fsrs
  entries := [⟨"a", 4, 0⟩, ⟨"b", 4, 1⟩]
  currentTokens := 8
  nextSequence := 2
  evictedCount := 0

theorem delivery_evicts_third :
    "c" ∈ idsOf (twoEntries.recordWithScores "c" 6
      (some ((∅ : Rows String Int).insert "a" 90))).2.entries := by
  have whole := delivery_evicts 10 .fsrs [.record "a" 4, .record "b" 4] twoEntries
    (by decide +kernel) "c" 6 (some ((∅ : Rows String Int).insert "a" 90))
  refine (whole.2.2.2.2.1 (fun s given id score found => ?_) (by decide)).2.1
  cases given
  rw [Rows.lookup_insert_if] at found
  split at found
  · cases found
    decide
  · cases found

end WindowEstimator

end Ministr
