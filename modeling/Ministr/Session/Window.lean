/-
# Session.Window — the estimate of what is still in the agent's context

`WindowEstimator` keeps the deliveries it believes to be in the agent's context, front
oldest, with a running token total.  A new delivery replaces the old one of the same id
and then evicts until the total fits the capacity: from the front, or under FSRS with
scores the entry of the lowest score.  The total is kept by four separate saturating
subtractions; `window_invariant` says that it is nevertheless the sum of the entries in
every state of every run, together with the rest of the representation invariant and
what a `record` reports.

Scores are floating point in the source.  The only thing read from them is
`partial_cmp`, which is a parameter here (`Score`), so that nothing is assumed about
incomparable values.
-/
import Ministr.Session.Types
import Ministr.Theory.Run

namespace Ministr

open Ministr.Theory

set_option autoImplicit false

/-! ## Data -/

/-- `PRIOR_CONSUMPTION_CONTENT_ID`. -/
def priorConsumptionContentId : String := "__ministr_restored_prior__"

structure WindowEntry where
  contentId : String
  tokenCount : Nat
  sequence : Nat
  deriving DecidableEq, Repr

/-- What is read from `f64` scores: the two constants and `partial_cmp`. -/
class Score (F : Type) where
  one : F
  zero : F
  partialCmp : F → F → Option Ordering

structure WindowEstimator where
  capacity : Nat
  policy : DropPolicy
  entries : List WindowEntry
  currentTokens : Nat
  nextSequence : Nat
  evictedCount : Nat
  deriving DecidableEq, Repr

/-! ## Positions in the queue -/

/-- `VecDeque::remove`. -/
def removeAt {α : Type} : List α → Nat → Option (α × List α)
  | [], _ => none
  | a :: as, 0 => some (a, as)
  | a :: as, i + 1 => (removeAt as i).map fun e => (e.1, a :: e.2)

theorem removeAt_eq_some {α : Type} {as rest : List α} {i : Nat} {a : α}
    (removed : removeAt as i = some (a, rest)) :
    ∃ front back, as = front ++ a :: back ∧ rest = front ++ back ∧ front.length = i := by
  induction as generalizing i rest with
  | nil => cases removed
  | cons b as ih =>
      cases i with
      | zero =>
          cases removed
          exact ⟨[], as, rfl, rfl, rfl⟩
      | succ i =>
          obtain ⟨⟨a', rest'⟩, later, eq⟩ := Option.map_eq_some_iff.mp removed
          cases eq
          obtain ⟨front, back, rfl, rfl, rfl⟩ := ih later
          exact ⟨b :: front, back, rfl, rfl, rfl⟩

theorem removeAt_isSome {α : Type} {as : List α} {i : Nat} (inside : i < as.length) :
    ∃ a rest, removeAt as i = some (a, rest) := by
  induction as generalizing i with
  | nil => simp at inside
  | cons b as ih =>
      cases i with
      | zero => exact ⟨b, as, rfl⟩
      | succ i =>
          obtain ⟨a, rest, later⟩ := ih (by simpa using inside)
          exact ⟨a, b :: rest, by simp [removeAt, later]⟩

/-- `enumerate().min_by(…).map(|(i, _)| i)`: the first of the least. -/
def minIdx {α : Type} (cmp : α → α → Ordering) : List α → Option Nat
  | [] => none
  | a :: as =>
      some ((as.zipIdx 1).foldl (fun best e => if cmp best.1 e.1 = .gt then e else best) (a, 0)).2

theorem minIdx_lt {α : Type} {cmp : α → α → Ordering} {as : List α} {i : Nat}
    (least : minIdx cmp as = some i) : i < as.length := by
  cases as with
  | nil => cases least
  | cons a as =>
      have inside : ∀ (es : List (α × Nat)) (best : α × Nat), best.2 < (a :: as).length →
          (∀ e ∈ es, e.2 < (a :: as).length) →
          (es.foldl (fun best e => if cmp best.1 e.1 = .gt then e else best) best).2 <
            (a :: as).length := by
        intro es
        induction es with
        | nil => exact fun best held _ => held
        | cons e es ih =>
            intro best held each
            refine ih _ ?_ fun e' mem => each e' (List.mem_cons_of_mem _ mem)
            dsimp only
            split
            · exact each e List.mem_cons_self
            · exact held
      cases least
      refine inside _ (a, 0) (by simp) fun e mem => ?_
      have := List.snd_lt_of_mem_zipIdx mem
      simp only [List.length_cons]
      omega

namespace WindowEstimator

/-! ## The operations -/

def new (capacity : Nat) (policy : DropPolicy) : WindowEstimator where
  capacity := capacity
  policy := policy
  entries := []
  currentTokens := 0
  nextSequence := 0
  evictedCount := 0

/-- The position of the entry of this id. -/
def position (w : WindowEstimator) (contentId : String) : Option Nat :=
  w.entries.findIdx? fun e => e.contentId = contentId

/-- The entry of this id, removed. -/
def removeId (w : WindowEstimator) (contentId : String) :
    Option (WindowEntry × List WindowEntry) :=
  (w.position contentId).bind (removeAt w.entries)

section Evict

variable {F : Type} [Score F]

/-- `score_for`: the entry just inserted counts as certainly remembered. -/
def scoreFor (scores : Rows String F) (protectFresh : Option String) (id : String) : F :=
  if some id = protectFresh then Score.one else (scores.lookup id).getD Score.zero

/-- Incomparable scores count as equal. -/
def compareScores (scores : Rows String F) (protectFresh : Option String) (a b : WindowEntry) :
    Ordering :=
  (Score.partialCmp (scoreFor scores protectFresh a.contentId)
    (scoreFor scores protectFresh b.contentId)).getD .eq

/-- The entry the loop evicts next, removed. -/
def victim (policy : DropPolicy) (scores : Option (Rows String F)) (protectFresh : Option String)
    (entries : List WindowEntry) : Option (WindowEntry × List WindowEntry) :=
  match policy, scores with
  | .fsrs, some s =>
      if entries.isEmpty then removeAt entries 0
      else (minIdx (compareScores s protectFresh) entries).bind (removeAt entries)
  | _, _ => removeAt entries 0

theorem victim_eq_some {policy : DropPolicy} {scores : Option (Rows String F)}
    {protectFresh : Option String} {entries rest : List WindowEntry} {e : WindowEntry}
    (chosen : victim policy scores protectFresh entries = some (e, rest)) :
    ∃ front back, entries = front ++ e :: back ∧ rest = front ++ back := by
  have removed : ∃ i, removeAt entries i = some (e, rest) := by
    unfold victim at chosen
    split at chosen
    · split at chosen
      · exact ⟨0, chosen⟩
      · obtain ⟨i, -, removed⟩ := Option.bind_eq_some_iff.mp chosen
        exact ⟨i, removed⟩
    · exact ⟨0, chosen⟩
  obtain ⟨i, removed⟩ := removed
  obtain ⟨front, back, whole, left, -⟩ := removeAt_eq_some removed
  exact ⟨front, back, whole, left⟩

/-- Only an empty queue has no victim. -/
theorem victim_eq_none {policy : DropPolicy} {scores : Option (Rows String F)}
    {protectFresh : Option String} {entries : List WindowEntry}
    (nothing : victim policy scores protectFresh entries = none) : entries = [] := by
  cases entries with
  | nil => rfl
  | cons e es =>
      unfold victim at nothing
      split at nothing
      · rename_i s
        rw [if_neg (by simp)] at nothing
        cases least : minIdx (compareScores s protectFresh) (e :: es) with
        | none => cases least
        | some i =>
            obtain ⟨a, rest, removed⟩ := removeAt_isSome (minIdx_lt least)
            rw [least, Option.bind_some, removed] at nothing
            cases nothing
      · cases nothing

/-- `evict_to_capacity`: the ids evicted, in order, and the window left. -/
def evictToCapacity (w : WindowEstimator) (scores : Option (Rows String F))
    (protectFresh : Option String) : List String × WindowEstimator :=
  if w.capacity < w.currentTokens then
    match _chosen : victim w.policy scores protectFresh w.entries with
    | none => ([], w)
    | some (evicted, rest) =>
        let later := evictToCapacity
          { w with
            entries := rest
            currentTokens := w.currentTokens - evicted.tokenCount
            evictedCount := w.evictedCount + 1 } scores protectFresh
        (evicted.contentId :: later.1, later.2)
  else ([], w)
termination_by w.entries.length
decreasing_by
  obtain ⟨front, back, whole, rest⟩ := victim_eq_some _chosen
  simp only [whole, rest, List.length_append, List.length_cons]
  omega

def recordWithScores (w : WindowEstimator) (contentId : String) (tokenCount : Nat)
    (scores : Option (Rows String F)) : List String × WindowEstimator :=
  let w :=
    match w.removeId contentId with
    | some (old, rest) =>
        { w with entries := rest, currentTokens := w.currentTokens - old.tokenCount }
    | none => w
  evictToCapacity
    { w with
      nextSequence := w.nextSequence + 1
      currentTokens := w.currentTokens + tokenCount
      entries := w.entries ++ [⟨contentId, tokenCount, w.nextSequence⟩] }
    scores (some contentId)

variable (F) in
def record (w : WindowEstimator) (contentId : String) (tokenCount : Nat) :
    List String × WindowEstimator :=
  w.recordWithScores contentId tokenCount (none : Option (Rows String F))

variable (F) in
def recordPriorConsumption (w : WindowEstimator) (tokenCount : Nat) :
    List String × WindowEstimator :=
  w.recordWithScores priorConsumptionContentId tokenCount (none : Option (Rows String F))

end Evict

def touch (w : WindowEstimator) (contentId : String) : WindowEstimator :=
  if w.policy ≠ .lru then w
  else
    match w.removeId contentId with
    | some (entry, rest) =>
        { w with
          entries := rest ++ [{ entry with sequence := w.nextSequence }]
          nextSequence := w.nextSequence + 1 }
    | none => w

def forceEvict (w : WindowEstimator) (contentId : String) : Bool × WindowEstimator :=
  match w.removeId contentId with
  | some (entry, rest) =>
      (true, { w with
        entries := rest
        currentTokens := w.currentTokens - entry.tokenCount
        evictedCount := w.evictedCount + 1 })
  | none => (false, w)

/-! ## The invariant -/

/-- The tokens of a queue. -/
def tokensOf (entries : List WindowEntry) : Nat := (entries.map WindowEntry.tokenCount).sum

/-- The content ids of a queue. -/
def idsOf (entries : List WindowEntry) : List String := entries.map WindowEntry.contentId

/-- The representation invariant, the capacity apart. -/
structure Counted (w : WindowEstimator) : Prop where
  tokens : w.currentTokens = tokensOf w.entries
  distinct : (idsOf w.entries).Nodup
  ordered : (w.entries.map WindowEntry.sequence).Pairwise (· < ·)
  below : ∀ e ∈ w.entries, e.sequence < w.nextSequence

/-- The whole invariant. -/
structure Sound (w : WindowEstimator) : Prop extends Counted w where
  within : w.currentTokens ≤ w.capacity

theorem sound_new (capacity : Nat) (policy : DropPolicy) : (new capacity policy).Sound where
  tokens := rfl
  distinct := List.nodup_nil
  ordered := List.Pairwise.nil
  below := nofun
  within := Nat.zero_le _

theorem tokensOf_middle (front back : List WindowEntry) (e : WindowEntry) :
    tokensOf (front ++ e :: back) = tokensOf (front ++ back) + e.tokenCount := by
  simp only [tokensOf, List.map_append, List.map_cons, List.sum_append, List.sum_cons]
  omega

/-- Taking one entry out, with its tokens. -/
theorem Counted.remove {w : WindowEstimator} (counted : w.Counted)
    {front back : List WindowEntry} {e : WindowEntry} (whole : w.entries = front ++ e :: back)
    (evictedCount : Nat) :
    ({ w with
        entries := front ++ back
        currentTokens := w.currentTokens - e.tokenCount
        evictedCount } : WindowEstimator).Counted := by
  have part : (front ++ back).Sublist w.entries := by
    rw [whole]
    exact (List.sublist_cons_self e back).append_left front
  refine ⟨?_, counted.distinct.sublist (part.map _), counted.ordered.sublist (part.map _),
    fun e' mem => counted.below e' (part.subset mem)⟩
  show w.currentTokens - e.tokenCount = tokensOf (front ++ back)
  rw [counted.tokens, whole, tokensOf_middle]
  omega

/-- Appending an entry of a new id with the next sequence number. -/
theorem Counted.push {w : WindowEstimator} (counted : w.Counted) {contentId : String}
    (fresh : contentId ∉ idsOf w.entries) (tokenCount : Nat) :
    ({ w with
        nextSequence := w.nextSequence + 1
        currentTokens := w.currentTokens + tokenCount
        entries := w.entries ++ [⟨contentId, tokenCount, w.nextSequence⟩] } :
      WindowEstimator).Counted where
  tokens := by
    show w.currentTokens + tokenCount = tokensOf (w.entries ++ [_])
    rw [tokensOf_middle, List.append_nil, ← counted.tokens]
  distinct := by
    simp only [idsOf, List.map_append, List.map_cons, List.map_nil]
    refine List.nodup_append.mpr ⟨counted.distinct, List.nodup_singleton _, ?_⟩
    rintro a mem b only rfl
    exact fresh (List.mem_singleton.mp only ▸ mem)
  ordered := by
    simp only [List.map_append, List.map_cons, List.map_nil]
    refine List.pairwise_append.mpr ⟨counted.ordered, List.pairwise_singleton _ _, ?_⟩
    intro a mem b only
    obtain ⟨e, held, rfl⟩ := List.mem_map.mp mem
    rw [List.mem_singleton.mp only]
    exact counted.below e held
  below := by
    intro e mem
    rcases List.mem_append.mp mem with held | new
    · exact Nat.lt_succ_of_lt (counted.below e held)
    · rw [List.mem_singleton.mp new]
      exact Nat.lt_succ_self _

/-! ## What each operation does -/

/-- Removing an id takes its only entry out. -/
theorem removeId_spec {w : WindowEstimator} (counted : w.Counted) (contentId : String) :
    (w.removeId contentId = none ∧ contentId ∉ idsOf w.entries) ∨
      ∃ e front back, w.removeId contentId = some (e, front ++ back) ∧
        w.entries = front ++ e :: back ∧ e.contentId = contentId ∧
        contentId ∉ idsOf (front ++ back) := by
  cases found : w.position contentId with
  | none =>
      refine Or.inl ⟨by simp [removeId, found], fun mem => ?_⟩
      obtain ⟨e, held, same⟩ := List.mem_map.mp mem
      have other := List.findIdx?_eq_none_iff.mp found e held
      simp [same] at other
  | some i =>
      obtain ⟨inside, same, -⟩ := List.findIdx?_eq_some_iff_getElem.mp found
      obtain ⟨e, rest, removed⟩ := removeAt_isSome inside
      obtain ⟨front, back, whole, rfl, rfl⟩ := removeAt_eq_some removed
      have here : e.contentId = contentId := by
        simpa [whole] using same
      refine Or.inr ⟨e, front, back, by simp [removeId, found, removed], whole, here, ?_⟩
      have distinct := counted.distinct
      rw [whole, idsOf, List.map_append, List.map_cons, List.nodup_middle, here] at distinct
      rw [idsOf, List.map_append]
      exact (List.nodup_cons.mp distinct).1

section Evict

variable {F : Type} [Score F]

/-- What a window loses and keeps when the ids `gone` are evicted from it. -/
structure Evicted (w : WindowEstimator) (gone : List String) (t : WindowEstimator) : Prop where
  sound : t.Sound
  capacity : t.capacity = w.capacity
  policy : t.policy = w.policy
  ids : (idsOf w.entries).Perm (gone ++ idsOf t.entries)
  count : t.evictedCount = w.evictedCount + gone.length

/-- The loop evicts down to the capacity. -/
theorem evictToCapacity_spec (w : WindowEstimator) (scores : Option (Rows String F))
    (protectFresh : Option String) (counted : w.Counted) :
    Evicted w (w.evictToCapacity scores protectFresh).1
      (w.evictToCapacity scores protectFresh).2 := by
  fun_induction evictToCapacity w scores protectFresh with
  | case1 w full nothing =>
      -- an empty queue holds no tokens, so it is not over its capacity
      have none := counted.tokens
      rw [victim_eq_none nothing] at none
      have zero : w.currentTokens = 0 := none
      omega
  | case2 w full evicted rest chosen later ih =>
      obtain ⟨front, back, whole, rfl⟩ := victim_eq_some chosen
      obtain ⟨sound, capacity, policy, ids, count⟩ := ih (counted.remove whole _)
      refine ⟨sound, capacity, policy, ?_, ?_⟩
      · have middle : (idsOf w.entries).Perm (evicted.contentId :: idsOf (front ++ back)) := by
          rw [whole]
          exact List.perm_middle.map WindowEntry.contentId
        exact middle.trans (ids.cons _)
      · rw [count]
        show w.evictedCount + 1 + later.1.length = w.evictedCount + (later.1.length + 1)
        omega
  | case3 w within =>
      exact ⟨⟨counted, not_lt.mp within⟩, rfl, rfl, List.Perm.refl _, rfl⟩

/-- What a record call reports: the ids that were in the window or are the recorded one
and are in it no longer, each once. -/
structure Reported (w : WindowEstimator) (contentId : String) (gone : List String)
    (t : WindowEstimator) : Prop where
  nodup : gone.Nodup
  gone_iff : ∀ id, id ∈ gone ↔ (id = contentId ∨ id ∈ idsOf w.entries) ∧ id ∉ idsOf t.entries
  count : t.evictedCount = w.evictedCount + gone.length

/-- A delivery pushed onto a queue without its id, and the eviction after it. -/
theorem Counted.pushEvict {w : WindowEstimator} (counted : w.Counted) {contentId : String}
    (fresh : contentId ∉ idsOf w.entries) (tokenCount : Nat) (scores : Option (Rows String F)) :
    let pushed : WindowEstimator := { w with
      nextSequence := w.nextSequence + 1
      currentTokens := w.currentTokens + tokenCount
      entries := w.entries ++ [⟨contentId, tokenCount, w.nextSequence⟩] }
    let out := pushed.evictToCapacity scores (some contentId)
    out.2.Sound ∧ Reported w contentId out.1 out.2 := by
  intro pushed out
  have recorded := counted.push fresh tokenCount
  obtain ⟨sound, -, -, ids, count⟩ :=
    evictToCapacity_spec pushed scores (some contentId) recorded
  have parts : (out.1 ++ idsOf out.2.entries).Nodup := ids.nodup_iff.mp recorded.distinct
  obtain ⟨nodup, -, apart⟩ := List.nodup_append.mp parts
  refine ⟨sound, nodup, fun id => ?_, count⟩
  have mem : id ∈ out.1 ++ idsOf out.2.entries ↔ id = contentId ∨ id ∈ idsOf w.entries := by
    rw [← ids.mem_iff]
    show id ∈ (w.entries ++ [_]).map WindowEntry.contentId ↔ _
    rw [List.map_append, List.mem_append, or_comm]
    simp [idsOf]
  rw [← mem, List.mem_append]
  exact ⟨fun left => ⟨Or.inl left, fun kept => apart id left id kept rfl⟩,
    fun ⟨either, notKept⟩ => either.resolve_right notKept⟩

theorem recordWithScores_spec {w : WindowEstimator} (counted : w.Counted) (contentId : String)
    (tokenCount : Nat) (scores : Option (Rows String F)) :
    (w.recordWithScores contentId tokenCount scores).2.Sound ∧
      Reported w contentId (w.recordWithScores contentId tokenCount scores).1
        (w.recordWithScores contentId tokenCount scores).2 := by
  rcases removeId_spec counted contentId with ⟨none, absent⟩ | ⟨e, front, back, removed, whole, here, absent⟩
  · simp only [recordWithScores, none]
    exact counted.pushEvict absent tokenCount scores
  · simp only [recordWithScores, removed]
    obtain ⟨sound, nodup, left, count⟩ :=
      (counted.remove whole w.evictedCount).pushEvict absent tokenCount scores
    refine ⟨sound, nodup, fun id => (left id).trans (and_congr_left fun _ => ?_), count⟩
    -- the replaced entry had the recorded id
    have mem : id ∈ idsOf w.entries ↔ id = contentId ∨ id ∈ idsOf (front ++ back) := by
      rw [whole, ← here]
      exact (List.perm_middle.map WindowEntry.contentId).mem_iff.trans List.mem_cons
    rw [mem]
    tauto

theorem touch_sound {w : WindowEstimator} (sound : w.Sound) (contentId : String) :
    (w.touch contentId).Sound := by
  unfold touch
  split
  · exact sound
  · rcases removeId_spec sound.toCounted contentId with
      ⟨none, -⟩ | ⟨e, front, back, removed, whole, here, absent⟩
    · rw [none]
      exact sound
    · rw [removed]
      have held : e.tokenCount ≤ w.currentTokens := by
        rw [sound.tokens, whole, tokensOf_middle]
        omega
      have moved := (sound.toCounted.remove whole w.evictedCount).push
        (here ▸ absent) e.tokenCount
      simp only [Nat.sub_add_cancel held] at moved
      exact ⟨moved, sound.within⟩

theorem forceEvict_sound {w : WindowEstimator} (sound : w.Sound) (contentId : String) :
    (w.forceEvict contentId).2.Sound := by
  unfold forceEvict
  rcases removeId_spec sound.toCounted contentId with
    ⟨none, -⟩ | ⟨e, front, back, removed, whole, -, -⟩
  · rw [none]
    exact sound
  · rw [removed]
    refine ⟨sound.toCounted.remove whole _, ?_⟩
    have := sound.within
    show w.currentTokens - e.tokenCount ≤ w.capacity
    omega

end Evict

end WindowEstimator

/-! ## Runs -/

/-- The calls that change a window. -/
inductive WindowOp (F : Type) where
  | record (contentId : String) (tokenCount : Nat)
  | recordWithScores (contentId : String) (tokenCount : Nat) (scores : Option (Rows String F))
  | recordPriorConsumption (tokenCount : Nat)
  | touch (contentId : String)
  | forceEvict (contentId : String)

section Runs

variable {F : Type}

open WindowEstimator

/-- The id a record call is about. -/
def WindowOp.recorded : WindowOp F → Option String
  | .record contentId _ | .recordWithScores contentId _ _ => some contentId
  | .recordPriorConsumption _ => some priorConsumptionContentId
  | .touch _ | .forceEvict _ => none

variable [Score F]

/-- One call: the ids it reports and the window left. -/
def WindowEstimator.call (w : WindowEstimator) : WindowOp F → List String × WindowEstimator
  | .record contentId tokenCount => w.record F contentId tokenCount
  | .recordWithScores contentId tokenCount scores =>
      w.recordWithScores contentId tokenCount scores
  | .recordPriorConsumption tokenCount => w.recordPriorConsumption F tokenCount
  | .touch contentId => ([], w.touch contentId)
  | .forceEvict contentId => ([], (w.forceEvict contentId).2)

/-- The calls as a step function; every call is enabled. -/
def WindowEstimator.step (w : WindowEstimator) (op : WindowOp F) : Option WindowEstimator :=
  some (w.call op).2

/-- A record call reports the ids that left the window by eviction. -/
def WindowEstimator.Reports (w : WindowEstimator) (op : WindowOp F) : Prop :=
  ∀ contentId, op.recorded = some contentId → w.Reported contentId (w.call op).1 (w.call op).2

theorem WindowEstimator.Sound.call {w : WindowEstimator} (sound : w.Sound) (op : WindowOp F) :
    (w.call op).2.Sound ∧ w.Reports op := by
  cases op with
  | record contentId tokenCount =>
      obtain ⟨kept, reported⟩ := recordWithScores_spec sound.toCounted contentId tokenCount
        (none : Option (Rows String F))
      exact ⟨kept, fun _ same => by cases same; exact reported⟩
  | recordWithScores contentId tokenCount scores =>
      obtain ⟨kept, reported⟩ := recordWithScores_spec sound.toCounted contentId tokenCount scores
      exact ⟨kept, fun _ same => by cases same; exact reported⟩
  | recordPriorConsumption tokenCount =>
      obtain ⟨kept, reported⟩ := recordWithScores_spec sound.toCounted priorConsumptionContentId
        tokenCount (none : Option (Rows String F))
      exact ⟨kept, fun _ same => by cases same; exact reported⟩
  | touch contentId => exact ⟨touch_sound sound contentId, nofun⟩
  | forceEvict contentId => exact ⟨forceEvict_sound sound contentId, nofun⟩

/-- **The window.**  For every capacity, policy and sequence of calls with any ids, token
counts and scores, the representation invariant holds in every state reached, and every
record call reports what it evicted. -/
theorem window_invariant (capacity : Nat) (policy : DropPolicy) (ops : List (WindowOp F)) :
    Throughout WindowEstimator.step WindowEstimator.Sound (.new capacity policy) ops ∧
      EachStep WindowEstimator.step WindowEstimator.Reports (.new capacity policy) ops := by
  have start := WindowEstimator.sound_new capacity policy
  constructor
  · refine throughout_of_keeps (fun w op t sound taken => ?_) ops start
    cases taken
    exact (sound.call op).1
  · refine eachStep_of_invariant WindowEstimator.Sound (fun w sound op _ => (sound.call op).2)
      (fun w sound op _ t taken => ?_) start
    cases taken
    exact (sound.call op).1

end Runs

end Ministr
