/-
# Theory.Grouping — joining a list with itself through a table of groups

A hash join puts every element into the group of its key, on the left or on the right, and
then pairs the two sides of each group.  The table is read in any order.  `join_perm` says
that this yields every pair of the nested loop exactly once, and `mergeSort_join_iff` when
sorting the pairs undoes the order the table was read in.
-/
import Ministr.Theory.Rows
import Ministr.Theory.StableSort
import Mathlib.Data.List.ProdSigma
import Mathlib.Data.List.Perm.Basic

namespace Ministr.Theory

set_option autoImplicit false

universe u v

section Grouping

variable {α : Type u} {κ : Type v} [DecidableEq κ] (key : α → κ) (left : α → Bool)

/-- One more element: it goes to its side of the group of its key. -/
def addToGroup (table : Rows κ (List α × List α)) (a : α) : Rows κ (List α × List α) :=
  let sides := (table.lookup (key a)).getD ([], [])
  table.insert (key a) (if left a then (sides.1 ++ [a], sides.2) else (sides.1, sides.2 ++ [a]))

/-- The table of groups. -/
def groupTable (as : List α) : Rows κ (List α × List α) := as.foldl (addToGroup key left) ∅

/-- The group of one key. -/
def groupOf (as : List α) (k : κ) : List α × List α :=
  (as.filter fun a => decide (key a = k) && left a, as.filter fun a => decide (key a = k) && !left a)

variable {key left}

theorem groupOf_concat (as : List α) (a : α) (k : κ) :
    groupOf key left (as ++ [a]) k =
      if key a = k then
        if left a then ((groupOf key left as k).1 ++ [a], (groupOf key left as k).2)
        else ((groupOf key left as k).1, (groupOf key left as k).2 ++ [a])
      else groupOf key left as k := by
  by_cases here : key a = k <;> cases side : left a <;>
    simp [groupOf, List.filter_append, here, side]

theorem lookup_groupTable (as : List α) (k : κ) :
    (groupTable key left as).lookup k =
      if ∃ a ∈ as, key a = k then some (groupOf key left as k) else none := by
  induction as using List.reverseRecOn generalizing k with
  | nil => simp [groupTable]
  | append_singleton as a ih =>
      have read : ((groupTable key left as).lookup (key a)).getD ([], []) =
          groupOf key left as (key a) := by
        rw [ih]
        split
        · rfl
        · rename_i absent
          have absentKey : ∀ b ∈ as, ¬ key b = key a := fun b mem same => absent ⟨b, mem, same⟩
          have left_nil : (as.filter fun b => decide (key b = key a) && left b) = [] :=
            List.filter_eq_nil_iff.mpr fun b mem => by simp [absentKey b mem]
          have right_nil : (as.filter fun b => decide (key b = key a) && !left b) = [] :=
            List.filter_eq_nil_iff.mpr fun b mem => by simp [absentKey b mem]
          simp [groupOf, left_nil, right_nil]
      rw [groupTable, List.foldl_concat]
      change (addToGroup key left (groupTable key left as) a).lookup k = _
      rw [addToGroup, Rows.lookup_insert_if, groupOf_concat]
      by_cases here : key a = k
      · subst here
        have listed : ∃ b ∈ as ++ [a], key b = key a := ⟨a, by simp, rfl⟩
        simp only [if_true, if_pos listed, read]
      · rw [if_neg (Ne.symm here), if_neg here, ih]
        simp [here]

/-- Splitting a list by a function and putting the parts together again. -/
theorem flatMap_filter_perm {γ : Type u} {f : γ → κ} {keys : List κ} (distinct : keys.Nodup)
    {l : List γ} (covers : ∀ c ∈ l, f c ∈ keys) :
    (keys.flatMap fun k => l.filter fun c => decide (f c = k)).Perm l := by
  induction keys generalizing l with
  | nil =>
      cases l with
      | nil => exact .refl _
      | cons c l => cases covers c List.mem_cons_self
  | cons k keys ih =>
      obtain ⟨fresh, distinct⟩ := List.nodup_cons.mp distinct
      have later : (keys.flatMap fun k' => l.filter fun c => decide (f c = k')) =
          keys.flatMap fun k' => (l.filter fun c => !decide (f c = k)).filter fun c => decide (f c = k') := by
        refine List.flatMap_congr fun k' mem => ?_
        rw [List.filter_filter]
        refine List.filter_congr fun c _ => ?_
        by_cases same : f c = k'
        · have other : f c ≠ k := fun eq => fresh (eq ▸ same ▸ mem)
          simp [same, same ▸ other]
        · simp [same]
      rw [List.flatMap_cons, later]
      refine ((ih distinct fun c mem => ?_).append_left _).trans (List.filter_append_perm _ l)
      have listed := List.mem_filter.mp mem
      exact (List.mem_cons.mp (covers c listed.1)).resolve_left (by simpa using listed.2)

theorem product_filter {β : Type u} (as : List α) (bs : List β) (p : α → Bool) (q : β → Bool) :
    as.filter p ×ˢ bs.filter q = (as ×ˢ bs).filter fun x => p x.1 && q x.2 := by
  induction as with
  | nil => rfl
  | cons a as ih =>
      rw [List.product_cons, List.filter_append, ← ih, List.filter_map]
      cases here : p a with
      | false =>
          rw [List.filter_cons_of_neg (by simp [here])]
          simp [Function.comp_def, here]
      | true =>
          rw [List.filter_cons_of_pos here, List.product_cons]
          simp [Function.comp_def, here]

/-- The pairs of one group. -/
def joinOf (group : Sigma fun _ : κ => List α × List α) : List (α × α) := group.2.1 ×ˢ group.2.2

/-- **The groups, read in any order, yield every pair of a left and a right element of one
key exactly once.** -/
theorem join_perm (as : List α) {order : List (Sigma fun _ : κ => List α × List α)}
    (perm : order.Perm (groupTable key left as).entries) :
    (order.flatMap joinOf).Perm ((as ×ˢ as).filter fun p =>
      left p.1 && !left p.2 && decide (key p.1 = key p.2)) := by
  refine (perm.flatMap_right joinOf).trans ?_
  have blocks : (groupTable key left as).entries.flatMap joinOf =
      (groupTable key left as).keys.flatMap fun k =>
        ((as ×ˢ as).filter fun p => left p.1 && !left p.2 && decide (key p.1 = key p.2)).filter
          fun p => decide (key p.1 = k) := by
    rw [AList.keys, List.keys, List.flatMap_map]
    refine List.flatMap_congr fun group mem => ?_
    have found := (Rows.mem_entries_iff _ group.1 group.2).mp mem
    rw [lookup_groupTable] at found
    split at found
    · rw [joinOf, ← Option.some.inj found, groupOf, product_filter, List.filter_filter]
      refine List.filter_congr fun p _ => ?_
      by_cases here : key p.1 = group.1
      · rw [here]
        simp only [eq_comm, decide_true, Bool.true_and, Bool.and_assoc, Bool.and_comm]
      · simp [here]
    · cases found
  rw [blocks]
  refine flatMap_filter_perm (groupTable key left as).keys_nodup fun p mem => ?_
  have there := (List.mem_product.mp (List.mem_filter.mp mem).1).1
  refine AList.mem_keys.mp ((Rows.mem_iff_lookup _ _).mpr ?_)
  rw [lookup_groupTable, if_pos ⟨p.1, there, rfl⟩]
  exact ⟨_, rfl⟩

theorem mem_entries_groupTable (as : List α) (k : κ) (group : List α × List α) :
    ⟨k, group⟩ ∈ (groupTable key left as).entries ↔
      (∃ a ∈ as, key a = k) ∧ group = groupOf key left as k := by
  rw [Rows.mem_entries_iff, lookup_groupTable]
  split
  · rename_i listed
    rw [Option.some.injEq, eq_comm]
    exact ⟨fun eq => ⟨listed, eq⟩, fun eq => eq.2⟩
  · rename_i absent
    exact iff_of_false (by simp) fun held => absent held.1

theorem mem_joinOf_groupOf (as : List α) (k : κ) (p : α × α) :
    p ∈ joinOf ⟨k, groupOf key left as k⟩ ↔
      p ∈ as ×ˢ as ∧ left p.1 = true ∧ left p.2 = false ∧ key p.1 = k ∧ key p.2 = k := by
  rw [joinOf, groupOf, product_filter, List.mem_filter]
  simp only [Bool.and_eq_true, decide_eq_true_eq, Bool.not_eq_true']
  tauto

/-- **Sorting what the groups yield gives one list for every order of the groups exactly
when no two pairs of different keys are tied.**  `nameOf` recovers the key of a pair from
what is made of it. -/
theorem mergeSort_join_iff {β : Type u} {le : β → β → Bool}
    (transitive : ∀ a b c, le a b → le b c → le a c) (linear : ∀ a b, le a b || le b a)
    (f : α × α → β) (keep : α × α → Bool) (nameOf : β → κ) (named : ∀ p, nameOf (f p) = key p.1)
    (as : List α) (front back : List β) :
    (∀ order : List (Sigma fun _ : κ => List α × List α),
      order.Perm (groupTable key left as).entries →
      (front ++ order.flatMap (fun g => ((joinOf g).filter keep).map f) ++ back).mergeSort le =
        (front ++ (groupTable key left as).entries.flatMap
          (fun g => ((joinOf g).filter keep).map f) ++ back).mergeSort le) ↔
      ∀ p ∈ as ×ˢ as, ∀ q ∈ as ×ˢ as,
        left p.1 = true ∧ left p.2 = false ∧ key p.1 = key p.2 ∧ keep p = true →
        left q.1 = true ∧ left q.2 = false ∧ key q.1 = key q.2 ∧ keep q = true →
        tied le (f p) (f q) = true → key p.1 = key q.1 := by
  rw [mergeSort_blocks_iff transitive linear
    (fun b => ⟨nameOf b, groupOf key left as (nameOf b)⟩) ?_
    (List.Nodup.of_map Sigma.fst (groupTable key left as).nodupKeys) front back]
  · constructor
    · intro apart p memP q memQ okP okQ tie
      by_contra other
      have listed : ∀ r ∈ as ×ˢ as, left r.1 = true ∧ left r.2 = false ∧ key r.1 = key r.2 ∧
          keep r = true → (⟨key r.1, groupOf key left as (key r.1)⟩ : Sigma fun _ : κ => _) ∈
            (groupTable key left as).entries ∧
          f r ∈ ((joinOf ⟨key r.1, groupOf key left as (key r.1)⟩).filter keep).map f := by
        intro r mem ok
        refine ⟨(mem_entries_groupTable as _ _).mpr
          ⟨⟨r.1, (List.mem_product.mp mem).1, rfl⟩, rfl⟩, ?_⟩
        refine List.mem_map_of_mem (List.mem_filter.mpr ⟨?_, ok.2.2.2⟩)
        exact (mem_joinOf_groupOf as _ r).mpr ⟨mem, ok.1, ok.2.1, rfl, ok.2.2.1.symm⟩
      have clash := apart _ (listed p memP okP).1 _ (listed q memQ okQ).1
        (fun same => other (congrArg Sigma.fst same)) _ (listed p memP okP).2 _
        (listed q memQ okQ).2
      rw [tie] at clash
      cases clash
    · intro same g mem g' mem' other b inside b' inside'
      obtain ⟨k, group⟩ := g
      obtain ⟨k', group'⟩ := g'
      obtain ⟨-, rfl⟩ := (mem_entries_groupTable as _ _).mp mem
      obtain ⟨-, rfl⟩ := (mem_entries_groupTable as _ _).mp mem'
      obtain ⟨p, inP, rfl⟩ := List.mem_map.mp inside
      obtain ⟨q, inQ, rfl⟩ := List.mem_map.mp inside'
      obtain ⟨joinedP, keepP⟩ := List.mem_filter.mp inP
      obtain ⟨joinedQ, keepQ⟩ := List.mem_filter.mp inQ
      obtain ⟨memP, leftP, rightP, keyP, keyP'⟩ := (mem_joinOf_groupOf as _ p).mp joinedP
      obtain ⟨memQ, leftQ, rightQ, keyQ, keyQ'⟩ := (mem_joinOf_groupOf as _ q).mp joinedQ
      by_contra tie
      rw [Bool.not_eq_false] at tie
      have keys := same p memP q memQ ⟨leftP, rightP, keyP.trans keyP'.symm, keepP⟩
        ⟨leftQ, rightQ, keyQ.trans keyQ'.symm, keepQ⟩ tie
      rw [keyP, keyQ] at keys
      exact other (by rw [keys])
  · intro g mem b inside
    obtain ⟨k, group⟩ := g
    obtain ⟨-, rfl⟩ := (mem_entries_groupTable as _ _).mp mem
    obtain ⟨p, inP, rfl⟩ := List.mem_map.mp inside
    obtain ⟨-, -, -, keyP, -⟩ := (mem_joinOf_groupOf as _ p).mp (List.mem_filter.mp inP).1
    rw [named, keyP]

end Grouping

end Ministr.Theory
