/-
# Theory.LeastFirst — taking the least out, again and again

A loop that removes the least element of a list in every round removes them in the order of
one stable sort: the first of the least elements is the head of the sorted list
(`FirstLeast.sortByKey_eq`), and what remains is sorted as the tail.
-/
import Ministr.Theory.StableSort
import Mathlib.Order.Defs.LinearOrder

namespace Ministr.Theory

set_option autoImplicit false

universe u v

variable {α : Type u} {F : Type v} [LinearOrder F]

/-- Sorting by a key, stably. -/
def sortByKey (key : α → F) (as : List α) : List α := as.mergeSort fun a b => key a ≤ key b

/-- `a` is the first of the least elements of `front ++ a :: back`. -/
structure FirstLeast (key : α → F) (front : List α) (a : α) (back : List α) : Prop where
  before : ∀ b ∈ front, key a < key b
  after : ∀ b ∈ back, key a ≤ key b

variable {key : α → F}

theorem FirstLeast.le {front back : List α} {a b : α} (least : FirstLeast key front a back)
    (mem : b ∈ front ++ a :: back) : key a ≤ key b := by
  rcases List.mem_append.mp mem with before | here
  · exact (least.before b before).le
  · rcases List.mem_cons.mp here with rfl | after
    · exact le_rfl
    · exact least.after b after

theorem sortByKey_perm (as : List α) : (sortByKey key as).Perm as := List.mergeSort_perm _ _

theorem sortByKey_congr {key' : α → F} {as : List α} (same : ∀ a ∈ as, key a = key' a) :
    sortByKey key as = sortByKey key' as := by
  have sorted := List.map_mergeSort (r := fun a b => decide (key a ≤ key b))
    (s := fun a b => decide (key' a ≤ key' b)) (f := id) (l := as)
    fun a memA b memB => by rw [id, id, same a memA, same b memB]
  simpa [sortByKey] using sorted

theorem sortByKey_transitive (a b c : α) (ab : decide (key a ≤ key b) = true)
    (bc : decide (key b ≤ key c) = true) : decide (key a ≤ key c) = true := by
  rw [decide_eq_true_eq] at *
  exact le_trans ab bc

theorem sortByKey_linear (a b : α) :
    (decide (key a ≤ key b) || decide (key b ≤ key a)) = true := by
  rw [Bool.or_eq_true, decide_eq_true_eq, decide_eq_true_eq]
  exact le_total _ _

theorem pairwise_sortByKey (as : List α) :
    (sortByKey key as).Pairwise fun a b => key a ≤ key b :=
  (List.pairwise_mergeSort sortByKey_transitive sortByKey_linear as).imp of_decide_eq_true

/-- The first of the least comes first. -/
theorem FirstLeast.sortByKey_eq {front back : List α} {a : α} (least : FirstLeast key front a back) :
    sortByKey key (front ++ a :: back) = a :: sortByKey key (front ++ back) := by
  have moved : sortByKey key (front ++ a :: back) =
      sortByKey key (a :: (front ++ back)) := by
    refine (mergeSort_eq_iff sortByKey_transitive sortByKey_linear).mpr fun b => ?_
    rw [List.filter_append, List.filter_cons, List.filter_cons, List.filter_append]
    split
    · rename_i tie
      -- nothing in front of `a` ties with it
      have none : front.filter (tied (fun a b => decide (key a ≤ key b)) b) = [] := by
        refine List.filter_eq_nil_iff.mpr fun c mem tie' => ?_
        simp only [tied, Bool.and_eq_true, decide_eq_true_eq] at tie tie'
        exact absurd (tie'.2.trans tie.1) (not_le.mpr (least.before c mem))
      rw [none]
      rfl
    · rfl
  rw [moved]
  have transitive : ∀ a b c : α, decide (key a ≤ key b) → decide (key b ≤ key c) →
      decide (key a ≤ key c) := sortByKey_transitive
  obtain ⟨ahead, behind, whole, parts, below⟩ :=
    List.mergeSort_cons transitive sortByKey_linear a (front ++ back)
  have none : ahead = [] := by
    refine List.eq_nil_iff_forall_not_mem.mpr fun b mem => ?_
    have listed : b ∈ front ++ back :=
      List.mem_mergeSort.mp (parts ▸ List.mem_append_left behind mem)
    have low : key a ≤ key b := least.le (by
      rcases List.mem_append.mp listed with mem | mem <;> simp [mem])
    simpa [low] using below b mem
  unfold sortByKey
  rw [whole, parts, none]
  rfl

/-- What is not less than anything before it stays last. -/
theorem sortByKey_concat {as : List α} {a : α} (most : ∀ b ∈ as, key b ≤ key a) :
    sortByKey key (as ++ [a]) = sortByKey key as ++ [a] := by
  refine eq_of_filter_tied sortByKey_linear
    (List.pairwise_mergeSort sortByKey_transitive sortByKey_linear _) ?_ fun b => ?_
  · refine List.pairwise_append.mpr
      ⟨List.pairwise_mergeSort sortByKey_transitive sortByKey_linear _, List.pairwise_singleton _ _,
        fun b mem c last => ?_⟩
    rw [List.mem_singleton.mp last, decide_eq_true_eq]
    exact most b (List.mem_mergeSort.mp mem)
  · unfold sortByKey
    rw [filter_tied_mergeSort sortByKey_transitive sortByKey_linear, List.filter_append,
      List.filter_append, filter_tied_mergeSort sortByKey_transitive sortByKey_linear]

end Ministr.Theory
