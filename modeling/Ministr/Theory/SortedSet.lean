/-
# Theory.SortedSet — a set as a list

A list that is sorted and then cleared of repetitions says which entries it has and nothing more:
two lists with the same entries give the same one (`sortedSet_eq_iff`).
-/
import Mathlib.Data.List.Sort

namespace Ministr.Theory

set_option autoImplicit false

universe u

variable {α : Type u}

/-- A test that orders all values. -/
structure Orders (le : α → α → Bool) : Prop where
  trans : ∀ a b c, le a b = true → le b c = true → le a c = true
  total : ∀ a b, (le a b || le b a) = true
  antisymm : ∀ a b, le a b = true → le b a = true → a = b

variable [BEq α]

def sortedSet (le : α → α → Bool) (as : List α) : List α := (as.mergeSort le).eraseReps

/-! ## Repetitions -/

theorem eraseRepsBy_loop (a : α) (as acc : List α) :
    List.eraseRepsBy.loop (· == ·) a as acc = acc.reverse ++ (a :: as).eraseReps := by
  have clear : ∀ (a : α) (as acc : List α), List.eraseRepsBy.loop (· == ·) a as acc =
      acc.reverse ++ List.eraseRepsBy.loop (· == ·) a as [] := by
    intro a as
    induction as generalizing a with
    | nil => simp [List.eraseRepsBy.loop]
    | cons b as ih =>
        intro acc
        rw [List.eraseRepsBy.loop, List.eraseRepsBy.loop]
        split
        · exact ih a acc
        · rw [ih b (a :: acc), ih b [a], List.reverse_cons, List.append_assoc, List.reverse_singleton]
  exact clear a as acc

variable [LawfulBEq α]

theorem eraseReps_cons_self (a : α) (as : List α) : (a :: a :: as).eraseReps = (a :: as).eraseReps := by
  show List.eraseRepsBy.loop (· == ·) a (a :: as) [] = List.eraseRepsBy.loop (· == ·) a as []
  rw [List.eraseRepsBy.loop, beq_self_eq_true]

theorem eraseReps_cons_of_ne {a b : α} (other : a ≠ b) (as : List α) :
    (a :: b :: as).eraseReps = a :: (b :: as).eraseReps := by
  show List.eraseRepsBy.loop (· == ·) a (b :: as) [] = _
  rw [List.eraseRepsBy.loop, beq_eq_false_iff_ne.mpr other]
  exact eraseRepsBy_loop b as [a]

theorem mem_eraseReps {a : α} {as : List α} : a ∈ as.eraseReps ↔ a ∈ as := by
  induction as with
  | nil => rfl
  | cons b as ih =>
      cases as with
      | nil => rfl
      | cons c as =>
          by_cases same : b = c
          · rw [same, eraseReps_cons_self, ih]
            simp
          · rw [eraseReps_cons_of_ne same, List.mem_cons, ih]
            exact List.mem_cons.symm

/-! ## Sets -/

section Order

variable {le : α → α → Bool}

theorem pairwise_eraseReps (orders : Orders le) {as : List α} (sorted : as.Pairwise fun a b => le a b = true) :
    as.eraseReps.Pairwise fun a b => le a b = true ∧ a ≠ b := by
  induction as with
  | nil => exact List.Pairwise.nil
  | cons a as ih =>
      obtain ⟨first, rest⟩ := List.pairwise_cons.mp sorted
      cases as with
      | nil => exact List.pairwise_singleton _ a
      | cons b as =>
          by_cases same : a = b
          · rw [same, eraseReps_cons_self]
            exact ih rest
          · rw [eraseReps_cons_of_ne same]
            refine List.pairwise_cons.mpr ⟨fun c mem => ?_, ih rest⟩
            have inside := mem_eraseReps.mp mem
            refine ⟨first c inside, ?_⟩
            rintro rfl
            -- `a` would come back behind `b`, and `b` lies between
            rcases List.mem_cons.mp inside with here | later
            · exact same here
            · exact same (orders.antisymm a b (first b List.mem_cons_self)
                ((List.pairwise_cons.mp rest).1 a later))

theorem mem_sortedSet {a : α} {as : List α} : a ∈ sortedSet le as ↔ a ∈ as := by
  rw [sortedSet, mem_eraseReps, List.mem_mergeSort]

/-- **Two lists have the same entries exactly when their sets are the same.** -/
theorem sortedSet_eq_iff (orders : Orders le) {as bs : List α} :
    sortedSet le as = sortedSet le bs ↔ ∀ a, a ∈ as ↔ a ∈ bs := by
  constructor
  · intro same a
    rw [← mem_sortedSet, same, mem_sortedSet]
  · intro same
    have sorted : ∀ as : List α, (sortedSet le as).Pairwise fun a b => le a b = true ∧ a ≠ b :=
      fun as => pairwise_eraseReps orders (List.pairwise_mergeSort orders.trans orders.total as)
    have : Std.Antisymm fun a b => le a b = true ∧ a ≠ b :=
      ⟨fun a b ab ba => orders.antisymm a b ab.1 ba.1⟩
    have : Std.Irrefl fun a b => le a b = true ∧ a ≠ b := ⟨fun a less => less.2 rfl⟩
    exact (sorted as).eq_of_mem_iff (sorted bs) fun a => by
      rw [mem_sortedSet, mem_sortedSet, same]

end Order

end Ministr.Theory
