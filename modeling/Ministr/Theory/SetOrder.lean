/-
# Theory.SetOrder — the orders in which a set can be read

A hash set, and a query without `ORDER BY`, list their elements once each and in no order that a
program may count on.  A program that reads them takes a `SetOrder` and must be right for each.
-/
import Mathlib.Data.Finset.Card
import Mathlib.Data.Finset.Dedup
import Mathlib.Order.Defs.LinearOrder
import Mathlib.Tactic.Common

namespace Ministr.Theory

set_option autoImplicit false

universe u v

variable {α : Type u}

/-- An order in which the sets over a type are read. -/
structure SetOrder (α : Type u) where
  read : Finset α → List α
  listed : ∀ s, (read s : Multiset α) = s.val

namespace SetOrder

variable (order : SetOrder α) {s : Finset α} {a : α}

@[simp] theorem mem_read : a ∈ order.read s ↔ a ∈ s := by
  rw [← Multiset.mem_coe, order.listed, Finset.mem_val]

theorem nodup_read (s : Finset α) : (order.read s).Nodup := by
  rw [← Multiset.coe_nodup, order.listed]
  exact s.nodup

/-- Some order. -/
noncomputable def arbitrary : SetOrder α where
  read s := s.toList
  listed s := s.coe_toList

end SetOrder

/-- Sorting by a key. -/
theorem pairwise_mergeSort_key {κ : Type v} [LinearOrder κ] (key : α → κ) (as : List α) :
    (as.mergeSort fun a b => key a ≤ key b).Pairwise fun a b => key a ≤ key b := by
  have sorted := @List.pairwise_mergeSort _ (fun a b => decide (key a ≤ key b))
    (fun a b c first second => by
      rw [decide_eq_true_eq] at first second ⊢
      exact first.trans second)
    (fun a b => by
      rw [Bool.or_eq_true, decide_eq_true_eq, decide_eq_true_eq]
      exact le_total (key a) (key b)) as
  exact sorted.imp fun le => of_decide_eq_true le

end Ministr.Theory
