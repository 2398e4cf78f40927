/-
# Theory.TopK — the first `k` of a ranking

Two facts about answers that are cut to `k` entries.  `take_filterMap_take`: a
ranking read through a partial map can be cut before it is read, provided the
cut leaves room for every entry the map drops.  `eq_of_pairwise_of_mem_iff`: a
ranking under a strict order is determined by its entries, so that any
sorted list of the right entries is the ranking.
-/
import Mathlib.Data.List.Perm.Basic
import Mathlib.Data.List.Pairwise
import Mathlib.Tactic.Common

namespace Ministr.Theory

set_option autoImplicit false

universe u v

/-- Over-fetching by the number of dropped entries is enough. -/
theorem take_filterMap_take {α : Type u} {β : Type v} (f : α → Option β) (l : List α) (k d : Nat)
    (few : (l.filter fun a => (f a).isNone).length ≤ d) :
    ((l.take (k + d)).filterMap f).take k = (l.filterMap f).take k := by
  induction l generalizing k d with
  | nil => simp
  | cons a l ih =>
      cases read : f a with
      | none =>
          rw [List.filter_cons_of_pos (by simp [read]), List.length_cons] at few
          obtain ⟨d, rfl⟩ : ∃ d', d = d' + 1 := ⟨d - 1, by omega⟩
          rw [← Nat.add_assoc, List.take_succ_cons, List.filterMap_cons_none read,
            List.filterMap_cons_none read]
          exact ih k d (by omega)
      | some b =>
          rw [List.filter_cons_of_neg (by simp [read])] at few
          cases k with
          | zero => simp
          | succ k =>
              rw [Nat.add_right_comm, List.take_succ_cons, List.filterMap_cons_some read,
                List.filterMap_cons_some read, List.take_succ_cons, List.take_succ_cons, ih k d few]

/-- Where every entry can be read, reading them one by one drops none. -/
theorem mapM_eq_filterMap {α : Type u} {β : Type u} (f : α → Option β) (l : List α)
    (total : ∀ a ∈ l, (f a).isSome) : l.mapM f = some (l.filterMap f) := by
  induction l with
  | nil => rfl
  | cons a l ih =>
      obtain ⟨b, read⟩ := Option.isSome_iff_exists.mp (total a List.mem_cons_self)
      rw [List.mapM_cons, read, ih fun a' mem => total a' (List.mem_cons_of_mem a mem),
        List.filterMap_cons_some read]
      rfl

section Ranking

variable {α : Type u} {before : α → α → Prop}

theorem nodup_of_pairwise (irrefl : ∀ a, ¬ before a a) {l : List α} (sorted : l.Pairwise before) :
    l.Nodup := by
  refine sorted.imp ?_
  rintro a b less rfl
  exact irrefl a less

/-- Two rankings of the same entries under a strict order are the same list. -/
theorem eq_of_pairwise_of_mem_iff (irrefl : ∀ a, ¬ before a a)
    (asymm : ∀ a b, before a b → ¬ before b a) {l l' : List α} (sorted : l.Pairwise before)
    (sorted' : l'.Pairwise before) (same : ∀ a, a ∈ l ↔ a ∈ l') : l = l' := by
  have perm : l.Perm l' := (List.perm_ext_iff_of_nodup (nodup_of_pairwise irrefl sorted)
    (nodup_of_pairwise irrefl sorted')).mpr same
  exact List.Perm.eq_of_pairwise (fun a b _ _ ab ba => absurd ba (asymm a b ab)) sorted sorted' perm

end Ranking

end Ministr.Theory
