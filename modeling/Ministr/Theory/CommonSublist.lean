/-
# Theory.CommonSublist — the longest common sublist, grown at the right end

The textbook table of longest common subsequences is filled by three rules: an
empty list has none, two lists that end alike gain one, and two lists that end
differently do as well as the better of the two that drop one end.  Here the
rules are facts about `LongestCommon`, the length itself and not a function
that computes it, so that any program that follows the rules is optimal.
-/

import Mathlib.Data.List.Basic
import Mathlib.Order.Lattice

namespace Ministr.Theory

set_option autoImplicit false

variable {α : Type*} {xs ys : List α} {a b : α} {n m : Nat}

/-- `n` is the length of a longest common sublist of `xs` and `ys`. -/
structure LongestCommon (xs ys : List α) (n : Nat) : Prop where
  attained : ∃ zs : List α, zs.Sublist xs ∧ zs.Sublist ys ∧ zs.length = n
  bound : ∀ zs : List α, zs.Sublist xs → zs.Sublist ys → zs.length ≤ n

theorem LongestCommon.unique (first : LongestCommon xs ys n) (second : LongestCommon xs ys m) :
    n = m := by
  obtain ⟨zs, inXs, inYs, rfl⟩ := first.attained
  obtain ⟨ws, inXs', inYs', rfl⟩ := second.attained
  have := first.bound ws inXs' inYs'
  have := second.bound zs inXs inYs
  omega

theorem longestCommon_nil_left (ys : List α) : LongestCommon [] ys 0 where
  attained := ⟨[], by simp⟩
  bound := by
    intro zs inXs _
    simp [List.sublist_nil.mp inXs]

theorem longestCommon_nil_right (xs : List α) : LongestCommon xs [] 0 where
  attained := ⟨[], by simp⟩
  bound := by
    intro zs _ inYs
    simp [List.sublist_nil.mp inYs]

theorem longestCommon_self (xs : List α) : LongestCommon xs xs xs.length where
  attained := ⟨xs, by simp⟩
  bound := fun _ inXs _ => inXs.length_le

theorem sublist_snoc {zs : List α} (inside : zs.Sublist (xs ++ [a])) :
    zs.Sublist xs ∨ ∃ ws, zs = ws ++ [a] ∧ ws.Sublist xs := by
  obtain ⟨ws, last, rfl, inXs, inLast⟩ := List.sublist_append_iff.mp inside
  rcases List.sublist_singleton.mp inLast with rfl | rfl
  · exact .inl (by simpa using inXs)
  · exact .inr ⟨ws, rfl, inXs⟩

/-- **Two lists that end alike**: the common end is worth keeping. -/
theorem LongestCommon.snoc_same (shorter : LongestCommon xs ys n) :
    LongestCommon (xs ++ [a]) (ys ++ [a]) (n + 1) := by
  obtain ⟨zs, inXs, inYs, rfl⟩ := shorter.attained
  refine ⟨⟨zs ++ [a], inXs.append_right _, inYs.append_right _, by simp⟩, ?_⟩
  intro ws inLeft inRight
  rcases sublist_snoc inLeft with whole | ⟨us, rfl, inFirst⟩
  · rcases sublist_snoc inRight with whole' | ⟨vs, rfl, inSecond⟩
    · have := shorter.bound ws whole whole'
      omega
    · have := shorter.bound vs ((List.sublist_append_left vs [a]).trans whole) inSecond
      simp
      omega
  · rcases sublist_snoc inRight with whole' | ⟨vs, same, inSecond⟩
    · have := shorter.bound us inFirst ((List.sublist_append_left us [a]).trans whole')
      simp
      omega
    · obtain ⟨rfl, -⟩ := List.append_inj' same rfl
      have := shorter.bound us inFirst inSecond
      simp
      omega

/-- **Two lists that end differently**: one of the ends is dropped. -/
theorem LongestCommon.snoc_other (different : a ≠ b)
    (left : LongestCommon (xs ++ [a]) ys n) (right : LongestCommon xs (ys ++ [b]) m) :
    LongestCommon (xs ++ [a]) (ys ++ [b]) (max n m) := by
  constructor
  · rcases Nat.le_total m n with le | le
    · obtain ⟨zs, inXs, inYs, rfl⟩ := left.attained
      exact ⟨zs, inXs, inYs.trans (List.sublist_append_left ys [b]), by omega⟩
    · obtain ⟨zs, inXs, inYs, rfl⟩ := right.attained
      exact ⟨zs, inXs.trans (List.sublist_append_left xs [a]), inYs, by omega⟩
  · intro zs inLeft inRight
    rcases sublist_snoc inRight with inYs | ⟨ws, rfl, -⟩
    · have := left.bound zs inLeft inYs
      omega
    · rcases sublist_snoc inLeft with inXs | ⟨us, same, -⟩
      · have := right.bound _ inXs inRight
        omega
      · obtain ⟨-, ends⟩ := List.append_inj' same rfl
        exact absurd (List.cons.inj ends).1.symm different

end Ministr.Theory
