/-
# Theory.FirstCut — a text cut at the first occurrence of a mark

Searching a text for a mark and slicing it there is one operation: the text before the first
occurrence and the text behind it (`cutFirst_eq_some`).  No cut means no occurrence at all
(`cutFirst_eq_none`).  For a mark of one character the first occurrence is the one with no such
character before it.
-/
import Mathlib.Data.List.Infix
import Mathlib.Tactic.Common

namespace Ministr.Theory

set_option autoImplicit false

section Cut

variable {α : Type} [DecidableEq α] {mark text front back : List α}

/-- What stands before the first `mark`, and what stands behind it. -/
def cutFirst (mark : List α) : List α → Option (List α × List α)
  | [] => if mark = [] then some ([], []) else none
  | a :: text =>
      if mark <+: a :: text then some ([], (a :: text).drop mark.length)
      else (cutFirst mark text).map fun cut => (a :: cut.1, cut.2)

theorem cutFirst_eq_some :
    cutFirst mark text = some (front, back) ↔
      text = front ++ (mark ++ back) ∧ ∀ k < front.length, ¬ mark <+: text.drop k := by
  induction text generalizing front with
  | nil =>
      rw [cutFirst]
      split
      · rename_i empty
        constructor
        · intro same
          obtain ⟨rfl, rfl⟩ := Prod.mk.inj (Option.some.inj same)
          exact ⟨by simp [empty], fun k lt => absurd lt (Nat.not_lt_zero k)⟩
        · rintro ⟨whole, -⟩
          obtain ⟨rfl, none⟩ := List.append_eq_nil_iff.mp whole.symm
          rw [(List.append_eq_nil_iff.mp none).2]
      · rename_i held
        constructor
        · simp
        · rintro ⟨whole, -⟩
          exact absurd (List.append_eq_nil_iff.mp (List.append_eq_nil_iff.mp whole.symm).2).1 held
  | cons a text ih =>
      rw [cutFirst]
      split
      · rename_i here
        obtain ⟨rest, whole⟩ := here
        constructor
        · intro same
          obtain ⟨rfl, rfl⟩ := Prod.mk.inj (Option.some.inj same)
          rw [← whole, List.drop_left]
          exact ⟨rfl, fun k lt => absurd lt (Nat.not_lt_zero k)⟩
        · rintro ⟨split, first⟩
          cases front with
          | nil => rw [split, List.nil_append, List.drop_left]
          | cons b front => exact absurd ⟨rest, whole⟩ (first 0 (Nat.succ_pos _))
      · rename_i other
        rw [Option.map_eq_some_iff]
        constructor
        · rintro ⟨⟨front', back'⟩, found, same⟩
          obtain ⟨rfl, rfl⟩ := Prod.mk.inj same
          obtain ⟨whole, first⟩ := ih.mp found
          refine ⟨congrArg (a :: ·) whole, fun k lt => ?_⟩
          cases k with
          | zero => exact other
          | succ k => exact first k (Nat.lt_of_succ_lt_succ lt)
        · rintro ⟨whole, first⟩
          cases front with
          | nil => exact absurd ⟨back, whole.symm⟩ other
          | cons b front =>
              obtain ⟨rfl, behind⟩ := List.cons.inj whole
              exact ⟨(front, back),
                ih.mpr ⟨behind, fun k lt => first (k + 1) (Nat.succ_lt_succ lt)⟩, rfl⟩

theorem cutFirst_eq_none : cutFirst mark text = none ↔ ¬ mark <:+: text := by
  induction text with
  | nil =>
      rw [cutFirst]
      split <;> simp_all
  | cons a text ih =>
      rw [cutFirst]
      split
      · rename_i here
        simp [here.isInfix]
      · rename_i other
        rw [Option.map_eq_none_iff, ih, List.infix_cons_iff, not_or]
        simp [other]

theorem exists_cutFirst (occurs : mark <:+: text) :
    ∃ front back, cutFirst mark text = some (front, back) := by
  cases found : cutFirst mark text with
  | none => exact absurd occurs (cutFirst_eq_none.mp found)
  | some cut => exact ⟨cut.1, cut.2, rfl⟩

variable {a b : α}

theorem cutFirst_append_of_free (free : a ∉ front) (text : List α) :
    cutFirst (a :: mark) (front ++ text) =
      (cutFirst (a :: mark) text).map fun cut => (front ++ cut.1, cut.2) := by
  induction front with
  | nil => simp
  | cons b front ih =>
      rw [List.mem_cons, not_or] at free
      have other : ¬ a :: mark <+: b :: (front ++ text) := fun start =>
        free.1 (List.cons_prefix_cons.mp start).1
      rw [List.cons_append, cutFirst, if_neg other, ih free.2, Option.map_map]
      rfl

/-- A mark that does not hold a separator stands in front of it or behind it. -/
theorem cutFirst_append_cons (held : mark ≠ []) (apart : a ∉ mark) (front back : List α) :
    cutFirst mark (front ++ a :: back) =
      match cutFirst mark front with
      | some cut => some (cut.1, cut.2 ++ a :: back)
      | none => (cutFirst mark back).map fun cut => (front ++ a :: cut.1, cut.2) := by
  induction front with
  | nil =>
      have other : ¬ mark <+: a :: back := by
        rintro ⟨rest, whole⟩
        cases mark with
        | nil => exact held rfl
        | cons b mark => exact apart ((List.cons.inj whole).1 ▸ List.mem_cons_self)
      have nothing : cutFirst mark [] = none := if_neg held
      rw [List.nil_append, nothing, cutFirst, if_neg other]
      rfl
  | cons b front ih =>
      rw [List.cons_append, cutFirst, cutFirst]
      by_cases here : mark <+: b :: front
      · have longer : mark <+: b :: (front ++ a :: back) := here.trans (List.prefix_append _ _)
        rw [if_pos longer, if_pos here, ← List.cons_append, List.drop_append_of_le_length here.length_le]
      · have shorter : ¬ mark <+: b :: (front ++ a :: back) := by
          intro start
          rcases List.prefix_or_prefix_of_prefix start (List.prefix_append (b :: front) (a :: back)) with
            inside | ⟨rest, rfl⟩
          · exact here inside
          · rw [← List.cons_append, List.prefix_append_right_inj] at start
            cases rest with
            | nil => exact here (List.append_nil _ ▸ List.prefix_rfl)
            | cons c rest =>
                obtain ⟨rfl, -⟩ := List.cons_prefix_cons.mp start
                exact apart (List.mem_append_right _ List.mem_cons_self)
        rw [if_neg shorter, if_neg here, ih]
        cases cutFirst mark front with
        | some cut => rfl
        | none =>
            rw [Option.map_map]
            rfl

theorem cutFirst_single :
    cutFirst [a] text = some (front, back) ↔ text = front ++ a :: back ∧ a ∉ front := by
  rw [cutFirst_eq_some, List.singleton_append]
  refine and_congr_right fun whole => ?_
  subst whole
  constructor
  · intro first mem
    obtain ⟨before, after, rfl⟩ := List.append_of_mem mem
    refine first before.length (by simp) ?_
    rw [List.append_assoc, List.drop_left, List.cons_append]
    exact ⟨_, rfl⟩
  · rintro free k lt ⟨rest, here⟩
    rw [List.drop_append_of_le_length (Nat.le_of_lt lt), List.drop_eq_getElem_cons lt] at here
    obtain ⟨rfl, -⟩ := List.cons.inj here
    exact free (List.getElem_mem lt)

theorem cutFirst_single_eq_none : cutFirst [a] text = none ↔ a ∉ text := by
  rw [cutFirst_eq_none, List.singleton_infix_iff]

theorem cutFirst_here (mark back : List α) : cutFirst mark (mark ++ back) = some ([], back) :=
  cutFirst_eq_some.mpr ⟨rfl, nofun⟩

/-- With two different characters, the mark overlaps no other copy of it. -/
theorem cutFirst_pair (apart : a ≠ b) :
    cutFirst [a, b] text = some (front, back) ↔
      text = front ++ a :: b :: back ∧ ¬ [a, b] <:+: front := by
  rw [cutFirst_eq_some]
  refine and_congr_right fun whole => ?_
  subst whole
  constructor
  · rintro first ⟨before, after, rfl⟩
    refine first before.length (by simp) ?_
    rw [List.append_assoc, List.append_assoc, List.drop_left]
    exact ⟨_, rfl⟩
  · rintro free k lt ⟨rest, here⟩
    rw [List.drop_append_of_le_length (Nat.le_of_lt lt)] at here
    have split := List.take_append_drop k front
    cases tail : front.drop k with
    | nil =>
        rw [List.drop_eq_nil_iff] at tail
        omega
    | cons c tail' =>
        rw [tail] at here split
        cases tail' with
        | nil =>
            -- the last character of `front` would be `a`, and the mark's first one `b`
            simp only [List.cons_append, List.nil_append, List.cons.injEq] at here
            exact apart here.2.1.symm
        | cons d tail' =>
            simp only [List.cons_append, List.nil_append, List.cons.injEq] at here
            obtain ⟨rfl, rfl, -⟩ := here
            exact free ⟨front.take k, tail', by rw [List.append_assoc]; exact split⟩

end Cut

end Ministr.Theory
