/-
# Theory.ByteOffsets — how many bytes a text takes

Offsets into a text count the bytes of its UTF-8 encoding.  An offset is a place to cut the text
at exactly where it is the length of one of its prefixes.
-/
import Mathlib.Algebra.GroupWithZero.Nat
import Mathlib.Data.List.Infix
import Mathlib.Tactic.Common

namespace Ministr.Theory

set_option autoImplicit false

/-- The length of a text in bytes. -/
def byteLength (text : List Char) : Nat := (text.map Char.utf8Size).sum

@[simp] theorem byteLength_nil : byteLength [] = 0 := rfl

@[simp] theorem byteLength_cons (c : Char) (text : List Char) :
    byteLength (c :: text) = c.utf8Size + byteLength text := by
  simp [byteLength]

@[simp] theorem byteLength_append (front back : List Char) :
    byteLength (front ++ back) = byteLength front + byteLength back := by
  simp [byteLength]

theorem byteLength_pos {text : List Char} (nonempty : text ≠ []) : 0 < byteLength text := by
  cases text with
  | nil => exact absurd rfl nonempty
  | cons c text =>
      have one := Char.utf8Size_pos c
      rw [byteLength_cons]
      omega

theorem byteLength_ascii {text : List Char} (ascii : ∀ c ∈ text, c.toNat < 128) :
    byteLength text = text.length := by
  induction text with
  | nil => rfl
  | cons c text ih =>
      have one : c.utf8Size = 1 := by
        have small := ascii c List.mem_cons_self
        rw [Char.utf8Size_eq_one_iff, UInt32.le_iff_toNat_le]
        exact Nat.le_of_lt_succ small
      rw [byteLength_cons, one, ih fun c mem => ascii c (List.mem_cons_of_mem _ mem),
        List.length_cons]
      omega

/-! ## Slices -/

/-- `&text[offset..]`, or nothing where that is past the end or inside a character. -/
def sliceFrom : List Char → Nat → Option (List Char)
  | text, 0 => some text
  | [], _ + 1 => none
  | c :: text, offset + 1 =>
      if c.utf8Size ≤ offset + 1 then sliceFrom text (offset + 1 - c.utf8Size) else none

/-- The offset is the length of a start of the text. -/
def IsBoundary (text : List Char) (offset : Nat) : Prop :=
  ∃ front, front <+: text ∧ byteLength front = offset

theorem sliceFrom_eq_some {text back : List Char} {offset : Nat} :
    sliceFrom text offset = some back ↔
      ∃ front, text = front ++ back ∧ byteLength front = offset := by
  induction text generalizing offset with
  | nil =>
      cases offset with
      | zero =>
          rw [sliceFrom, Option.some.injEq]
          constructor
          · rintro rfl
            exact ⟨[], rfl, rfl⟩
          · rintro ⟨front, whole, -⟩
            exact (List.append_eq_nil_iff.mp whole.symm).2.symm
      | succ offset =>
          constructor
          · simp [sliceFrom]
          · rintro ⟨front, whole, length⟩
            rw [(List.append_eq_nil_iff.mp whole.symm).1] at length
            cases length
  | cons c text ih =>
      cases offset with
      | zero =>
          rw [sliceFrom, Option.some.injEq]
          constructor
          · rintro rfl
            exact ⟨[], rfl, rfl⟩
          · rintro ⟨front, whole, length⟩
            by_cases empty : front = []
            · rw [whole, empty, List.nil_append]
            · exact absurd length (Nat.ne_of_gt (byteLength_pos empty))
      | succ offset =>
          rw [sliceFrom]
          constructor
          · intro found
            split at found
            · rename_i fits
              obtain ⟨front, whole, length⟩ := ih.mp found
              refine ⟨c :: front, by rw [whole, List.cons_append], ?_⟩
              rw [byteLength_cons, length]
              omega
            · cases found
          · rintro ⟨front, whole, length⟩
            cases front with
            | nil => cases length
            | cons d front =>
                obtain ⟨rfl, behind⟩ := List.cons.inj whole
                rw [byteLength_cons] at length
                rw [if_pos (by omega)]
                exact ih.mpr ⟨front, behind, by omega⟩

theorem sliceFrom_isSome_iff {text : List Char} {offset : Nat} :
    (sliceFrom text offset).isSome ↔ IsBoundary text offset := by
  rw [Option.isSome_iff_exists]
  constructor
  · rintro ⟨back, found⟩
    obtain ⟨front, rfl, length⟩ := sliceFrom_eq_some.mp found
    exact ⟨front, List.prefix_append _ _, length⟩
  · rintro ⟨front, ⟨back, whole⟩, length⟩
    exact ⟨back, sliceFrom_eq_some.mpr ⟨front, whole.symm, length⟩⟩

/-- Of two starts of one text, the shorter in bytes starts the other. -/
theorem prefix_of_byteLength_le {front back text : List Char} (first : front <+: text)
    (second : back <+: text) (short : byteLength front ≤ byteLength back) : front <+: back := by
  rcases List.prefix_or_prefix_of_prefix first second with done | ⟨rest, rfl⟩
  · exact done
  · rcases List.eq_nil_or_concat' rest with rfl | ⟨init, c, rfl⟩
    · rw [List.append_nil]
    · have positive : 0 < byteLength (init ++ [c]) := byteLength_pos (by simp)
      rw [byteLength_append] at short
      omega

/-- Of two ways to cut a text, one cuts the other's front. -/
theorem cut_within {front rest a b : List Char} (whole : a ++ b = front ++ rest)
    (short : byteLength front ≤ byteLength a) : ∃ v, a = front ++ v ∧ rest = v ++ b := by
  obtain ⟨v, rfl⟩ := prefix_of_byteLength_le (List.prefix_append front rest)
    (whole ▸ List.prefix_append a b) short
  rw [List.append_assoc] at whole
  exact ⟨v, rfl, (List.append_cancel_left whole).symm⟩

theorem isBoundary_append {front back : List Char} {offset : Nat} :
    IsBoundary (front ++ back) offset ↔
      (offset < byteLength front ∧ IsBoundary front offset) ∨
        (byteLength front ≤ offset ∧ IsBoundary back (offset - byteLength front)) := by
  constructor
  · rintro ⟨start, isStart, rfl⟩
    rcases Nat.lt_or_ge (byteLength start) (byteLength front) with short | long
    · exact .inl ⟨short, start, prefix_of_byteLength_le isStart (List.prefix_append _ _)
        (Nat.le_of_lt short), rfl⟩
    · obtain ⟨rest, rfl⟩ := prefix_of_byteLength_le (List.prefix_append _ _) isStart long
      rw [List.prefix_append_right_inj] at isStart
      refine .inr ⟨long, rest, isStart, ?_⟩
      rw [byteLength_append]
      omega
  · rintro (⟨-, start, isStart, rfl⟩ | ⟨long, start, isStart, length⟩)
    · exact ⟨start, isStart.trans (List.prefix_append _ _), rfl⟩
    · refine ⟨front ++ start, (List.prefix_append_right_inj front).mpr isStart, ?_⟩
      rw [byteLength_append, length]
      omega

theorem isBoundary_ascii {text : List Char} (ascii : ∀ c ∈ text, c.toNat < 128) {offset : Nat}
    (short : offset ≤ text.length) : IsBoundary text offset := by
  refine ⟨text.take offset, List.take_prefix _ _, ?_⟩
  rw [byteLength_ascii fun c mem => ascii c (List.mem_of_mem_take mem), List.length_take]
  omega

end Ministr.Theory
