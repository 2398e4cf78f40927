/-
# Theory.Words — the words of a text

The words of a text are the maximal runs of its letters between separators.  They do not
depend on how many separators stand between two of them, so cutting a text at separators,
trimming the pieces and joining texts with separators all keep them:

* `words_append_cons` — the words on either side of a separator;
* `words_sublist_between` — the words around a text between separators;
* `words_dropWhile`, `words_rdropWhile` — of a text without the separators at its ends.
-/
import Mathlib.Data.List.DropRight
import Mathlib.Data.List.Infix
import Mathlib.Tactic.Common

namespace Ministr.Theory

set_option autoImplicit false

universe u

section Words

variable {α : Type u} {sep : α → Bool}

/-- The non-empty pieces between separators. -/
def words (sep : α → Bool) (text : List α) : List (List α) :=
  (text.splitOnP sep).filter fun word => !word.isEmpty

@[simp] theorem words_nil : words sep [] = [] := rfl

/-- A text without separators is one word. -/
theorem words_single {word : List α} (solid : ∀ c ∈ word, sep c = false) (held : word ≠ []) :
    words sep word = [word] := by
  rw [words, List.splitOnP_eq_singleton solid]
  simpa using held

/-- The pieces between separators stand in the text. -/
theorem infix_of_mem_splitOnP {text part : List α} (mem : part ∈ text.splitOnP sep) :
    part <:+: text := by
  have ends : ∀ text : List α, ∃ first rest, text.splitOnP sep = first :: rest ∧ first <+: text ∧
      ∀ part ∈ rest, part <:+: text := by
    intro text
    induction text with
    | nil => exact ⟨[], [], rfl, List.prefix_rfl, by simp⟩
    | cons c text ih =>
        obtain ⟨first, rest, whole, start, inner⟩ := ih
        rw [List.splitOnP_cons_eq_if_modifyHead, whole]
        split
        · refine ⟨[], first :: rest, rfl, List.nil_prefix, fun part mem => ?_⟩
          rcases List.mem_cons.mp mem with rfl | later
          · exact List.infix_cons start.isInfix
          · exact List.infix_cons (inner part later)
        · exact ⟨c :: first, rest, rfl, List.cons_prefix_cons.mpr ⟨rfl, start⟩,
            fun part mem => List.infix_cons (inner part mem)⟩
  obtain ⟨first, rest, whole, start, inner⟩ := ends text
  rw [whole] at mem
  rcases List.mem_cons.mp mem with rfl | later
  · exact start.isInfix
  · exact inner part later

/-- A separator ends the word before it. -/
theorem words_append_cons (before after : List α) {a : α} (separates : sep a) :
    words sep (before ++ a :: after) = words sep before ++ words sep after := by
  rw [words, List.splitOnP_append_cons before after separates, List.filter_append]
  rfl

theorem words_cons (after : List α) {a : α} (separates : sep a) :
    words sep (a :: after) = words sep after :=
  words_append_cons [] after separates

theorem words_concat (before : List α) {a : α} (separates : sep a) :
    words sep (before ++ [a]) = words sep before := by
  rw [words_append_cons before [] separates, words_nil, List.append_nil]

/-- Whatever stands between two separators, the words around them stay. -/
theorem words_sublist_between (before between after : List α) {a b : α} (first : sep a)
    (second : sep b) :
    (words sep before ++ words sep after).Sublist
      (words sep (before ++ a :: (between ++ b :: after))) := by
  rw [words_append_cons before _ first, words_append_cons between _ second]
  exact (List.sublist_append_right _ _).append_left _

theorem words_dropWhile (text : List α) : words sep (text.dropWhile sep) = words sep text := by
  induction text with
  | nil => rfl
  | cons a text ih =>
      by_cases separates : sep a
      · rw [List.dropWhile_cons_of_pos separates, ih, words_cons text separates]
      · rw [List.dropWhile_cons_of_neg separates]

theorem words_rdropWhile (text : List α) : words sep (text.rdropWhile sep) = words sep text := by
  induction text using List.reverseRecOn with
  | nil => rfl
  | append_singleton text a ih =>
      by_cases separates : sep a
      · rw [List.rdropWhile_concat_pos _ _ _ separates, ih, words_concat text separates]
      · rw [List.rdropWhile_concat_neg _ _ _ separates]

end Words

end Ministr.Theory
