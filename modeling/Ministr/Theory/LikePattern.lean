/-
# Theory.LikePattern — patterns of SQL's LIKE

`%` stands for any text and `_` for any character; other characters stand for themselves, and ASCII
letters for both cases.  As a wildcard also stands for itself, a text in any ASCII case matches
wherever it stands (`like_contains`).
-/
import Mathlib.Data.List.Infix
import Mathlib.Tactic.Common

namespace Ministr.Theory

set_option autoImplicit false

/-- `text LIKE pattern`. -/
def like : List Char → List Char → Bool
  | [], text => text.isEmpty
  | x :: pattern, text =>
      if x = '%' then text.tails.any (like pattern)
      else
        match text with
        | [] => false
        | c :: rest => (x == '_' || x.toLower == c.toLower) && like pattern rest

theorem like_wild (pattern text : List Char) :
    like ('%' :: pattern) text = text.tails.any (like pattern) := by
  cases text <;> rfl

theorem like_cons_cons {x : Char} (plain : x ≠ '%') (pattern : List Char) (c : Char)
    (text : List Char) :
    like (x :: pattern) (c :: text) =
      ((x == '_' || x.toLower == c.toLower) && like pattern text) := if_neg plain

theorem like_percent {pattern text : List Char} :
    like ('%' :: pattern) text = true ↔
      ∃ front back, text = front ++ back ∧ like pattern back = true := by
  rw [like_wild, List.any_eq_true]
  constructor
  · rintro ⟨back, mem, held⟩
    obtain ⟨front, whole⟩ := (List.mem_tails _ _).mp mem
    exact ⟨front, back, whole.symm, held⟩
  · rintro ⟨front, back, whole, held⟩
    exact ⟨back, (List.mem_tails _ _).mpr ⟨front, whole.symm⟩, held⟩

/-- Equal but for the case of ASCII letters. -/
def SameFold (word text : List Char) : Prop := word.map Char.toLower = text.map Char.toLower

/-- A pattern matches a text that it is, in any case. -/
theorem like_append {word text pattern rest : List Char} (same : SameFold word text)
    (held : like pattern rest = true) : like (word ++ pattern) (text ++ rest) = true := by
  induction word generalizing text with
  | nil =>
      have none : text = [] := List.map_eq_nil_iff.mp same.symm
      rw [none]
      exact held
  | cons x word ih =>
      cases text with
      | nil => cases same
      | cons c text =>
          obtain ⟨here, later⟩ := List.cons.inj same
          have rest_held := ih later
          by_cases any : x = '%'
          · rw [any, List.cons_append, like_percent]
            exact ⟨[c], text ++ rest, rfl, rest_held⟩
          · rw [List.cons_append, List.cons_append, like_cons_cons any, rest_held, Bool.and_true,
              Bool.or_eq_true, beq_iff_eq, beq_iff_eq]
            exact .inr here

/-- **A word between `%` matches every text it stands in, in any case.** -/
theorem like_contains {word part text : List Char} (same : SameFold word part)
    (stands : part <:+: text) : like ('%' :: (word ++ ['%'])) text = true := by
  obtain ⟨front, back, whole⟩ := stands
  refine like_percent.mpr ⟨front, part ++ back, by rw [← whole, List.append_assoc], ?_⟩
  refine like_append same (like_percent.mpr ⟨back, [], (List.append_nil back).symm, rfl⟩)

end Ministr.Theory
