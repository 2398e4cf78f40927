/-
# Theory.Scan — a scan that keeps the best element so far

A loop over a collection that keeps its best so far, or takes the element at hand,
ends with one of the elements (`mem_of_foldl_pick`).  When the comparison is a strict
order, none of the elements is better than the one it ends with (`scanBest_least`).
-/
import Mathlib.Data.List.Basic
import Mathlib.Data.List.Induction
import Mathlib.Tactic.Common

namespace Ministr.Theory

set_option autoImplicit false

universe u

section Scan

variable {α : Type u}

/-- A fold that keeps its best so far or takes the element at hand ends with one of the
elements. -/
theorem mem_of_foldl_pick {pick : Option α → α → Option α}
    (picks : ∀ best a r, pick best a = some r → r = a ∨ best = some r) {best : Option α} {r : α}
    (as : List α) (chosen : as.foldl pick best = some r) : r ∈ as ∨ best = some r := by
  induction as generalizing best with
  | nil => exact Or.inr chosen
  | cons a as ih =>
      rcases ih chosen with later | here
      · exact Or.inl (List.mem_cons_of_mem _ later)
      · rcases picks best a r here with rfl | kept
        · exact Or.inl List.mem_cons_self
        · exact Or.inr kept

/-- The first element that no later one beats: `min_by` over the collection. -/
def scanBest (better : α → α → Bool) (as : List α) : Option α :=
  as.foldl (fun best a => some (best.elim a fun b => if better a b then a else b)) none

theorem scanBest_mem {better : α → α → Bool} {as : List α} {a : α}
    (best : scanBest better as = some a) : a ∈ as := by
  refine (mem_of_foldl_pick (fun best b r picked => ?_) as best).resolve_right nofun
  cases best with
  | none =>
      cases picked
      exact Or.inl rfl
  | some c =>
      simp only [Option.elim_some, Option.some.injEq] at picked ⊢
      split at picked
      · exact Or.inl picked.symm
      · exact Or.inr picked

theorem scanBest_eq_none {better : α → α → Bool} {as : List α} :
    scanBest better as = none ↔ as = [] := by
  have kept : ∀ (as : List α) (best : α), as.foldl
      (fun best a => some (best.elim a fun b => if better a b then a else b)) (some best) ≠ none := by
    intro as
    induction as with
    | nil => exact fun best => nofun
    | cons a as ih => exact fun best => ih _
  cases as with
  | nil => simp [scanBest]
  | cons a as => exact iff_of_false (kept as a) nofun

/-- No element is better than the one the scan ends with. -/
theorem scanBest_least {better : α → α → Bool}
    (trans : ∀ a b c, better a b = true → better b c = true → better a c = true)
    (irrefl : ∀ a, better a a = false) {as : List α} {a : α}
    (best : scanBest better as = some a) : ∀ b ∈ as, better b a = false := by
  have least : ∀ (as : List α) (start : Option α) (seen : List α),
      (∀ b ∈ start, ∀ c ∈ seen, better c b = false) →
      as.foldl (fun best a => some (best.elim a fun b => if better a b then a else b)) start =
        some a → (start = none → seen = []) → ∀ c ∈ seen ++ as, better c a = false := by
    intro as
    induction as with
    | nil =>
        intro start seen unbeaten ended _ c mem
        rw [List.append_nil] at mem
        exact unbeaten a ended c mem
    | cons x as ih =>
        intro start seen unbeaten ended empty c mem
        refine ih _ (seen ++ [x]) ?_ ended nofun c (by simpa using mem)
        intro b chosen c mem
        rw [Option.mem_def, Option.some.injEq] at chosen
        cases start with
        | none =>
            rw [empty rfl, List.nil_append, List.mem_singleton] at mem
            subst mem
            rw [← chosen]
            exact irrefl c
        | some s =>
            simp only [Option.elim_some] at chosen
            by_cases beats : better x s = true
            · rw [if_pos beats] at chosen
              subst chosen
              rcases List.mem_append.mp mem with before | here
              · refine Bool.eq_false_iff.mpr fun better_x => ?_
                have beaten := unbeaten s rfl c before
                rw [trans c x s better_x beats] at beaten
                cases beaten
              · rw [List.mem_singleton.mp here]
                exact irrefl x
            · rw [if_neg beats] at chosen
              subst chosen
              rcases List.mem_append.mp mem with before | here
              · exact unbeaten s rfl c before
              · rw [List.mem_singleton.mp here]
                exact Bool.eq_false_iff.mpr beats
  intro b mem
  exact least as none [] nofun best (fun _ => rfl) b mem

theorem scanBest_concat {better : α → α → Bool} (as : List α) (x : α) :
    scanBest better (as ++ [x]) =
      some ((scanBest better as).elim x fun b => if better x b then x else b) := by
  rw [scanBest, List.foldl_append]
  rfl

/-- The scan ends with an element that beats all before it and that nothing after it beats. -/
theorem scanBest_of_split {better : α → α → Bool} {front back : List α} {a : α}
    (beats : ∀ b ∈ front, better a b = true) (unbeaten : ∀ b ∈ back, better b a = false) :
    scanBest better (front ++ a :: back) = some a := by
  induction back using List.reverseRecOn with
  | nil =>
      rw [scanBest_concat]
      cases best : scanBest better front with
      | none => rfl
      | some b => rw [Option.elim_some, if_pos (beats b (scanBest_mem best))]
  | append_singleton back x ih =>
      have earlier := ih fun b mem => unbeaten b (List.mem_append_left _ mem)
      rw [← List.cons_append, ← List.append_assoc, scanBest_concat, earlier, Option.elim_some,
        if_neg (by simp [unbeaten x (by simp)])]

/-- Conversely, where what beats an element beats all that the element is not beaten by. -/
theorem split_of_scanBest {better : α → α → Bool}
    (trans : ∀ a b c, better a b = true → better b c = true → better a c = true)
    (through : ∀ a b c, better a b = true → better c b = false → better a c = true)
    {as : List α} {a : α} (best : scanBest better as = some a) :
    ∃ front back, as = front ++ a :: back ∧ (∀ b ∈ front, better a b = true) ∧
      ∀ b ∈ back, better b a = false := by
  induction as using List.reverseRecOn generalizing a with
  | nil => cases best
  | append_singleton as x ih =>
      rw [scanBest_concat, Option.some.injEq] at best
      cases sofar : scanBest better as with
      | none =>
          rw [sofar, Option.elim_none] at best
          exact ⟨[], [], by simp [scanBest_eq_none.mp sofar, best], nofun, nofun⟩
      | some b =>
          rw [sofar, Option.elim_some] at best
          obtain ⟨front, back, whole, beats, unbeaten⟩ := ih sofar
          by_cases beaten : better x b = true
          · rw [if_pos beaten] at best
            refine ⟨as, [], by rw [best], fun c mem => ?_, nofun⟩
            rw [whole] at mem
            rcases List.mem_append.mp mem with before | after
            · exact best ▸ trans x b c beaten (beats c before)
            · rcases List.mem_cons.mp after with rfl | after
              · exact best ▸ beaten
              · exact best ▸ through x b c beaten (unbeaten c after)
          · rw [if_neg beaten] at best
            subst best
            refine ⟨front, back ++ [x], by rw [whole]; simp, beats, fun c mem => ?_⟩
            rcases List.mem_append.mp mem with earlier | last
            · exact unbeaten c earlier
            · rw [List.mem_singleton.mp last]
              exact Bool.eq_false_iff.mpr beaten

/-- A scan over the elements that pass a test. -/
theorem scanBest_filter_iff {better : α → α → Bool}
    (trans : ∀ a b c, better a b = true → better b c = true → better a c = true)
    (through : ∀ a b c, better a b = true → better c b = false → better a c = true)
    {passes : α → Bool} {as : List α} {a : α} :
    scanBest better (as.filter passes) = some a ↔
      ∃ front back, as = front ++ a :: back ∧ passes a = true ∧
        (∀ b ∈ front, passes b = true → better a b = true) ∧
        ∀ b ∈ back, passes b = true → better b a = false := by
  constructor
  · intro best
    obtain ⟨front', back', whole, beats, unbeaten⟩ := split_of_scanBest trans through best
    obtain ⟨front, rest, rfl, kept, tail⟩ := List.filter_eq_append_iff.mp whole
    obtain ⟨skipped, back, rfl, failed, pass, kept'⟩ := List.filter_eq_cons_iff.mp tail
    refine ⟨front ++ skipped, back, by simp, pass, fun b mem passB => ?_, fun b mem passB => ?_⟩
    · rcases List.mem_append.mp mem with early | late
      · exact beats b (kept ▸ List.mem_filter.mpr ⟨early, passB⟩)
      · exact absurd passB (failed b late)
    · exact unbeaten b (kept' ▸ List.mem_filter.mpr ⟨mem, passB⟩)
  · rintro ⟨front, back, rfl, pass, beats, unbeaten⟩
    rw [List.filter_append, List.filter_cons_of_pos pass]
    refine scanBest_of_split (fun b mem => ?_) fun b mem => ?_
    · exact beats b (List.mem_filter.mp mem).1 (List.mem_filter.mp mem).2
    · exact unbeaten b (List.mem_filter.mp mem).1 (List.mem_filter.mp mem).2

/-- Where nothing later beats anything earlier, the scan ends with the first. -/
theorem scanBest_of_sorted {better : α → α → Bool} {as : List α}
    (sorted : as.Pairwise fun a b => better b a = false) : scanBest better as = as.head? := by
  cases as with
  | nil => rfl
  | cons a as =>
      show scanBest better ([] ++ a :: as) = some a
      exact scanBest_of_split (fun b mem => by cases mem) (List.pairwise_cons.mp sorted).1

end Scan

end Ministr.Theory
