/-
# Theory.Preorder — parents by position, and nesting by depth

A forest whose labels carry a depth is nested when every child is deeper than its parent
and no sibling is deeper than the one before it.  `parents` lists, label by label in
pre-order, where the parent stands.  `parents_eq` says that in a nested forest it stands
at the last earlier label that is less deep.
-/
import Ministr.Theory.Forest

namespace Ministr.Theory

set_option autoImplicit false

universe u

section LastIdx

variable {α : Type u}

/-- Where the last element that meets the condition stands. -/
def lastIdx (p : α → Bool) : List α → Option Nat
  | [] => none
  | a :: as =>
      match lastIdx p as with
      | some i => some (i + 1)
      | none => if p a then some 0 else none

theorem lastIdx_eq_none {p : α → Bool} {as : List α} :
    lastIdx p as = none ↔ ∀ a ∈ as, p a = false := by
  induction as with
  | nil => simp [lastIdx]
  | cons a as ih =>
      cases later : lastIdx p as with
      | none =>
          rw [lastIdx, later]
          simpa using fun _ => ih.mp later
      | some i =>
          rw [lastIdx, later]
          have found : ¬ ∀ a ∈ as, p a = false := fun all => by rw [ih.mpr all] at later; cases later
          exact iff_of_false nofun fun all => found fun a mem => all a (List.mem_cons_of_mem _ mem)

theorem lastIdx_append_of_none {p : α → Bool} (as : List α) {bs : List α}
    (off : ∀ b ∈ bs, p b = false) : lastIdx p (as ++ bs) = lastIdx p as := by
  induction as with
  | nil => exact lastIdx_eq_none.mpr off
  | cons a as ih => rw [List.cons_append, lastIdx, ih, lastIdx]

theorem lastIdx_concat {p : α → Bool} (as : List α) {a : α} (meets : p a = true) :
    lastIdx p (as ++ [a]) = some as.length := by
  induction as with
  | nil => simp [lastIdx, meets]
  | cons b as ih => rw [List.cons_append, lastIdx, ih, List.length_cons]

/-- For each element, where the last one before it stands that is less deep; `before` are
those already passed. -/
def shallowerFrom (depth : α → Nat) (before : List α) : List α → List (Option Nat)
  | [] => []
  | a :: as =>
      lastIdx (fun b => decide (depth b < depth a)) before :: shallowerFrom depth (before ++ [a]) as

theorem shallowerFrom_append (depth : α → Nat) (before as bs : List α) :
    shallowerFrom depth before (as ++ bs) =
      shallowerFrom depth before as ++ shallowerFrom depth (before ++ as) bs := by
  induction as generalizing before with
  | nil => simp [shallowerFrom]
  | cons a as ih => simp [shallowerFrom, ih]

theorem length_shallowerFrom (depth : α → Nat) (before as : List α) :
    (shallowerFrom depth before as).length = as.length := by
  induction as generalizing before with
  | nil => rfl
  | cons a as ih => simp [shallowerFrom, ih]

theorem shallowerFrom_at (depth : α → Nat) (before : List α) (a : α) (after : List α) :
    (shallowerFrom depth [] (before ++ a :: after))[before.length]? =
      some (lastIdx (fun b => decide (depth b < depth a)) before) := by
  have start := length_shallowerFrom depth [] before
  rw [shallowerFrom_append, List.getElem?_append_right (by omega), start, Nat.sub_self,
    List.nil_append]
  rfl

end LastIdx

namespace Forest

variable {α : Type u}

/-- Where the parent of each label stands; the first label stands at `pos`. -/
def parentsFrom (pos : Nat) (parent : Option Nat) : Forest α → List (Option Nat)
  | nil => []
  | cons _ children rest =>
      parent :: (parentsFrom (pos + 1) (some pos) children ++
        parentsFrom (pos + 1 + children.labels.length) parent rest)

/-- For each label in pre-order, the position of its parent. -/
def parents (f : Forest α) : List (Option Nat) := parentsFrom 0 none f

/-- Children are deeper than their parent, and siblings do not get deeper. -/
def Nested (depth : α → Nat) : Forest α → Prop
  | nil => True
  | cons head children rest =>
      (∀ b ∈ children.roots, depth head < depth b) ∧ Nested depth children ∧
        (∀ b ∈ rest.roots.head?, depth b ≤ depth head) ∧ Nested depth rest

variable {depth : α → Nat}

theorem Nested.roots_le {head : α} {children rest : Forest α}
    (nested : Nested depth (cons head children rest)) : ∀ b ∈ rest.roots, depth b ≤ depth head := by
  induction rest generalizing head children with
  | nil => exact nofun
  | cons next below later _ ih =>
      obtain ⟨-, -, first, rest⟩ := nested
      have le : depth next ≤ depth head := first next rfl
      intro b mem
      rcases List.mem_cons.mp mem with rfl | mem
      · exact le
      · exact Nat.le_trans (ih rest b mem) le

/-- Nothing in a nested forest is less deep than all its roots. -/
theorem Nested.exists_root_le {f : Forest α} (nested : Nested depth f) {b : α}
    (mem : b ∈ f.labels) : ∃ a ∈ f.roots, depth a ≤ depth b := by
  induction f with
  | nil => cases mem
  | cons head children rest ihChildren ihRest =>
      obtain ⟨deeper, below, -, later⟩ := nested
      rcases List.mem_cons.mp mem with rfl | mem
      · exact ⟨b, List.mem_cons_self, Nat.le_refl _⟩
      rcases List.mem_append.mp mem with mem | mem
      · obtain ⟨a, root, le⟩ := ihChildren below mem
        exact ⟨head, List.mem_cons_self, Nat.le_trans (Nat.le_of_lt (deeper a root)) le⟩
      · obtain ⟨a, root, le⟩ := ihRest later mem
        exact ⟨a, List.mem_cons_of_mem _ root, le⟩

theorem Nested.append {f g : Forest α} (left : Nested depth f) (right : Nested depth g)
    (seam : ∀ a ∈ f.roots.getLast?, ∀ b ∈ g.roots.head?, depth b ≤ depth a) :
    Nested depth (f.append g) := by
  induction f with
  | nil => exact right
  | cons head children rest _ ih =>
      obtain ⟨deeper, below, first, later⟩ := left
      cases rest with
      | nil => exact ⟨deeper, below, seam head rfl, right⟩
      | cons next inner more =>
          exact ⟨deeper, below, first, ih later seam⟩

/-- **In a nested forest the parent is the last earlier label that is less deep.** -/
theorem parentsFrom_eq {f : Forest α} (nested : Nested depth f) {before : List α}
    {parent : Option Nat}
    (fits : ∀ a ∈ f.roots, lastIdx (fun b => decide (depth b < depth a)) before = parent) :
    parentsFrom before.length parent f = shallowerFrom depth before f.labels := by
  induction f generalizing before parent with
  | nil => rfl
  | cons head children rest ihChildren ihRest =>
      obtain ⟨deeper, below, first, later⟩ := nested
      have inner : parentsFrom (before.length + 1) (some before.length) children =
          shallowerFrom depth (before ++ [head]) children.labels := by
        rw [← List.length_singleton (a := head), ← List.length_append]
        exact ihChildren below fun a root => lastIdx_concat before (by simpa using deeper a root)
      have outer : parentsFrom (before.length + 1 + children.labels.length) parent rest =
          shallowerFrom depth (before ++ [head] ++ children.labels) rest.labels := by
        rw [← List.length_singleton (a := head), ← List.length_append, ← List.length_append]
        refine ihRest later fun a root => ?_
        -- What was passed since is at least as deep as `head`, and `a` is not deeper.
        have notDeeper := Nested.roots_le ⟨deeper, below, first, later⟩ a root
        rw [List.append_assoc, lastIdx_append_of_none]
        · exact fits a (List.mem_cons_of_mem _ root)
        · intro b mem
          rw [decide_eq_false_iff_not, Nat.not_lt]
          rcases List.mem_cons.mp mem with rfl | mem
          · exact notDeeper
          · obtain ⟨c, top, le⟩ := below.exists_root_le mem
            have := deeper c top
            omega
      rw [parentsFrom, labels, shallowerFrom, shallowerFrom_append, inner, outer,
        fits head List.mem_cons_self]

theorem parents_eq {f : Forest α} (nested : Nested depth f) :
    f.parents = shallowerFrom depth [] f.labels :=
  @parentsFrom_eq _ _ _ nested [] none fun _ _ => rfl

end Forest

end Ministr.Theory
