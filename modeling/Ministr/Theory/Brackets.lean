/-
# Theory.Brackets — matching brackets in a list

`matchClose` looks for the bracket that closes the ones that are open, and gives up at a `stops`.
`balanced` lists are passed as a whole (`matchClose_balanced`).  `settles` is weaker: every
opening bracket in front of the first `stops` is closed there, but a closing one may be left
over, so that a list that settles does so from each of its places on (`settles_mono`).
-/
import Mathlib.Data.List.Basic
import Mathlib.Tactic.Common

namespace Ministr.Theory

set_option autoImplicit false

section Brackets

variable {α : Type} (opens closes stops : α → Bool)

/-- The closing bracket with which `depth` comes back to zero, and what follows it. -/
def matchClose : Nat → List α → Option (α × List α)
  | _, [] => none
  | depth, x :: xs =>
    if opens x then matchClose (depth + 1) xs
    else if closes x then if depth = 1 then some (x, xs) else matchClose (depth - 1) xs
    else if stops x then none
    else matchClose depth xs

def balanced : Nat → List α → Bool
  | depth, [] => depth = 0
  | depth, x :: xs =>
    if opens x then balanced (depth + 1) xs
    else if closes x then 0 < depth && balanced (depth - 1) xs
    else balanced depth xs

def settles : Nat → List α → Bool
  | depth, [] => depth = 0
  | depth, x :: xs =>
    if opens x then settles (depth + 1) xs
    else if closes x then settles (depth - 1) xs
    else if stops x then depth = 0
    else settles depth xs

variable {opens closes stops}

theorem matchClose_suffix {depth : Nat} {xs rest : List α} {x : α}
    (found : matchClose opens closes stops depth xs = some (x, rest)) :
    ∃ front, xs = front ++ x :: rest := by
  induction xs generalizing depth with
  | nil => simp [matchClose] at found
  | cons y ys ih =>
      rw [matchClose] at found
      split at found
      · obtain ⟨front, rfl⟩ := ih found
        exact ⟨y :: front, rfl⟩
      split at found
      · split at found
        · obtain ⟨rfl, rfl⟩ := Prod.mk.inj (Option.some.inj found)
          exact ⟨[], rfl⟩
        · obtain ⟨front, rfl⟩ := ih found
          exact ⟨y :: front, rfl⟩
      split at found
      · exact absurd found (by simp)
      · obtain ⟨front, rfl⟩ := ih found
        exact ⟨y :: front, rfl⟩

theorem matchClose_balanced {depth : Nat} {body : List α} {c : α}
    (even : balanced opens closes depth body) (closing : closes c) (other : ¬opens c)
    (free : ∀ x ∈ body, ¬stops x) (rest : List α) :
    matchClose opens closes stops (depth + 1) (body ++ c :: rest) = some (c, rest) := by
  induction body generalizing depth with
  | nil =>
      obtain rfl : depth = 0 := by simpa [balanced] using even
      simp [matchClose, closing, other]
  | cons x xs ih =>
      rw [List.forall_mem_cons] at free
      rw [balanced] at even
      rw [List.cons_append, matchClose]
      by_cases isOpen : opens x
      · simp only [isOpen, if_true] at even ⊢
        exact ih even free.2
      by_cases isClose : closes x
      · simp only [isOpen, isClose, if_true, if_false, Bool.and_eq_true, decide_eq_true_eq,
          Bool.false_eq_true] at even ⊢
        obtain ⟨under, rfl⟩ := Nat.exists_eq_succ_of_ne_zero (Nat.ne_of_gt even.1)
        rw [if_neg (by omega)]
        exact ih even.2 free.2
      · simp only [isOpen, isClose, free.1, if_false, Bool.false_eq_true] at even ⊢
        exact ih even free.2

theorem settles_mono {d d' : Nat} (le : d ≤ d') {xs : List α}
    (settled : settles opens closes stops d' xs) : settles opens closes stops d xs := by
  induction xs generalizing d d' with
  | nil =>
      simp only [settles, decide_eq_true_eq] at settled ⊢
      omega
  | cons x xs ih =>
      rw [settles] at settled ⊢
      split at settled
      next isOpen =>
        rw [if_pos isOpen]
        exact ih (by omega) settled
      next notOpen =>
        rw [if_neg notOpen]
        split at settled
        next isClose =>
          rw [if_pos isClose]
          exact ih (by omega) settled
        next notClose =>
          rw [if_neg notClose]
          split at settled
          next isStop =>
            rw [if_pos isStop]
            simp only [decide_eq_true_eq] at settled ⊢
            omega
          next notStop =>
            rw [if_neg notStop]
            exact ih le settled

/-- The bracket that is open is closed in front of any `stops`, and what follows settles. -/
theorem matchClose_settles (apart : ∀ x, stops x → ¬opens x ∧ ¬closes x) {depth : Nat}
    {xs : List α} (settled : settles opens closes stops (depth + 1) xs) :
    ∃ front x back, xs = front ++ x :: back ∧ balanced opens closes depth front ∧
      (closes x ∧ ¬opens x) ∧ (∀ y ∈ front, ¬stops y) ∧ settles opens closes stops 0 back := by
  induction xs generalizing depth with
  | nil => simp [settles] at settled
  | cons x xs ih =>
      rw [settles] at settled
      by_cases isOpen : opens x
      · simp only [isOpen, if_true] at settled
        obtain ⟨front, c, back, rfl, even, closing, free, after⟩ := ih settled
        refine ⟨x :: front, c, back, rfl, ?_, closing, ?_, after⟩
        · simpa only [balanced, isOpen, if_true] using even
        · exact List.forall_mem_cons.mpr ⟨fun isStop => (apart x isStop).1 isOpen, free⟩
      by_cases isClose : closes x
      · simp only [isOpen, isClose, if_true, if_false, Bool.false_eq_true] at settled
        cases depth with
        | zero => exact ⟨[], x, xs, rfl, by simp [balanced], ⟨isClose, isOpen⟩, by simp, settled⟩
        | succ depth =>
            obtain ⟨front, c, back, rfl, even, closing, free, after⟩ := ih settled
            refine ⟨x :: front, c, back, rfl, ?_, closing, ?_, after⟩
            · simpa [balanced, isOpen, isClose] using even
            · exact List.forall_mem_cons.mpr ⟨fun isStop => (apart x isStop).2 isClose, free⟩
      by_cases isStop : stops x
      · simp [isOpen, isClose, isStop] at settled
      · simp only [isOpen, isClose, isStop, if_false, Bool.false_eq_true] at settled
        obtain ⟨front, c, back, rfl, even, closing, free, after⟩ := ih settled
        refine ⟨x :: front, c, back, rfl, ?_, closing, ?_, after⟩
        · simpa [balanced, isOpen, isClose] using even
        · exact List.forall_mem_cons.mpr ⟨isStop, free⟩

theorem settles_append {front back : List α} {depth : Nat}
    (settled : settles opens closes stops depth (front ++ back)) (free : ∀ x ∈ front, ¬stops x) :
    settles opens closes stops 0 back := by
  induction front generalizing depth with
  | nil => exact settles_mono (Nat.zero_le depth) settled
  | cons x front ih =>
      rw [List.forall_mem_cons] at free
      rw [List.cons_append, settles] at settled
      split at settled
      · exact ih settled free.2
      split at settled
      · exact ih settled free.2
      · rw [if_neg free.1] at settled
        exact ih settled free.2

theorem balanced_append {depth outer : Nat} {front back : List α}
    (even : balanced opens closes depth front) (after : balanced opens closes outer back) :
    balanced opens closes (depth + outer) (front ++ back) := by
  induction front generalizing depth with
  | nil =>
      obtain rfl : depth = 0 := by simpa [balanced] using even
      rwa [Nat.zero_add]
  | cons x front ih =>
      rw [balanced] at even
      rw [List.cons_append, balanced]
      split at even
      next isOpen =>
        rw [if_pos isOpen, Nat.add_right_comm]
        exact ih even
      next notOpen =>
        rw [if_neg notOpen]
        split at even
        next isClose =>
          simp only [Bool.and_eq_true, decide_eq_true_eq] at even
          rw [if_pos isClose, Nat.sub_add_comm even.1, Bool.and_eq_true, decide_eq_true_eq]
          exact ⟨by omega, ih even.2⟩
        next notClose =>
          rw [if_neg notClose]
          exact ih even

theorem balanced_of_free {xs : List α} (free : ∀ x ∈ xs, ¬opens x ∧ ¬closes x) :
    balanced opens closes 0 xs := by
  induction xs with
  | nil => simp [balanced]
  | cons x xs ih =>
      rw [List.forall_mem_cons] at free
      rw [balanced, if_neg free.1.1, if_neg free.1.2]
      exact ih free.2

theorem settles_of_balanced {depth outer : Nat} {xs rest : List α}
    (even : balanced opens closes depth xs) (free : ∀ x ∈ xs, ¬stops x)
    (settled : settles opens closes stops outer rest) :
    settles opens closes stops (depth + outer) (xs ++ rest) := by
  induction xs generalizing depth with
  | nil =>
      obtain rfl : depth = 0 := by simpa [balanced] using even
      rwa [Nat.zero_add]
  | cons x xs ih =>
      rw [List.forall_mem_cons] at free
      rw [balanced] at even
      rw [List.cons_append, settles]
      split at even
      next isOpen =>
        rw [if_pos isOpen, Nat.add_right_comm]
        exact ih even free.2
      next notOpen =>
        rw [if_neg notOpen]
        split at even
        next isClose =>
          simp only [Bool.and_eq_true, decide_eq_true_eq] at even
          rw [if_pos isClose, Nat.sub_add_comm even.1]
          exact ih even.2 free.2
        next notClose =>
          rw [if_neg notClose, if_neg free.1]
          exact ih even free.2

theorem balanced_of_append {front back : List α} (even : balanced opens closes 0 (front ++ back))
    (free : ∀ x ∈ front, ¬opens x) : balanced opens closes 0 back := by
  induction front with
  | nil => exact even
  | cons x front ih =>
      rw [List.forall_mem_cons] at free
      rw [List.cons_append, balanced, if_neg free.1] at even
      split at even
      · simp at even
      · exact ih even free.2

/-- The first opening bracket of a balanced list is closed in it. -/
theorem matchClose_of_balanced {front back : List α} {o : α}
    (even : balanced opens closes 0 (front ++ o :: back)) (free : ∀ x ∈ front, ¬opens x)
    (opening : opens o) (rest : List α) :
    ∃ found, matchClose opens closes (fun _ => false) 0 (o :: (back ++ rest)) = some found := by
  have open_ := balanced_of_append even free
  rw [balanced, if_pos opening] at open_
  have settled : settles opens closes (fun _ => false) (0 + 1 + 0) (back ++ []) :=
    settles_of_balanced open_ (by simp) (by simp [settles])
  obtain ⟨inner, c, after, whole, evenInner, closing, _, _⟩ :=
    matchClose_settles (by simp) settled
  rw [List.append_nil] at whole
  rw [matchClose, if_pos opening, whole, List.append_assoc, List.cons_append,
    matchClose_balanced evenInner closing.1 closing.2 (by simp)]
  exact ⟨_, rfl⟩

/-! ## Lists of single elements and closed groups -/

/-- Elements with `P` that open no bracket, and groups in brackets. -/
inductive Grouped (opens closes stops : α → Bool) (P : α → Prop) : List α → Prop
  | nil : Grouped opens closes stops P []
  | single {x : α} {xs : List α} (other : ¬opens x) (allowed : P x)
      (rest : Grouped opens closes stops P xs) : Grouped opens closes stops P (x :: xs)
  | group {o c : α} {inner xs : List α} (opening : opens o)
      (even : balanced opens closes 0 inner) (free : ∀ x ∈ inner, ¬stops x)
      (closing : closes c ∧ ¬opens c) (rest : Grouped opens closes stops P xs) :
      Grouped opens closes stops P (o :: (inner ++ c :: xs))

variable {P Q : α → Prop}

theorem Grouped.imp (weaker : ∀ x, P x → Q x) {xs : List α}
    (grouped : Grouped opens closes stops P xs) : Grouped opens closes stops Q xs := by
  induction grouped with
  | nil => exact .nil
  | single other allowed _ ih => exact .single other (weaker _ allowed) ih
  | group opening even free closing _ ih => exact .group opening even free closing ih

theorem Grouped.append {xs ys : List α} (grouped : Grouped opens closes stops P xs)
    (others : Grouped opens closes stops P ys) : Grouped opens closes stops P (xs ++ ys) := by
  induction grouped with
  | nil => exact others
  | single other allowed _ ih => exact .single other allowed ih
  | group opening even free closing _ ih =>
      rw [List.cons_append, List.append_assoc, List.cons_append]
      exact .group opening even free closing ih

theorem Grouped.of_forall {xs : List α} (all : ∀ x ∈ xs, ¬opens x ∧ P x) :
    Grouped opens closes stops P xs := by
  induction xs with
  | nil => exact .nil
  | cons x xs ih =>
      rw [List.forall_mem_cons] at all
      exact .single all.1.1 all.1.2 (ih all.2)

theorem Grouped.free {xs : List α} (grouped : Grouped opens closes stops P xs)
    (single : ∀ x, P x → ¬stops x) (brackets : ∀ x, opens x ∨ closes x → ¬stops x) :
    ∀ x ∈ xs, ¬stops x := by
  induction grouped with
  | nil => simp
  | single _ allowed _ ih => exact List.forall_mem_cons.mpr ⟨single _ allowed, ih⟩
  | group opening _ free closing _ ih =>
      rw [List.forall_mem_cons, List.forall_mem_append, List.forall_mem_cons]
      exact ⟨brackets _ (.inl opening), free, brackets _ (.inr closing.1), ih⟩

theorem Grouped.settles {xs : List α} (grouped : Grouped opens closes stops P xs) :
    settles opens closes stops 0 xs := by
  induction grouped with
  | nil => simp [Theory.settles]
  | single other _ _ ih =>
      rw [Theory.settles, if_neg other]
      split
      · exact ih
      split
      · rfl
      · exact ih
  | group opening even free closing _ ih =>
      rw [Theory.settles, if_pos opening]
      refine settles_of_balanced even free ?_
      rw [Theory.settles, if_neg closing.2, if_pos closing.1]
      exact ih

theorem grouped_of_settles (apart : ∀ x, stops x → ¬opens x ∧ ¬closes x) {xs : List α}
    (settled : settles opens closes stops 0 xs) (all : ∀ x ∈ xs, ¬stops x ∧ (¬opens x → P x)) :
    Grouped opens closes stops P xs := by
  induction size : xs.length using Nat.strongRecOn generalizing xs with
  | _ n ih =>
    cases xs with
    | nil => exact .nil
    | cons x xs =>
        rw [List.forall_mem_cons] at all
        rw [settles] at settled
        by_cases isOpen : opens x
        · rw [if_pos isOpen] at settled
          obtain ⟨inner, c, back, rfl, even, closing, free, after⟩ := matchClose_settles apart settled
          refine .group isOpen even free closing (ih back.length ?_ after ?_ rfl)
          · simp only [List.length_cons, List.length_append] at size
            omega
          · exact fun y mem => all.2 y (by simp [mem])
        · refine .single isOpen (all.1.2 isOpen) (ih xs.length ?_ ?_ all.2 rfl)
          · simp only [List.length_cons] at size
            omega
          · rw [if_neg isOpen] at settled
            split at settled
            · exact settled
            · rwa [if_neg all.1.1] at settled

/-- A suffix of such a list is one as well, with the closing brackets of the groups it starts
inside of as elements of their own. -/
theorem Grouped.suffix (apart : ∀ x, stops x → ¬opens x ∧ ¬closes x) {front back : List α}
    (grouped : Grouped opens closes stops P (front ++ back))
    (all : ∀ x ∈ front ++ back, ¬stops x ∧ (¬opens x → Q x)) :
    Grouped opens closes stops Q back := by
  rw [List.forall_mem_append] at all
  exact grouped_of_settles apart (settles_append grouped.settles fun x mem => (all.1 x mem).1)
    all.2

end Brackets

end Ministr.Theory
