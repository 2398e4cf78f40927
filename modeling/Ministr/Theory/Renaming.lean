/-
# Theory.Renaming — making names distinct by numbering

Names are read one after the other.  One that is not taken stays; one that is taken gets
the first free number from 2 on.  A numbered name can itself be a name that comes later
and is then taken, although nothing before it has that name.

`firstsKept_iff` says when this does not happen, by counting: the first `base-n` keeps its
name exactly when the earlier repetitions of `base` do not use up the numbers up to `n`
that were not in use as names.
-/
import Mathlib.Data.Finset.Card
import Mathlib.Data.List.Count
import Mathlib.Order.Interval.Finset.Nat
import Mathlib.Tactic.Common

namespace Ministr.Theory

set_option autoImplicit false

universe u

section Renaming

variable {α : Type u} (numbered : α → Nat → α)

/-- Names and what they become, in order. -/
inductive Renames : List α → List α → Prop
  | nil : Renames [] []
  | keep {names out : List α} {a : α} (run : Renames names out) (free : a ∉ out) :
      Renames (names ++ [a]) (out ++ [a])
  | rename {names out : List α} {a : α} {n : Nat} (run : Renames names out) (taken : a ∈ out)
      (two : 2 ≤ n) (free : numbered a n ∉ out)
      (smallest : ∀ m, 2 ≤ m → m < n → numbered a m ∈ out) :
      Renames (names ++ [a]) (out ++ [numbered a n])

/-- The first one of each name keeps it. -/
def FirstsKept (names out : List α) : Prop :=
  ∀ i a, names[i]? = some a → a ∉ names.take i → out[i]? = some a

variable [DecidableEq α]

/-- How many of the numbers from 2 to `n` are not in use as names. -/
def unused (names : List α) (base : α) (n : Nat) : Nat :=
  ((Finset.Icc 2 n).filter fun m => numbered base m ∉ names).card

/-- The repetitions of `base` so far leave the number `n`. -/
def LeavesNumber (names : List α) (a : α) : Prop :=
  a ∉ names → ∀ base n, a = numbered base n → 2 ≤ n →
    names.count base ≤ unused numbered names base n

/-- No name is used up before it occurs for the first time. -/
def Roomy (names : List α) : Prop :=
  ∀ i a, names[i]? = some a → LeavesNumber numbered (names.take i) a

/-- The numbers given out so far, for each name. -/
structure Numbering (names out : List α) (given : α → Finset Nat) : Prop where
  taken_iff : ∀ a, a ∈ out ↔ a ∈ names ∨ ∃ base n, n ∈ given base ∧ a = numbered base n
  card : ∀ base, (given base).card = names.count base - 1
  fresh : ∀ base n, n ∈ given base → 2 ≤ n ∧ numbered base n ∉ names
  initial : ∀ base n, n ∈ given base → ∀ m, 2 ≤ m → m < n →
    m ∈ given base ∨ numbered base m ∈ names

omit [DecidableEq α]

variable {numbered}

theorem Renames.length_eq {names out : List α} (run : Renames numbered names out) :
    out.length = names.length := by
  induction run with
  | nil => rfl
  | keep _ _ ih => simp [ih]
  | rename _ _ _ _ _ ih => simp [ih]

/-! ## One more name -/

theorem firstsKept_concat {names out : List α} (length : out.length = names.length) (a b : α) :
    FirstsKept (names ++ [a]) (out ++ [b]) ↔ FirstsKept names out ∧ (a ∉ names → b = a) := by
  constructor
  · intro kept
    refine ⟨fun i c found fresh => ?_, fun fresh => ?_⟩
    · have bound := (List.getElem?_eq_some_iff.mp found).1
      have here := kept i c (by rw [List.getElem?_append_left bound, found])
        (by rw [List.take_append_of_le_length (Nat.le_of_lt bound)]; exact fresh)
      rwa [List.getElem?_append_left (by omega)] at here
    · have here := kept names.length a (by simp) (by simpa using fresh)
      rw [← length] at here
      simpa using here
  · rintro ⟨kept, last⟩ i c found fresh
    rcases Nat.lt_or_ge i names.length with bound | bound
    · rw [List.getElem?_append_left bound] at found
      rw [List.take_append_of_le_length (Nat.le_of_lt bound)] at fresh
      rw [List.getElem?_append_left (by omega)]
      exact kept i c found fresh
    · have bound' := (List.getElem?_eq_some_iff.mp found).1
      rw [List.length_append, List.length_singleton] at bound'
      obtain rfl : i = names.length := by omega
      simp only [List.getElem?_concat_length, Option.some.injEq] at found
      subst found
      rw [List.take_left] at fresh
      rw [← length, List.getElem?_concat_length, last fresh]

variable [DecidableEq α]

theorem roomy_concat {names : List α} (a : α) :
    Roomy numbered (names ++ [a]) ↔ Roomy numbered names ∧ LeavesNumber numbered names a := by
  constructor
  · intro roomy
    refine ⟨fun i c found => ?_, ?_⟩
    · have bound := (List.getElem?_eq_some_iff.mp found).1
      have here := roomy i c (by rw [List.getElem?_append_left bound, found])
      rwa [List.take_append_of_le_length (Nat.le_of_lt bound)] at here
    · have here := roomy names.length a (by simp)
      rwa [List.take_left] at here
  · rintro ⟨roomy, last⟩ i c found
    rcases Nat.lt_or_ge i names.length with bound | bound
    · rw [List.getElem?_append_left bound] at found
      rw [List.take_append_of_le_length (Nat.le_of_lt bound)]
      exact roomy i c found
    · have bound' := (List.getElem?_eq_some_iff.mp found).1
      rw [List.length_append, List.length_singleton] at bound'
      obtain rfl : i = names.length := by omega
      simp only [List.getElem?_concat_length, Option.some.injEq] at found
      subst found
      rw [List.take_left]
      exact last

/-! ## The numbers given out -/

section Injective

variable (injective : ∀ {a b m n}, numbered a m = numbered b n → a = b ∧ m = n)

namespace Numbering

variable {names out : List α} {given : α → Finset Nat}

theorem keep (numbering : Numbering numbered names out given) {a : α} (free : a ∉ out) :
    Numbering numbered (names ++ [a]) (out ++ [a]) given where
  taken_iff b := by
    rw [List.mem_append, numbering.taken_iff, List.mem_append]
    exact or_right_comm
  card base := by
    have absent : a ∉ names := fun mem => free ((numbering.taken_iff a).mpr (.inl mem))
    rw [numbering.card, List.count_append, List.count_singleton]
    split
    · rename_i same
      rw [beq_iff_eq] at same
      subst same
      rw [List.count_eq_zero_of_not_mem absent]
    · rfl
  fresh base n mem := by
    obtain ⟨two, absent⟩ := numbering.fresh base n mem
    refine ⟨two, fun listed => ?_⟩
    rcases List.mem_append.mp listed with listed | listed
    · exact absent listed
    · rw [List.mem_singleton] at listed
      exact free (listed ▸ (numbering.taken_iff _).mpr (.inr ⟨base, n, mem, rfl⟩))
  initial base n mem m two less :=
    (numbering.initial base n mem m two less).imp_right (List.mem_append_left _)

include injective in
theorem rename (numbering : Numbering numbered names out given) {a : α} {n : Nat}
    (repeated : a ∈ names) (two : 2 ≤ n) (free : numbered a n ∉ out)
    (smallest : ∀ m, 2 ≤ m → m < n → numbered a m ∈ out) :
    Numbering numbered (names ++ [a]) (out ++ [numbered a n])
      (Function.update given a (insert n (given a))) := by
  have new : n ∉ given a := fun mem => free ((numbering.taken_iff _).mpr (.inr ⟨a, n, mem, rfl⟩))
  have same : ∀ b, b ∈ names ++ [a] ↔ b ∈ names := by
    intro b
    rw [List.mem_append, List.mem_singleton]
    exact ⟨fun mem => mem.elim id fun eq => eq ▸ repeated, .inl⟩
  have given_iff : ∀ base m, m ∈ Function.update given a (insert n (given a)) base ↔
      m ∈ given base ∨ (base = a ∧ m = n) := by
    intro base m
    by_cases is : base = a
    · subst is
      simp [or_comm]
    · simp [is]
  refine ⟨fun b => ?_, fun base => ?_, fun base m mem => ?_, fun base m mem k twoK less => ?_⟩
  · rw [List.mem_append, numbering.taken_iff, same, List.mem_singleton]
    constructor
    · rintro ((listed | ⟨base, m, mem, rfl⟩) | rfl)
      · exact .inl listed
      · exact .inr ⟨base, m, (given_iff base m).mpr (.inl mem), rfl⟩
      · exact .inr ⟨a, n, (given_iff a n).mpr (.inr ⟨rfl, rfl⟩), rfl⟩
    · rintro (listed | ⟨base, m, mem, rfl⟩)
      · exact .inl (.inl listed)
      · rcases (given_iff base m).mp mem with mem | ⟨rfl, rfl⟩
        · exact .inl (.inr ⟨base, m, mem, rfl⟩)
        · exact .inr rfl
  · have once := List.count_pos_iff.mpr repeated
    by_cases is : base = a
    · subst is
      rw [Function.update_self, Finset.card_insert_of_notMem new, numbering.card,
        List.count_append, List.count_singleton_self]
      omega
    · rw [Function.update_of_ne is, numbering.card, List.count_append,
        List.count_singleton, if_neg (by simpa using Ne.symm is), Nat.add_zero]
  · rw [same]
    rcases (given_iff base m).mp mem with mem | ⟨rfl, rfl⟩
    · exact numbering.fresh base m mem
    · exact ⟨two, fun listed => free ((numbering.taken_iff _).mpr (.inl listed))⟩
  · rw [given_iff, same]
    rcases (given_iff base m).mp mem with mem | ⟨rfl, rfl⟩
    · exact (numbering.initial base m mem k twoK less).imp_left .inl
    · rcases (numbering.taken_iff _).mp (smallest k twoK less) with listed | ⟨base', k', mem', eq⟩
      · exact .inr listed
      · obtain ⟨rfl, rfl⟩ := injective eq
        exact .inl (.inl mem')

/-- A name that has not occurred is taken exactly when its number was used up. -/
theorem mem_out_iff (numbering : Numbering numbered names out given) {a : α} (absent : a ∉ names) :
    a ∈ out ↔ ¬ LeavesNumber numbered names a := by
  have counted : ∀ base n, 2 ≤ n → numbered base n ∉ names →
      (n ∈ given base ↔ unused numbered names base n < names.count base) := by
    intro base n two absent
    have card := numbering.card base
    constructor
    · intro mem
      have all : ((Finset.Icc 2 n).filter fun m => numbered base m ∉ names) ⊆ given base := by
        intro m listed
        simp only [Finset.mem_filter, Finset.mem_Icc] at listed
        obtain ⟨⟨twoM, le⟩, free⟩ := listed
        rcases Nat.lt_or_eq_of_le le with less | rfl
        · exact (numbering.initial base n mem m twoM less).resolve_right free
        · exact mem
      have le := Finset.card_le_card all
      have pos := Finset.card_pos.mpr ⟨n, mem⟩
      rw [unused]
      omega
    · intro less
      by_contra missing
      -- Every number given out is below `n`, and `n` itself is unused.
      have below : given base ⊆
          ((Finset.Icc 2 n).filter fun m => numbered base m ∉ names).erase n := by
        intro m mem
        obtain ⟨twoM, free⟩ := numbering.fresh base m mem
        have ne : m ≠ n := fun eq => missing (eq ▸ mem)
        simp only [Finset.mem_erase, Finset.mem_filter, Finset.mem_Icc]
        refine ⟨ne, ⟨twoM, ?_⟩, free⟩
        by_contra above
        rcases numbering.initial base m mem n two (by omega) with given | listed
        · exact missing given
        · exact absent listed
      have own : n ∈ (Finset.Icc 2 n).filter fun m => numbered base m ∉ names := by
        simp [two, absent]
      have le := Finset.card_le_card below
      rw [Finset.card_erase_of_mem own] at le
      have pos := Finset.card_pos.mpr ⟨n, own⟩
      rw [unused] at less
      omega
  rw [numbering.taken_iff, LeavesNumber]
  constructor
  · rintro (listed | ⟨base, n, mem, rfl⟩) leaves
    · exact absent listed
    · have two := (numbering.fresh base n mem).1
      have room := leaves absent base n rfl two
      have less := (counted base n two absent).mp mem
      omega
  · intro used
    push Not at used
    obtain ⟨-, base, n, rfl, two, less⟩ := used
    exact .inr ⟨base, n, (counted base n two absent).mpr less, rfl⟩

end Numbering

include injective in
/-- **The first one of each name keeps it exactly when no name is used up before it
occurs.** -/
theorem firstsKept_iff {names out : List α} (run : Renames numbered names out) :
    FirstsKept names out ↔ Roomy numbered names := by
  suffices both : (FirstsKept names out ↔ Roomy numbered names) ∧
      (FirstsKept names out → ∃ given, Numbering numbered names out given) from both.1
  induction run with
  | nil =>
      refine ⟨⟨fun _ => nofun, fun _ => nofun⟩, fun _ => ⟨fun _ => ∅, ?_, ?_, ?_, ?_⟩⟩
      all_goals simp
  | @keep names out a run free ih =>
      have absent : (∃ given, Numbering numbered names out given) → a ∉ names :=
        fun ⟨_, numbering⟩ mem => free ((numbering.taken_iff a).mpr (.inl mem))
      rw [firstsKept_concat run.length_eq, roomy_concat]
      refine ⟨⟨fun kept => ?_, fun roomy => ⟨ih.1.mpr roomy.1, fun _ => rfl⟩⟩, fun kept => ?_⟩
      · refine ⟨ih.1.mp kept.1, ?_⟩
        obtain ⟨given, numbering⟩ := ih.2 kept.1
        have out := (numbering.mem_out_iff (absent ⟨given, numbering⟩)).not.mp free
        exact not_not.mp out
      · obtain ⟨given, numbering⟩ := ih.2 kept.1
        exact ⟨given, numbering.keep free⟩
  | @rename names out a n run taken two free smallest ih =>
      have moved : numbered a n ≠ a := fun same => free (same.symm ▸ taken)
      rw [firstsKept_concat run.length_eq, roomy_concat]
      refine ⟨⟨fun kept => ⟨ih.1.mp kept.1, ?_⟩, fun roomy => ⟨ih.1.mpr roomy.1, ?_⟩⟩, fun kept => ?_⟩
      · intro absent
        exact absurd (kept.2 absent) moved
      · intro absent
        obtain ⟨given, numbering⟩ := ih.2 (ih.1.mpr roomy.1)
        exact absurd roomy.2 ((numbering.mem_out_iff absent).mp taken)
      · obtain ⟨given, numbering⟩ := ih.2 kept.1
        have repeated : a ∈ names := by
          by_contra absent
          exact moved (kept.2 absent)
        exact ⟨_, numbering.rename injective repeated two free smallest⟩

end Injective

end Renaming

end Ministr.Theory
