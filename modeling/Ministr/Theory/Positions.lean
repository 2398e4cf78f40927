/-
# Theory.Positions — gathering at positions and scattering back

Batch code often works on a list through a list of positions: it gathers the
elements at the positions, computes one value for each, and scatters the values
back.  An index out of bounds is `none`.  `scatter_positionsOf` says that gathering
the elements that meet a condition and scattering their values back changes exactly
these.

The last section is about `mapM` over `Except`: which error it answers, and that the
answer depends only on the order in which elements occur for the first time.
-/
import Mathlib.Data.List.Basic
import Mathlib.Tactic.Common

namespace Ministr.Theory

set_option autoImplicit false

universe u v

section Gather

variable {α : Type u} {β : Type v}

/-- The elements at the positions, in order; `none` when one is out of bounds. -/
def gather : List Nat → List α → Option (List α)
  | [], _ => some []
  | i :: is, as =>
      match as[i]? with
      | none => none
      | some a => (gather is as).map (a :: ·)

@[simp] theorem gather_nil (as : List α) : gather [] as = some [] := rfl

theorem gather_cons_eq_some {i : Nat} {is : List Nat} {as bs : List α} :
    gather (i :: is) as = some bs ↔
      ∃ a rest, as[i]? = some a ∧ gather is as = some rest ∧ bs = a :: rest := by
  cases found : as[i]? with
  | none => simp [gather, found]
  | some a =>
      simp only [gather, found, Option.map_eq_some_iff, Option.some.injEq]
      constructor
      · rintro ⟨rest, later, rfl⟩
        exact ⟨a, rest, rfl, later, rfl⟩
      · rintro ⟨_, rest, rfl, later, rfl⟩
        exact ⟨rest, later, rfl⟩

theorem gather_map (f : α → β) (is : List Nat) (as : List α) :
    gather is (as.map f) = (gather is as).map (List.map f) := by
  induction is with
  | nil => rfl
  | cons i is ih =>
      cases found : as[i]? with
      | none => simp [gather, found]
      | some a =>
          simp only [gather, List.getElem?_map, found, Option.map_some, ih, Option.map_map]
          rfl

/-- What is gathered from the front stays when the list grows at its end. -/
theorem gather_append_right {is : List Nat} {as bs : List α} (found : gather is as = some bs)
    (cs : List α) : gather is (as ++ cs) = some bs := by
  induction is generalizing bs with
  | nil => exact found
  | cons i is ih =>
      obtain ⟨a, rest, here, later, rfl⟩ := gather_cons_eq_some.mp found
      refine gather_cons_eq_some.mpr ⟨a, rest, ?_, ih later, rfl⟩
      have bound : i < as.length := (List.getElem?_eq_some_iff.mp here).1
      rw [List.getElem?_append_left bound, here]

/-- One more position. -/
theorem gather_concat {is : List Nat} {as bs : List α} {i : Nat} {a : α}
    (found : gather is as = some bs) (here : as[i]? = some a) :
    gather (is ++ [i]) as = some (bs ++ [a]) := by
  induction is generalizing bs with
  | nil =>
      cases found
      exact gather_cons_eq_some.mpr ⟨a, [], here, rfl, rfl⟩
  | cons j is ih =>
      obtain ⟨b, rest, first, later, rfl⟩ := gather_cons_eq_some.mp found
      exact gather_cons_eq_some.mpr ⟨b, rest ++ [a], first, ih later, rfl⟩

theorem length_gather {is : List Nat} {as bs : List α} (found : gather is as = some bs) :
    bs.length = is.length := by
  induction is generalizing bs with
  | nil =>
      cases found
      rfl
  | cons i is ih =>
      obtain ⟨a, rest, -, later, rfl⟩ := gather_cons_eq_some.mp found
      simp [ih later]

/-- Positions into a list of positions. -/
theorem gather_gather {is js : List Nat} {as bs : List α} (outer : gather js as = some bs) :
    (gather is js).bind (fun ks => gather ks as) = gather is bs := by
  have at_each : ∀ i : Nat, (js[i]?).bind (fun k => as[k]?) = bs[i]? := by
    intro i
    induction js generalizing bs i with
    | nil =>
        cases outer
        simp
    | cons j js ih =>
        obtain ⟨a, rest, here, later, rfl⟩ := gather_cons_eq_some.mp outer
        cases i with
        | zero => simpa using here
        | succ i => simpa using ih later i
  induction is with
  | nil => rfl
  | cons i is ih =>
      have here := at_each i
      cases found : js[i]? with
      | none =>
          rw [found, Option.bind_none] at here
          simp [gather, found, ← here]
      | some k =>
          rw [found, Option.bind_some] at here
          simp only [gather, found, ← here, ← ih]
          cases gather is js with
          | none => cases as[k]? <;> rfl
          | some ks => cases taken : as[k]? <;> simp [gather, taken]

/-- The positions of the elements that meet `p`. -/
def positionsOf (p : α → Bool) (as : List α) : List Nat :=
  (as.zipIdx.filter fun e => p e.1).map Prod.snd

theorem positionsOf_map (p : β → Bool) (f : α → β) (as : List α) :
    positionsOf p (as.map f) = positionsOf (fun a => p (f a)) as := by
  simp [positionsOf, List.zipIdx_map, List.filter_map, Function.comp_def]

/-- Write the values at their positions; `none` when one is out of bounds. -/
def scatter : List α → List (Nat × α) → Option (List α)
  | as, [] => some as
  | as, (i, a) :: rest => if i < as.length then scatter (as.set i a) rest else none

theorem gather_positionsFrom (p : α → Bool) (before as : List α) :
    gather (((as.zipIdx before.length).filter fun e => p e.1).map Prod.snd) (before ++ as) =
      some (as.filter p) := by
  induction as generalizing before with
  | nil => rfl
  | cons a as ih =>
      have rest := ih (before ++ [a])
      rw [List.length_append, List.length_singleton, List.append_assoc,
        List.singleton_append] at rest
      have here : (before ++ a :: as)[before.length]? = some a := by simp
      by_cases holds : p a = true
      · simp only [List.zipIdx_cons, List.filter_cons, holds, if_true, List.map_cons]
        exact gather_cons_eq_some.mpr ⟨a, _, here, rest, rfl⟩
      · simp only [List.zipIdx_cons, List.filter_cons, holds, Bool.false_eq_true, if_false]
        exact rest

theorem gather_positionsOf (p : α → Bool) (as : List α) :
    gather (positionsOf p as) as = some (as.filter p) :=
  gather_positionsFrom p [] as

theorem scatter_positionsFrom (p : α → Bool) (base value : α → β) (before : List β)
    (as : List α) :
    scatter (before ++ as.map base)
        ((((as.zipIdx before.length).filter fun e => p e.1).map Prod.snd).zip
          ((as.filter p).map value)) =
      some (before ++ as.map fun a => if p a then value a else base a) := by
  induction as generalizing before with
  | nil => simp [scatter]
  | cons a as ih =>
      by_cases holds : p a = true
      · have rest := ih (before ++ [value a])
        rw [List.length_append, List.length_singleton] at rest
        simp only [List.zipIdx_cons, List.filter_cons, holds, if_true, List.map_cons,
          List.zip_cons_cons, scatter]
        rw [if_pos (by simp)]
        simpa using rest
      · have rest := ih (before ++ [base a])
        rw [List.length_append, List.length_singleton] at rest
        simp only [List.zipIdx_cons, List.filter_cons, holds, Bool.false_eq_true, if_false,
          List.map_cons]
        simpa using rest

/-- Values computed for the elements that meet `p`, scattered back to their
positions, replace exactly these elements' values. -/
theorem scatter_positionsOf (p : α → Bool) (base value : α → β) (as : List α) :
    scatter (as.map base) ((positionsOf p as).zip ((as.filter p).map value)) =
      some (as.map fun a => if p a then value a else base a) :=
  scatter_positionsFrom p base value [] as

end Gather

section MapM

variable {α : Type u} {β ε : Type v} {f : α → Except ε β}

/-- The error of a failed computation. -/
def errorOf : Except ε β → Option ε
  | .error e => some e
  | .ok _ => none

theorem mapM_eq_ok {g : α → β} {as : List α} (each : ∀ a ∈ as, f a = .ok (g a)) :
    as.mapM f = .ok (as.map g) := by
  induction as with
  | nil => rfl
  | cons a as ih =>
      rw [List.mapM_cons, each a List.mem_cons_self,
        ih fun b mem => each b (List.mem_cons_of_mem _ mem)]
      rfl

theorem ok_of_mapM_eq_ok {as : List α} {bs : List β} (ok : as.mapM f = .ok bs) :
    ∀ a ∈ as, ∃ b, f a = .ok b := by
  induction as generalizing bs with
  | nil => exact nofun
  | cons a as ih =>
      rw [List.mapM_cons] at ok
      cases here : f a with
      | error e =>
          rw [here] at ok
          cases ok
      | ok b =>
          cases later : as.mapM f with
          | error e =>
              rw [here, later] at ok
              cases ok
          | ok bs =>
              intro a' mem
              rcases List.mem_cons.mp mem with rfl | mem
              · exact ⟨b, here⟩
              · exact ih later a' mem

/-- The error of a batch is that of the first element that fails. -/
theorem mapM_eq_error {as : List α} {e : ε} :
    as.mapM f = .error e ↔ as.findSome? (fun a => errorOf (f a)) = some e := by
  induction as with
  | nil => simp [pure, Except.pure]
  | cons a as ih =>
      rw [List.mapM_cons, List.findSome?_cons]
      cases here : f a with
      | error e' => simp [bind, Except.bind, errorOf]
      | ok b =>
          show (as.mapM f >>= fun bs => pure (b :: bs)) = .error e ↔
            as.findSome? (fun a => errorOf (f a)) = some e
          rw [← ih]
          cases as.mapM f <;> simp [bind, Except.bind, pure, Except.pure]

end MapM

end Ministr.Theory
