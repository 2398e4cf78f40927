/-
# Theory.Agents — a pool of concurrent agents

Concurrent calls are a pool of local states.  A step takes one agent out of the pool
and puts back what it becomes: nothing when it returns, itself in its next local state,
several when it spawns others.  Agents in the same local state are interchangeable, so
the pool is a list read up to order.  What a step does to the pool is then said by two
facts: who is in it afterwards (`mem_replace`) and how a count changes
(`countP_replace`).  Agents that carry a name of their own keep their names apart.
-/
import Mathlib.Data.List.Perm.Basic
import Mathlib.Tactic.Common

namespace Ministr.Theory

set_option autoImplicit false

universe u v

namespace Pool

variable {α : Type u} [DecidableEq α]

/-- The pool after agent `a` has become the agents `next`. -/
def replace (pool : List α) (a : α) (next : List α) : List α := next ++ pool.erase a

theorem mem_replace {pool next : List α} {a b : α} (mem : b ∈ replace pool a next) :
    b ∈ next ∨ b ∈ pool :=
  (List.mem_append.mp mem).imp_right List.mem_of_mem_erase

theorem next_mem_replace {pool next : List α} {a b : α} (mem : b ∈ next) :
    b ∈ replace pool a next :=
  List.mem_append_left _ mem

theorem other_mem_replace {pool next : List α} {a b : α} (mem : b ∈ pool) (other : b ≠ a) :
    b ∈ replace pool a next :=
  List.mem_append_right _ ((List.mem_erase_of_ne other).mpr mem)

/-- What holds of every agent, when it holds of the new ones. -/
theorem forall_replace {P : α → Prop} {pool next : List α} {a : α} (all : ∀ x ∈ pool, P x)
    (new : ∀ b ∈ next, P b) : ∀ x ∈ replace pool a next, P x := by
  intro x mem
  rcases mem_replace mem with is_new | old
  · exact new x is_new
  · exact all x old

/-- What holds of some agent, when the one that moves passes it on. -/
theorem exists_replace {P : α → Prop} {pool next : List α} {a : α} (some : ∃ x ∈ pool, P x)
    (passes : P a → ∃ b ∈ next, P b) : ∃ x ∈ replace pool a next, P x := by
  obtain ⟨x, mem, holds⟩ := some
  by_cases same : x = a
  · obtain ⟨b, new, holds⟩ := passes (same ▸ holds)
    exact ⟨b, next_mem_replace new, holds⟩
  · exact ⟨x, other_mem_replace mem same, holds⟩

theorem countP_replace {pool : List α} {a : α} (mem : a ∈ pool) (next : List α) (p : α → Bool) :
    (replace pool a next).countP p + (if p a then 1 else 0) =
      next.countP p + pool.countP p := by
  have split := (List.perm_cons_erase mem).countP_eq p
  rw [List.countP_cons] at split
  rw [replace, List.countP_append]
  omega

/-! ### Agents with a name of their own -/

section Names

variable {β : Type v} {f : α → β} {pool : List α} {a b : α}

theorem nodup_map_cons_erase (named : (pool.map f).Nodup) (mem : a ∈ pool) :
    (f a :: (pool.erase a).map f).Nodup :=
  ((List.perm_cons_erase mem).map f).nodup_iff.mp named

/-- The agents that stay have other names than the one that moves. -/
theorem name_ne_of_mem_erase (named : (pool.map f).Nodup) (mem : a ∈ pool)
    (stays : b ∈ pool.erase a) : f b ≠ f a := by
  intro same
  refine (List.nodup_cons.mp (nodup_map_cons_erase named mem)).1 ?_
  exact same ▸ List.mem_map_of_mem stays

/-- An agent that keeps its name. -/
theorem nodup_map_replace_same (named : (pool.map f).Nodup) (mem : a ∈ pool)
    (same : f b = f a) : ((replace pool a [b]).map f).Nodup := by
  show (f b :: (pool.erase a).map f).Nodup
  rw [same]
  exact nodup_map_cons_erase named mem

/-- An agent that is gone. -/
theorem nodup_map_replace_nil (named : (pool.map f).Nodup) (mem : a ∈ pool) :
    ((replace pool a []).map f).Nodup :=
  (List.nodup_cons.mp (nodup_map_cons_erase named mem)).2

end Names

end Pool

end Ministr.Theory
