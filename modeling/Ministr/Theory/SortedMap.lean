/-
# Theory.SortedMap — maps that list their keys in order

A map is its list of entries, with the keys strictly increasing; that the list is in order is a
field, so there is no other map.  `entry` changes what stands at a key, or puts something there
(`mem_keys_entry`), and `entries` does so for a list of keys, one after the other (`mem_keys_entries`).
-/
import Mathlib.Order.Defs.Unbundled
import Mathlib.Tactic.Common

namespace Ministr.Theory

set_option autoImplicit false

/-- A map in order. -/
structure SortedMap (α V : Type) [LT α] where
  toList : List (α × V)
  inOrder : (toList.map Prod.fst).Pairwise (· < ·)

namespace SortedMap

variable {α β V : Type} [LT α]

def empty : SortedMap α V := ⟨[], List.Pairwise.nil⟩

def keys (map : SortedMap α V) : List α := map.toList.map Prod.fst

@[simp] theorem keys_empty : (empty : SortedMap α V).keys = [] := rfl

variable [DecidableLT α] [DecidableEq α]

/-- Change what stands at a key, in a list of entries. -/
def entryList (k : α) (change : Option V → V) : List (α × V) → List (α × V)
  | [] => [(k, change none)]
  | (k', v) :: rest =>
      if k < k' then (k, change none) :: (k', v) :: rest
      else if k = k' then (k', change (some v)) :: rest
      else (k', v) :: entryList k change rest

theorem keys_entryList (k : α) (change : Option V → V) (list : List (α × V)) (h : α) :
    h ∈ (entryList k change list).map Prod.fst ↔ h = k ∨ h ∈ list.map Prod.fst := by
  induction list with
  | nil => simp [entryList]
  | cons e rest ih =>
      obtain ⟨k', v⟩ := e
      unfold entryList
      split
      · simp
      · split
        · rename_i same
          subst same
          simp
        · rw [List.map_cons, List.mem_cons, ih, List.map_cons, List.mem_cons]
          tauto

variable [IsStrictTotalOrder α (· < ·)]

theorem inOrder_entryList (k : α) (change : Option V → V) {list : List (α × V)}
    (inOrder : (list.map Prod.fst).Pairwise (· < ·)) :
    ((entryList k change list).map Prod.fst).Pairwise (· < ·) := by
  induction list with
  | nil => exact List.pairwise_singleton _ _
  | cons e rest ih =>
      obtain ⟨k', v⟩ := e
      obtain ⟨first, later⟩ := List.pairwise_cons.mp inOrder
      unfold entryList
      split
      · rename_i less
        refine List.pairwise_cons.mpr ⟨fun h mem => ?_, inOrder⟩
        rcases List.mem_cons.mp mem with rfl | mem
        · exact less
        · exact IsTrans.trans _ _ _ less (first h mem)
      · rename_i notLess
        split
        · exact inOrder
        · rename_i other
          refine List.pairwise_cons.mpr ⟨fun h mem => ?_, ih later⟩
          rcases (keys_entryList k change rest h).mp mem with rfl | mem
          · by_contra notMore
            exact other (Std.Trichotomous.trichotomous _ _ notLess notMore)
          · exact first h mem

/-- `entry(k)`, with what is put there by what was there. -/
def entry (map : SortedMap α V) (k : α) (change : Option V → V) : SortedMap α V :=
  ⟨entryList k change map.toList, inOrder_entryList k change map.inOrder⟩

@[simp] theorem mem_keys_entry (map : SortedMap α V) (k : α) (change : Option V → V) (h : α) :
    h ∈ (map.entry k change).keys ↔ h = k ∨ h ∈ map.keys :=
  keys_entryList k change map.toList h

/-- One entry after the other. -/
def entries (map : SortedMap α V) (items : List β) (key : β → α) (change : β → Option V → V) :
    SortedMap α V :=
  items.foldl (fun map item => map.entry (key item) (change item)) map

theorem mem_keys_entries (map : SortedMap α V) (items : List β) (key : β → α)
    (change : β → Option V → V) (h : α) :
    h ∈ (map.entries items key change).keys ↔ h ∈ map.keys ∨ h ∈ items.map key := by
  induction items generalizing map with
  | nil => simp [entries]
  | cons item items ih =>
      have later := ih (map.entry (key item) (change item))
      rw [mem_keys_entry] at later
      rw [List.map_cons, List.mem_cons]
      exact later.trans (by tauto)

end SortedMap

end Ministr.Theory
