/-
# Theory.Breadth — breadth-first search, level by level

A search starts at one node and goes out a level at a time, up to a cap or until a level is empty.
Every node is looked at once; what can be read under it is noted with the level, and its
neighbours are looked at in the next one.  Nodes under which nothing can be read are passed over.

The distance of a node is the length of a shortest walk to it (`Distance`).  A search notes each
node within the cap once, at its distance (`search_spec`), whatever the order in which the
neighbours of a node are listed.
-/
import Mathlib.Data.Finset.Insert
import Mathlib.Data.Nat.Find
import Mathlib.Tactic.Common

namespace Ministr.Theory.Breadth

set_option autoImplicit false

universe u v

variable {α : Type u} {β : Type v}

/-- What has been looked at, what has been noted and at which level, and the next level. -/
structure Search (α : Type u) (β : Type v) where
  visited : Finset α
  found : List (α × β × Nat)
  next : List α

section Algorithm

variable [DecidableEq α] (neighbours : α → List α) (read : α → Option β)

/-- A node is looked at. -/
def Search.look (depth : Nat) (s : Search α β) (a : α) : Search α β :=
  if a ∈ s.visited then s
  else
    match read a with
    | none => { s with visited := insert a s.visited }
    | some x =>
        { visited := insert a s.visited
          found := s.found ++ [(a, x, depth)]
          next := s.next ++ [a] }

/-- The neighbours of a level are looked at. -/
def Search.level (depth : Nat) (frontier : List α) (s : Search α β) : Search α β :=
  (frontier.flatMap neighbours).foldl (Search.look read depth) { s with next := [] }

/-- Levels from `depth` on, `left` of them at most. -/
def Search.levels : Nat → Nat → List α → Search α β → Search α β
  | 0, _, _, s => s
  | left + 1, depth, frontier, s =>
      let s := s.level neighbours read depth frontier
      if s.next = [] then s else Search.levels left (depth + 1) s.next s

/-- The search from `start`, with levels `1` to `cap`. -/
def search (cap : Nat) (start : α) : List (α × β × Nat) :=
  (Search.levels neighbours read cap 1 [start] ⟨{start}, [], []⟩).found

end Algorithm

/-! ## Distances -/

/-- A walk of `n` steps, over nodes under which something can be read. -/
inductive Walk (edge : α → α → Prop) (read : α → Option β) (source : α) : Nat → α → Prop where
  | start : Walk edge read source 0 source
  | step {n : Nat} {a b : α} (walk : Walk edge read source n a) (isEdge : edge a b)
      (isRead : (read b).isSome) : Walk edge read source (n + 1) b

/-- The length of a shortest walk. -/
def Distance (edge : α → α → Prop) (read : α → Option β) (source : α) (n : Nat) (a : α) :
    Prop :=
  Walk edge read source n a ∧ ∀ m, Walk edge read source m a → n ≤ m

section Distance

variable {edge : α → α → Prop} {read : α → Option β} {source a b : α} {m n : Nat}

theorem Distance.unique (first : Distance edge read source m a)
    (second : Distance edge read source n a) : m = n :=
  Nat.le_antisymm (first.2 n second.1) (second.2 m first.1)

/-- Every node but the first is one under which something can be read. -/
theorem Walk.read_of_ne (walk : Walk edge read source n a) (other : a ≠ source) :
    (read a).isSome := by
  cases walk with
  | start => exact absurd rfl other
  | step _ _ isRead => exact isRead

theorem exists_distance (walk : Walk edge read source n a) :
    ∃ m ≤ n, Distance edge read source m a := by
  classical
  have walks : ∃ m, Walk edge read source m a := ⟨n, walk⟩
  exact ⟨Nat.find walks, Nat.find_min' walks walk, Nat.find_spec walks,
    fun m shorter => Nat.find_min' walks shorter⟩

theorem distance_zero_iff : Distance edge read source 0 a ↔ a = source := by
  refine ⟨fun ⟨walk, _⟩ => ?_, ?_⟩
  · cases walk
    rfl
  · rintro rfl
    exact ⟨.start, fun _ _ => Nat.zero_le _⟩

/-- A node at distance `n + 1` is next to one at distance `n`. -/
theorem distance_succ_iff : Distance edge read source (n + 1) b ↔
    ((read b).isSome ∧ ∃ a, Distance edge read source n a ∧ edge a b) ∧
      ∀ m ≤ n, ¬Distance edge read source m b := by
  refine ⟨fun ⟨walk, least⟩ => ?_, fun ⟨⟨isRead, a, near, isEdge⟩, new⟩ => ?_⟩
  · refine ⟨?_, fun m le short => ?_⟩
    · cases walk with
      | @step _ a _ walk isEdge isRead =>
          refine ⟨isRead, a, ⟨walk, fun m shorter => ?_⟩, isEdge⟩
          have le := least (m + 1) (.step shorter isEdge isRead)
          omega
    · have le' := least m short.1
      omega
  · refine ⟨.step near.1 isEdge isRead, fun m walk => ?_⟩
    obtain ⟨m', le, short⟩ := exists_distance walk
    by_contra shorter
    exact new m' (by omega) short

/-- Where a level is empty, so are those behind it. -/
theorem no_distance_behind (empty : ∀ a, ¬Distance edge read source m a) (le : m ≤ n)
    (a : α) : ¬Distance edge read source n a := by
  induction n generalizing a with
  | zero =>
      obtain rfl := Nat.le_zero.mp le
      exact empty a
  | succ n ih =>
      intro here
      rcases Nat.lt_or_ge n m with less | more
      · obtain rfl : m = n + 1 := by omega
        exact empty a here
      · obtain ⟨⟨-, b, near, -⟩, -⟩ := distance_succ_iff.mp here
        exact ih more b near

end Distance

/-! ## One level -/

section Level

variable [DecidableEq α] {neighbours : α → List α} {read : α → Option β} {source : α}
  {s : Search α β}

/-- What looking at the nodes of a list does. -/
structure Looked (read : α → Option β) (depth : Nat) (nodes : List α) (s t : Search α β) :
    Prop where
  visited : ∀ a, a ∈ t.visited ↔ a ∈ s.visited ∨ a ∈ nodes
  next : ∀ a, a ∈ t.next ↔ a ∈ s.next ∨ (a ∈ nodes ∧ a ∉ s.visited ∧ (read a).isSome)
  found : ∀ a x d, (a, x, d) ∈ t.found ↔ (a, x, d) ∈ s.found ∨
    (a ∈ nodes ∧ a ∉ s.visited ∧ read a = some x ∧ d = depth)

theorem look_looked (depth : Nat) (s : Search α β) (a : α) :
    Looked read depth [a] s (s.look read depth a) := by
  rw [Search.look]
  by_cases known : a ∈ s.visited
  · rw [if_pos known]
    refine ⟨fun b => ?_, fun b => ?_, fun b x d => ?_⟩
    · refine ⟨.inl, fun either => either.elim id fun here => ?_⟩
      rwa [List.mem_singleton.mp here]
    · refine ⟨.inl, fun either => either.elim id fun ⟨here, new, _⟩ => absurd known ?_⟩
      rwa [← List.mem_singleton.mp here]
    · refine ⟨.inl, fun either => either.elim id fun ⟨here, new, _⟩ => absurd known ?_⟩
      rwa [← List.mem_singleton.mp here]
  · rw [if_neg known]
    cases isRead : read a with
    | none =>
        refine ⟨fun b => ?_, fun b => ?_, fun b x d => ?_⟩
        · rw [Finset.mem_insert, List.mem_singleton, or_comm]
        · refine ⟨.inl, fun either => either.elim id fun ⟨here, _, isSome⟩ => ?_⟩
          rw [List.mem_singleton.mp here, isRead] at isSome
          cases isSome
        · refine ⟨.inl, fun either => either.elim id fun ⟨here, _, isSome, _⟩ => ?_⟩
          rw [List.mem_singleton.mp here, isRead] at isSome
          cases isSome
    | some y =>
        refine ⟨fun b => ?_, fun b => ?_, fun b x d => ?_⟩
        · rw [Finset.mem_insert, List.mem_singleton, or_comm]
        · rw [List.mem_append, List.mem_singleton]
          refine or_congr_right ⟨?_, And.left⟩
          rintro rfl
          exact ⟨rfl, known, by rw [isRead]; rfl⟩
        · rw [List.mem_append, List.mem_singleton, List.mem_singleton, Prod.mk.injEq, Prod.mk.injEq]
          refine or_congr_right ⟨?_, ?_⟩
          · rintro ⟨rfl, rfl, rfl⟩
            exact ⟨rfl, known, isRead, rfl⟩
          · rintro ⟨rfl, -, isRead', rfl⟩
            rw [isRead] at isRead'
            exact ⟨rfl, Option.some.inj isRead'.symm, rfl⟩

theorem Looked.trans {depth : Nat} {first rest : List α} {s t r : Search α β}
    (one : Looked read depth first s t) (two : Looked read depth rest t r) :
    Looked read depth (first ++ rest) s r where
  visited a := by rw [two.visited, one.visited, List.mem_append, or_assoc]
  next a := by
    rw [two.next, one.next, one.visited, List.mem_append]
    tauto
  found a x d := by
    rw [two.found, one.found, one.visited, List.mem_append]
    tauto

theorem looked_foldl (read : α → Option β) (depth : Nat) (nodes : List α) (s : Search α β) :
    Looked read depth nodes s (nodes.foldl (Search.look read depth) s) := by
  induction nodes generalizing s with
  | nil => exact ⟨fun _ => by simp, fun _ => by simp, fun _ _ _ => by simp⟩
  | cons a nodes ih => exact (look_looked depth s a).trans (ih _)

/-- Nothing is noted twice. -/
structure Once (s : Search α β) : Prop where
  nodup : (s.found.map Prod.fst).Nodup
  visited : ∀ e ∈ s.found, e.1 ∈ s.visited

theorem Once.foldl {depth : Nat} (once : Once s) (nodes : List α) :
    Once (nodes.foldl (Search.look read depth) s) := by
  induction nodes generalizing s with
  | nil => exact once
  | cons a nodes ih =>
      refine ih (s := s.look read depth a) ?_
      rw [Search.look]
      by_cases known : a ∈ s.visited
      · rw [if_pos known]
        exact once
      · rw [if_neg known]
        cases read a with
        | none => exact ⟨once.nodup, fun e mem => Finset.mem_insert_of_mem (once.visited e mem)⟩
        | some x =>
            refine ⟨?_, fun e mem => ?_⟩
            · rw [List.map_append, List.map_singleton, List.nodup_append]
              refine ⟨once.nodup, List.nodup_singleton a, fun b mem c here same => ?_⟩
              obtain ⟨e, isFound, rfl⟩ := List.mem_map.mp mem
              have isNew : e.1 = a := same.trans (List.mem_singleton.mp here)
              exact known (isNew ▸ once.visited e isFound)
            · rcases List.mem_append.mp mem with earlier | here
              · exact Finset.mem_insert_of_mem (once.visited e earlier)
              · rw [List.mem_singleton.mp here]
                exact Finset.mem_insert_self a _

end Level

/-! ## The search -/

section Search

variable {edge : α → α → Prop} {neighbours : α → List α} {read : α → Option β} {source : α}
  {s : Search α β} {frontier : List α} {depth : Nat}

/-- The search before level `depth + 1`. -/
structure Reached (edge : α → α → Prop) (read : α → Option β) (source : α) (depth : Nat)
    (frontier : List α) (s : Search α β) : Prop where
  once : Once s
  frontier : ∀ a, a ∈ frontier ↔ Distance edge read source depth a
  visited : ∀ a, (a = source ∨ (read a).isSome) →
    (a ∈ s.visited ↔ ∃ n ≤ depth, Distance edge read source n a)
  known : source ∈ s.visited
  found : ∀ a x d, (a, x, d) ∈ s.found ↔
    read a = some x ∧ a ≠ source ∧ d ≤ depth ∧ Distance edge read source d a

theorem Reached.ofSource (edge : α → α → Prop) (read : α → Option β) (source : α) :
    Reached edge read source 0 [source] ⟨{source}, [], []⟩ where
  once := ⟨List.nodup_nil, fun _ mem => absurd mem List.not_mem_nil⟩
  frontier a := by rw [List.mem_singleton, distance_zero_iff]
  visited a _ := by
    rw [Finset.mem_singleton]
    refine ⟨fun same => ⟨0, Nat.le_refl 0, distance_zero_iff.mpr same⟩, ?_⟩
    rintro ⟨n, le, near⟩
    obtain rfl := Nat.le_zero.mp le
    exact distance_zero_iff.mp near
  known := Finset.mem_singleton_self source
  found a x d := by
    refine ⟨fun mem => absurd mem List.not_mem_nil, ?_⟩
    rintro ⟨-, other, le, near⟩
    obtain rfl := Nat.le_zero.mp le
    exact absurd (distance_zero_iff.mp near) other

/-- What a level newly looks at are the nodes one step further. -/
theorem Reached.new_iff (lists : ∀ a b, b ∈ neighbours a ↔ edge a b)
    (reached : Reached edge read source depth frontier s) (b : α) :
    (b ∈ frontier.flatMap neighbours ∧ b ∉ s.visited ∧ (read b).isSome) ↔
      Distance edge read source (depth + 1) b := by
  simp only [distance_succ_iff, List.mem_flatMap, lists]
  constructor
  · rintro ⟨⟨a, mem, isEdge⟩, new, isRead⟩
    refine ⟨⟨isRead, a, (reached.frontier a).mp mem, isEdge⟩, fun m le near => new ?_⟩
    exact (reached.visited b (.inr isRead)).mpr ⟨m, le, near⟩
  · rintro ⟨⟨isRead, a, near, isEdge⟩, new⟩
    refine ⟨⟨a, (reached.frontier a).mpr near, isEdge⟩, fun known => ?_, isRead⟩
    obtain ⟨m, le, short⟩ := (reached.visited b (.inr isRead)).mp known
    exact new m le short

variable [DecidableEq α]

/-- **One level.** -/
theorem Reached.level (lists : ∀ a b, b ∈ neighbours a ↔ edge a b)
    (reached : Reached edge read source depth frontier s) :
    Reached edge read source (depth + 1)
      (s.level neighbours read (depth + 1) frontier).next
      (s.level neighbours read (depth + 1) frontier) := by
  have looked := looked_foldl read (depth + 1) (frontier.flatMap neighbours)
    { s with next := [] }
  have once : Once ({ s with next := [] } : Search α β) :=
    ⟨reached.once.nodup, reached.once.visited⟩
  refine ⟨once.foldl (frontier.flatMap neighbours), fun b => ?_,
    fun b either => ?_, (looked.visited source).mpr (.inl reached.known), fun b x d => ?_⟩
  · rw [← reached.new_iff lists]
    exact (looked.next b).trans (or_iff_right List.not_mem_nil)
  · refine (looked.visited b).trans ⟨?_, ?_⟩
    · rintro (earlier | mem)
      · obtain ⟨n, le, near⟩ := (reached.visited b either).mp earlier
        exact ⟨n, le.trans (Nat.le_succ _), near⟩
      · by_cases known : b ∈ s.visited
        · obtain ⟨n, le, near⟩ := (reached.visited b either).mp known
          exact ⟨n, le.trans (Nat.le_succ _), near⟩
        · rcases either with rfl | isRead
          · exact absurd reached.known known
          · exact ⟨depth + 1, Nat.le_refl _, (reached.new_iff lists b).mp ⟨mem, known, isRead⟩⟩
    · rintro ⟨n, le, near⟩
      rcases Nat.lt_or_ge depth n with more | less
      · obtain rfl : n = depth + 1 := by omega
        exact .inr ((reached.new_iff lists b).mpr near).1
      · exact .inl ((reached.visited b either).mpr ⟨n, less, near⟩)
  · refine (looked.found b x d).trans ?_
    constructor
    · rintro (earlier | ⟨mem, new, isRead, rfl⟩)
      · obtain ⟨isRead, other, le, near⟩ := (reached.found b x d).mp earlier
        exact ⟨isRead, other, le.trans (Nat.le_succ _), near⟩
      · refine ⟨isRead, ?_, Nat.le_refl _, ?_⟩
        · rintro rfl
          exact new reached.known
        · exact (reached.new_iff lists b).mp ⟨mem, new, by rw [isRead]; rfl⟩
    · rintro ⟨isRead, other, le, near⟩
      rcases Nat.lt_or_ge depth d with more | less
      · obtain rfl : d = depth + 1 := by omega
        obtain ⟨mem, new, -⟩ := (reached.new_iff lists b).mpr near
        exact .inr ⟨mem, new, isRead, rfl⟩
      · exact .inl ((reached.found b x d).mpr ⟨isRead, other, less, near⟩)

theorem Reached.levels (lists : ∀ a b, b ∈ neighbours a ↔ edge a b) (left : Nat)
    (reached : Reached edge read source depth frontier s) :
    Once (s.levels neighbours read left (depth + 1) frontier) ∧
      ∀ a x d, (a, x, d) ∈ (s.levels neighbours read left (depth + 1) frontier).found ↔
        read a = some x ∧ a ≠ source ∧ d ≤ depth + left ∧ Distance edge read source d a := by
  induction left generalizing depth frontier s with
  | zero => exact ⟨reached.once, reached.found⟩
  | succ left ih =>
      rw [Search.levels]
      by_cases last : (s.level neighbours read (depth + 1) frontier).next = []
      · rw [if_pos last]
        refine ⟨(reached.level lists).once, fun a x d => ?_⟩
        rw [(reached.level lists).found]
        have empty : ∀ b, ¬Distance edge read source (depth + 1) b := fun b near => by
          have mem := ((reached.level lists).frontier b).mpr near
          rw [last] at mem
          exact absurd mem List.not_mem_nil
        constructor
        · rintro ⟨isRead, other, le, near⟩
          exact ⟨isRead, other, by omega, near⟩
        · rintro ⟨isRead, other, le, near⟩
          refine ⟨isRead, other, ?_, near⟩
          by_contra more
          exact no_distance_behind empty (by omega) a near
      · rw [if_neg last]
        have rest := ih (reached.level lists)
        rwa [Nat.add_right_comm depth 1 left] at rest

/-- **A search notes the nodes within the cap, each once and at its distance.** -/
theorem search_spec (read : α → Option β) (lists : ∀ a b, b ∈ neighbours a ↔ edge a b)
    (cap : Nat) (source : α) :
    ((search neighbours read cap source).map Prod.fst).Nodup ∧
      ∀ a x d, (a, x, d) ∈ search neighbours read cap source ↔
        read a = some x ∧ a ≠ source ∧ d ≤ cap ∧ Distance edge read source d a := by
  obtain ⟨once, found⟩ := (Reached.ofSource edge read source).levels lists cap
  refine ⟨once.nodup, fun a x d => ?_⟩
  have whole := found a x d
  rwa [Nat.zero_add cap] at whole

end Search

end Ministr.Theory.Breadth
