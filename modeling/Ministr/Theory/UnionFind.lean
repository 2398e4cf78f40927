/-
# Theory.UnionFind — classes kept by parent pointers

Each element points to a parent, and a root to itself.  `find` climbs to the root and points the
elements on its way there; `union` points one root to another.  Neither loop of `find` stops by
itself, so both are given as many turns as there are elements, which is enough (`Forest.depth_lt`).

Two elements are in one class when they climb to one root.  `find` changes no class
(`find_spec`), and after a list of unions the classes are those that the pairs generate
(`unions_represents`).
-/
import Ministr.Theory.Buckets
import Mathlib.Data.Finset.Card
import Mathlib.Data.Finset.Dedup
import Mathlib.Logic.Relation
import Mathlib.Tactic.Common

namespace Ministr.Theory.UnionFind

set_option autoImplicit false

universe u

variable {α : Type u} [DecidableEq α]

section Algorithm

/-- An element points to another parent. -/
def point (parent : α → α) (c r : α) : α → α := fun x => if x = c then r else parent x

/-- `while parent[root] != root { root = parent[root] }` -/
def climb (parent : α → α) : Nat → α → α
  | 0, root => root
  | turns + 1, root => if parent root = root then root else climb parent turns (parent root)

/-- `while parent[cur] != root { … }` -/
def compress (root : α) : Nat → α → (α → α) → α → α
  | 0, _, parent => parent
  | turns + 1, cur, parent =>
      if parent cur = root then parent
      else compress root turns (parent cur) (point parent cur root)

/-- `find`: the root, and the parents afterwards. -/
def find (size : Nat) (parent : α → α) (x : α) : α × (α → α) :=
  let root := climb parent size x
  (root, compress root size x parent)

/-- `union`. -/
def union (size : Nat) (parent : α → α) (a b : α) : α → α :=
  let ra := find size parent a
  let rb := find size ra.2 b
  if ra.1 = rb.1 then rb.2 else point rb.2 ra.1 rb.1

end Algorithm

/-! ## Climbing to a root -/

omit [DecidableEq α] in
/-- An element is so many steps below its root. -/
inductive Up (parent : α → α) : Nat → α → α → Prop where
  | root {r : α} (isRoot : parent r = r) : Up parent 0 r r
  | step {n : Nat} {x r : α} (below : parent x ≠ x) (up : Up parent n (parent x) r) :
      Up parent (n + 1) x r

section Up

variable {parent : α → α} {m n : Nat} {x y r s c : α}

omit [DecidableEq α]

theorem Up.unique (first : Up parent m x r) (second : Up parent n x s) : m = n ∧ r = s := by
  induction first generalizing n with
  | root isRoot =>
      cases second with
      | root => exact ⟨rfl, rfl⟩
      | step below => exact absurd isRoot below
  | step below _ ih =>
      cases second with
      | root isRoot => exact absurd isRoot below
      | step _ up =>
          obtain ⟨rfl, rfl⟩ := ih up
          exact ⟨rfl, rfl⟩

theorem Up.isRoot (up : Up parent n x r) : parent r = r := by
  induction up with
  | root isRoot => exact isRoot
  | step _ _ ih => exact ih

theorem Up.ofRoot (up : Up parent n x r) : Up parent 0 r r := .root up.isRoot

theorem Up.zero (up : Up parent 0 x r) : x = r := by
  cases up
  rfl

/-- Above an element there is one at each smaller depth. -/
theorem Up.above (up : Up parent n x r) {i : Nat} (le : i ≤ n) :
    Up parent (n - i) (parent^[i] x) r := by
  induction i generalizing n x with
  | zero => exact up
  | succ i ih =>
      cases up with
      | root => omega
      | @step n x r below up =>
          rw [Function.iterate_succ_apply]
          have rest := ih up (by omega)
          rwa [show n + 1 - (i + 1) = n - i by omega]

end Up

/-- Every element of a finite set climbs to a root, inside the set. -/
structure Forest (nodes : Finset α) (parent : α → α) : Prop where
  closed : ∀ x ∈ nodes, parent x ∈ nodes
  rooted : ∀ x ∈ nodes, ∃ n r, Up parent n x r

/-- Two elements climb to one root. -/
def Same (parent : α → α) (x y : α) : Prop := ∃ m n r, Up parent m x r ∧ Up parent n y r

section Find

variable {nodes : Finset α} {parent parent' : α → α} {m n turns : Nat} {x y r s c : α}

omit [DecidableEq α] in
theorem Forest.iterate_mem (forest : Forest nodes parent) (mem : x ∈ nodes) (i : Nat) :
    parent^[i] x ∈ nodes := by
  induction i generalizing x with
  | zero => exact mem
  | succ i ih =>
      rw [Function.iterate_succ_apply]
      exact ih (forest.closed x mem)

omit [DecidableEq α] in
theorem Forest.root_mem (forest : Forest nodes parent) (mem : x ∈ nodes) (up : Up parent n x r) :
    r ∈ nodes := by
  have last := up.above (Nat.le_refl n)
  rw [Nat.sub_self] at last
  rw [← last.zero]
  exact forest.iterate_mem mem n

omit [DecidableEq α] in
/-- An element is less deep than there are elements, since those above it are at other depths. -/
theorem Forest.depth_lt (forest : Forest nodes parent) (mem : x ∈ nodes) (up : Up parent n x r) :
    n < nodes.card := by
  have fewer : (Finset.range (n + 1)).card ≤ nodes.card := by
    refine Finset.card_le_card_of_injOn (fun i => parent^[i] x)
      (fun i _ => forest.iterate_mem mem i) fun i isIn j isIn' same => ?_
    have le : i ≤ n := Nat.lt_succ_iff.mp (Finset.mem_range.mp isIn)
    have le' : j ≤ n := Nat.lt_succ_iff.mp (Finset.mem_range.mp isIn')
    have high := up.above le
    have high' := up.above le'
    dsimp only at same
    rw [same] at high
    have depth := (high.unique high').1
    omega
  rwa [Finset.card_range] at fewer

theorem climb_eq (up : Up parent n x r) (enough : n ≤ turns) : climb parent turns x = r := by
  induction up generalizing turns with
  | root isRoot =>
      cases turns with
      | zero => rfl
      | succ turns => rw [climb, if_pos isRoot]
  | step below _ ih =>
      cases turns with
      | zero => omega
      | succ turns =>
          rw [climb, if_neg below]
          exact ih (by omega)

/-- An element that points to its root stays in its class, with those below it. -/
theorem Up.point (up : Up parent n y s) (below : Up parent (m + 1) c r) :
    ∃ k, Up (point parent c r) k y s ∧ (n ≤ m → k = n) := by
  have other : c ≠ r := by
    rintro rfl
    have depth := (below.unique below.ofRoot).1
    omega
  have isRoot : UnionFind.point parent c r r = r := by
    rw [UnionFind.point, if_neg (Ne.symm other)]
    exact below.isRoot
  induction up with
  | @root s root =>
      refine ⟨0, .root ?_, fun _ => rfl⟩
      have notHere : s ≠ c := by
        rintro rfl
        have depth := (below.unique (.root root)).1
        omega
      rw [UnionFind.point, if_neg notHere]
      exact root
  | @step n y s isBelow up ih =>
      by_cases here : y = c
      · subst here
        obtain ⟨depth, rfl⟩ := (Up.step isBelow up).unique below
        refine ⟨1, .step ?_ ?_, fun less => ?_⟩
        · rw [UnionFind.point, if_pos rfl]
          exact Ne.symm other
        · rw [UnionFind.point, if_pos rfl]
          exact .root isRoot
        · omega
      · obtain ⟨k, up', same⟩ := ih
        have step : UnionFind.point parent c r y = parent y := if_neg here
        refine ⟨k + 1, .step (by rwa [step]) (by rwa [step]), fun less => ?_⟩
        rw [same (by omega)]

/-- The parents afterwards keep all the roots. -/
structure Keeps (nodes : Finset α) (parent parent' : α → α) : Prop where
  forest : Forest nodes parent'
  roots : ∀ n y s, Up parent n y s → ∃ k, Up parent' k y s

omit [DecidableEq α] in
theorem Keeps.refl (forest : Forest nodes parent) : Keeps nodes parent parent :=
  ⟨forest, fun n _ _ up => ⟨n, up⟩⟩

omit [DecidableEq α] in
theorem Keeps.trans {parent'' : α → α} (first : Keeps nodes parent parent')
    (second : Keeps nodes parent' parent'') : Keeps nodes parent parent'' where
  forest := second.forest
  roots n y s up := by
    obtain ⟨k, up'⟩ := first.roots n y s up
    exact second.roots k y s up'

theorem Keeps.point (forest : Forest nodes parent) (mem : c ∈ nodes)
    (below : Up parent (m + 1) c r) : Keeps nodes parent (point parent c r) where
  forest :=
    { closed := fun x isIn => by
        rw [UnionFind.point]
        split
        · exact forest.root_mem mem below
        · exact forest.closed x isIn
      rooted := fun x isIn => by
        obtain ⟨n, s, up⟩ := forest.rooted x isIn
        obtain ⟨k, up', -⟩ := up.point below
        exact ⟨k, s, up'⟩ }
  roots n y s up := by
    obtain ⟨k, up', -⟩ := up.point below
    exact ⟨k, up'⟩

theorem compress_keeps (forest : Forest nodes parent) (mem : x ∈ nodes) (up : Up parent n x r)
    (turns : Nat) : Keeps nodes parent (compress r turns x parent) := by
  induction turns generalizing parent x n with
  | zero => exact .refl forest
  | succ turns ih =>
      rw [compress]
      by_cases done : parent x = r
      · rw [if_pos done]
        exact .refl forest
      · rw [if_neg done]
        cases up with
        | root isRoot => exact absurd isRoot done
        | @step n x r below up =>
            have whole : Up parent (n + 1) x r := .step below up
            have keeps := Keeps.point forest mem whole
            obtain ⟨k, up', -⟩ := up.point whole
            exact keeps.trans (ih keeps.forest (forest.closed x mem) up')

/-- **`find` gives the root and keeps every class.** -/
theorem find_spec (forest : Forest nodes parent) (mem : x ∈ nodes) :
    (∃ n, Up parent n x (find nodes.card parent x).1) ∧
      Keeps nodes parent (find nodes.card parent x).2 := by
  obtain ⟨n, r, up⟩ := forest.rooted x mem
  have isRoot : climb parent nodes.card x = r := climb_eq up (forest.depth_lt mem up).le
  rw [find, isRoot]
  exact ⟨⟨n, up⟩, compress_keeps forest mem up nodes.card⟩

end Find

/-! ## Classes -/

section Classes

variable {nodes : Finset α} {parent parent' : α → α} {m n : Nat} {x y z s a b : α}

omit [DecidableEq α] in
theorem same_iff_of_up {r : α} (up : Up parent m x r) (down : Up parent n y s) :
    Same parent x y ↔ r = s := by
  constructor
  · rintro ⟨i, j, t, climbs, climbs'⟩
    rw [(up.unique climbs).2, (down.unique climbs').2]
  · rintro rfl
    exact ⟨m, n, r, up, down⟩

omit [DecidableEq α] in
theorem Same.symm (same : Same parent x y) : Same parent y x := by
  obtain ⟨m, n, r, up, up'⟩ := same
  exact ⟨n, m, r, up', up⟩

omit [DecidableEq α] in
theorem Same.trans (first : Same parent x y) (second : Same parent y z) : Same parent x z := by
  obtain ⟨m, n, r, up, up'⟩ := first
  obtain ⟨k, l, s, down, down'⟩ := second
  obtain ⟨-, rfl⟩ := up'.unique down
  exact ⟨m, l, r, up, down'⟩

omit [DecidableEq α] in
theorem Forest.same_self (forest : Forest nodes parent) (mem : x ∈ nodes) : Same parent x x := by
  obtain ⟨n, r, up⟩ := forest.rooted x mem
  exact ⟨n, n, r, up, up⟩

omit [DecidableEq α] in
theorem Keeps.same_iff (keeps : Keeps nodes parent parent') (forest : Forest nodes parent)
    (mem : x ∈ nodes) (mem' : y ∈ nodes) : Same parent' x y ↔ Same parent x y := by
  obtain ⟨m, r, up⟩ := forest.rooted x mem
  obtain ⟨n, s, down⟩ := forest.rooted y mem'
  obtain ⟨k, up'⟩ := keeps.roots m x r up
  obtain ⟨l, down'⟩ := keeps.roots n y s down
  rw [same_iff_of_up up' down', same_iff_of_up up down]

/-- Where one root is pointed to another, what climbed to it climbs on. -/
theorem Up.link (up : Up parent n y s) (root : parent a = a) (root' : parent b = b)
    (other : a ≠ b) : ∃ k, Up (UnionFind.point parent a b) k y (if s = a then b else s) := by
  have isRoot : UnionFind.point parent a b b = b := by
    rw [UnionFind.point, if_neg (Ne.symm other)]
    exact root'
  induction up with
  | @root s isRoot' =>
      by_cases here : s = a
      · subst here
        rw [if_pos rfl]
        refine ⟨1, .step ?_ ?_⟩
        · rw [UnionFind.point, if_pos rfl]
          exact Ne.symm other
        · rw [UnionFind.point, if_pos rfl]
          exact .root isRoot
      · rw [if_neg here]
        refine ⟨0, .root ?_⟩
        rw [UnionFind.point, if_neg here]
        exact isRoot'
  | @step n y s below up ih =>
      obtain ⟨k, up'⟩ := ih
      have notHere : y ≠ a := by
        rintro rfl
        exact below root
      have step : UnionFind.point parent a b y = parent y := if_neg notHere
      exact ⟨k + 1, .step (by rwa [step]) (by rwa [step])⟩

/-- What a union does: the two classes become one. -/
structure Joins (nodes : Finset α) (parent parent' : α → α) (a b : α) : Prop where
  forest : Forest nodes parent'
  same_iff : ∀ x ∈ nodes, ∀ y ∈ nodes, Same parent' x y ↔
    Same parent x y ∨ (Same parent x a ∧ Same parent b y) ∨ (Same parent x b ∧ Same parent a y)

/-- **`union` joins two classes.** -/
theorem union_joins (forest : Forest nodes parent) (memA : a ∈ nodes) (memB : b ∈ nodes) :
    Joins nodes parent (union nodes.card parent a b) a b := by
  obtain ⟨⟨m, upA⟩, first⟩ := find_spec forest memA
  obtain ⟨⟨n, upB⟩, second⟩ := find_spec first.forest memB
  rw [union]
  generalize find nodes.card parent a = ra at upA first upB second
  generalize find nodes.card ra.2 b = rb at upB second
  have keeps := first.trans second
  obtain ⟨k, upA'⟩ := keeps.roots m a ra.1 upA
  obtain ⟨l, upB'⟩ := second.roots n b rb.1 upB
  by_cases done : ra.1 = rb.1
  · rw [if_pos done]
    refine ⟨keeps.forest, fun x mem y mem' => ?_⟩
    have already : Same parent a b :=
      (keeps.same_iff forest memA memB).mp ((same_iff_of_up upA' upB').mpr done)
    rw [keeps.same_iff forest mem mem']
    refine ⟨.inl, ?_⟩
    rintro (same | ⟨one, two⟩ | ⟨one, two⟩)
    · exact same
    · exact one.trans (already.trans two)
    · exact one.trans (already.symm.trans two)
  · rw [if_neg done]
    have memRootB : rb.1 ∈ nodes := keeps.forest.root_mem memB upB'
    have linked : ∀ i x t, Up rb.2 i x t → ∃ j, Up (point rb.2 ra.1 rb.1) j x
        (if t = ra.1 then rb.1 else t) := fun i x t up => up.link upA'.isRoot upB'.isRoot done
    refine ⟨⟨fun x mem => ?_, fun x mem => ?_⟩, fun x mem y mem' => ?_⟩
    · rw [point]
      split
      · exact memRootB
      · exact keeps.forest.closed x mem
    · obtain ⟨i, t, up⟩ := keeps.forest.rooted x mem
      obtain ⟨j, up'⟩ := linked i x t up
      exact ⟨j, _, up'⟩
    · obtain ⟨i, t, up⟩ := keeps.forest.rooted x mem
      obtain ⟨j, u, down⟩ := keeps.forest.rooted y mem'
      obtain ⟨_, up'⟩ := linked i x t up
      obtain ⟨_, down'⟩ := linked j y u down
      rw [← keeps.same_iff forest mem mem', ← keeps.same_iff forest mem memA,
        ← keeps.same_iff forest memB mem', ← keeps.same_iff forest mem memB,
        ← keeps.same_iff forest memA mem', same_iff_of_up up' down', same_iff_of_up up down,
        same_iff_of_up up upA', same_iff_of_up upB' down, same_iff_of_up up upB',
        same_iff_of_up upA' down]
      by_cases isA : t = ra.1
      · by_cases isA' : u = ra.1
        · rw [if_pos isA, if_pos isA', isA, isA']
          simp
        · rw [if_pos isA, if_neg isA', isA]
          have apart : ra.1 ≠ u := Ne.symm isA'
          simp [done, apart]
      · by_cases isA' : u = ra.1
        · rw [if_neg isA, if_pos isA', isA']
          simp [isA, Ne.symm done]
        · rw [if_neg isA, if_neg isA']
          have apart : ra.1 ≠ u := Ne.symm isA'
          simp [isA, apart]

end Classes

/-! ## Unions and groups -/

section Groups

variable {nodes : Finset α} {parent parent' : α → α} {x y a b : α} {xs : List α}
  {pairs : List (α × α)}

/-- The classes that pairs generate. -/
abbrev Generated (pairs : List (α × α)) : α → α → Prop :=
  Relation.EqvGen fun a b => (a, b) ∈ pairs

omit [DecidableEq α] in
theorem generated_concat : Generated (pairs ++ [(a, b)]) x y ↔
    Generated pairs x y ∨ (Generated pairs x a ∧ Generated pairs b y) ∨
      (Generated pairs x b ∧ Generated pairs a y) := by
  have older : ∀ x y, Generated pairs x y → Generated (pairs ++ [(a, b)]) x y := fun x y old =>
    old.mono fun _ _ mem => List.mem_append_left _ mem
  have new : Generated (pairs ++ [(a, b)]) a b := .rel _ _ (by simp)
  constructor
  · intro generated
    induction generated with
    | rel x y mem =>
        rcases List.mem_append.mp mem with old | last
        · exact .inl (.rel _ _ old)
        · obtain ⟨rfl, rfl⟩ := Prod.mk.inj (List.mem_singleton.mp last)
          exact .inr (.inl ⟨.refl _, .refl _⟩)
    | refl x => exact .inl (.refl x)
    | symm x y _ ih =>
        rcases ih with old | ⟨one, two⟩ | ⟨one, two⟩
        · exact .inl (.symm _ _ old)
        · exact .inr (.inr ⟨.symm _ _ two, .symm _ _ one⟩)
        · exact .inr (.inl ⟨.symm _ _ two, .symm _ _ one⟩)
    | trans x y z _ _ ih ih' =>
        rcases ih with old | ⟨one, two⟩ | ⟨one, two⟩
        · rcases ih' with old' | ⟨one', two'⟩ | ⟨one', two'⟩
          · exact .inl (.trans _ _ _ old old')
          · exact .inr (.inl ⟨.trans _ _ _ old one', two'⟩)
          · exact .inr (.inr ⟨.trans _ _ _ old one', two'⟩)
        · rcases ih' with old' | ⟨one', two'⟩ | ⟨one', two'⟩
          · exact .inr (.inl ⟨one, .trans _ _ _ two old'⟩)
          · exact .inr (.inl ⟨one, two'⟩)
          · exact .inl (.trans _ _ _ one two')
        · rcases ih' with old' | ⟨one', two'⟩ | ⟨one', two'⟩
          · exact .inr (.inr ⟨one, .trans _ _ _ two old'⟩)
          · exact .inl (.trans _ _ _ one two')
          · exact .inr (.inr ⟨one, two'⟩)
  · rintro (old | ⟨one, two⟩ | ⟨one, two⟩)
    · exact older x y old
    · exact .trans _ _ _ (older x a one) (.trans _ _ _ new (older b y two))
    · exact .trans _ _ _ (older x b one) (.trans _ _ _ (.symm _ _ new) (older a y two))

/-- The unions of a list of pairs. -/
def unions (size : Nat) (parent : α → α) (pairs : List (α × α)) : α → α :=
  pairs.foldl (fun parent e => union size parent e.1 e.2) parent

/-- The parents stand for the classes that pairs generate. -/
structure Represents (nodes : Finset α) (parent : α → α) (pairs : List (α × α)) : Prop where
  forest : Forest nodes parent
  same_iff : ∀ x ∈ nodes, ∀ y ∈ nodes, Same parent x y ↔ Generated pairs x y

omit [DecidableEq α] in
/-- `new`: every element is its own root. -/
theorem Represents.new (nodes : Finset α) : Represents nodes id [] where
  forest := ⟨fun _ mem => mem, fun x _ => ⟨0, x, .root rfl⟩⟩
  same_iff x _ y _ := by
    have up : ∀ x : α, Up id 0 x x := fun x => .root rfl
    have alone : ∀ x y : α, Generated [] x y → x = y := fun x y generated => by
      induction generated with
      | rel _ _ mem => exact absurd mem List.not_mem_nil
      | refl => rfl
      | symm _ _ _ ih => exact ih.symm
      | trans _ _ _ _ _ ih ih' => exact ih.trans ih'
    rw [same_iff_of_up (up x) (up y)]
    refine ⟨?_, alone x y⟩
    rintro rfl
    exact .refl _

theorem Represents.union (represents : Represents nodes parent pairs) (memA : a ∈ nodes)
    (memB : b ∈ nodes) :
    Represents nodes (union nodes.card parent a b) (pairs ++ [(a, b)]) := by
  have joins := union_joins represents.forest memA memB
  refine ⟨joins.forest, fun x mem y mem' => ?_⟩
  rw [joins.same_iff x mem y mem', generated_concat, represents.same_iff x mem y mem',
    represents.same_iff x mem a memA, represents.same_iff b memB y mem',
    represents.same_iff x mem b memB, represents.same_iff a memA y mem']

/-- **After the unions of a list the classes are those that the pairs generate.** -/
theorem unions_represents (more : List (α × α)) (within : ∀ e ∈ more, e.1 ∈ nodes ∧ e.2 ∈ nodes)
    (represents : Represents nodes parent pairs) :
    Represents nodes (unions nodes.card parent more) (pairs ++ more) := by
  induction more generalizing parent pairs with
  | nil =>
      rw [List.append_nil]
      exact represents
  | cons e more ih =>
      obtain ⟨memA, memB⟩ := within e List.mem_cons_self
      have rest := ih (fun e' mem => within e' (List.mem_cons_of_mem _ mem))
        (represents.union memA memB)
      rwa [List.append_assoc, List.singleton_append] at rest

/-- An element is put to the others of its root, with the parents that its `find` leaves. -/
def addToGroup (size : Nat) (st : (α → α) × Rows α (List α)) (x : α) : (α → α) × Rows α (List α) :=
  let found := find size st.1 x
  (found.2, st.2.push found.1 x)

/-- The elements of a list, grouped by their roots. -/
def groups (size : Nat) (parent : α → α) (xs : List α) : Rows α (List α) :=
  (xs.foldl (addToGroup size) (parent, ∅)).2

/-- The groups of what has been put in so far. -/
structure Grouped (nodes : Finset α) (rootOf : α → α) (xs : List α)
    (st : (α → α) × Rows α (List α)) : Prop where
  forest : Forest nodes st.1
  roots : ∀ x ∈ nodes, ∃ n, Up st.1 n x (rootOf x)
  holds : Holds rootOf xs st.2

theorem Grouped.add {rootOf : α → α} {st : (α → α) × Rows α (List α)}
    (grouped : Grouped nodes rootOf xs st) (mem : x ∈ nodes) :
    Grouped nodes rootOf (xs ++ [x]) (addToGroup nodes.card st x) := by
  obtain ⟨⟨n, up⟩, keeps⟩ := find_spec grouped.forest mem
  obtain ⟨m, up'⟩ := grouped.roots x mem
  refine ⟨keeps.forest, fun y mem' => ?_, ?_⟩
  · obtain ⟨k, above⟩ := grouped.roots y mem'
    exact keeps.roots k y _ above
  · rw [addToGroup, (up.unique up').2]
    exact grouped.holds.push x

theorem groups_holds {rootOf : α → α} (forest : Forest nodes parent)
    (roots : ∀ x ∈ nodes, ∃ n, Up parent n x (rootOf x)) (xs : List α)
    (within : ∀ x ∈ xs, x ∈ nodes) : Holds rootOf xs (groups nodes.card parent xs) := by
  have run : ∀ rest done st, (∀ x ∈ rest, x ∈ nodes) → Grouped nodes rootOf done st →
      Grouped nodes rootOf (done ++ rest) (rest.foldl (addToGroup nodes.card) st) := by
    intro rest
    induction rest with
    | nil =>
        intro done st _ grouped
        rwa [List.append_nil]
    | cons x rest ih =>
        intro done st within grouped
        have next := ih (done ++ [x]) _ (fun y mem => within y (List.mem_cons_of_mem _ mem))
          (grouped.add (within x List.mem_cons_self))
        rwa [List.append_assoc, List.singleton_append] at next
  exact (run xs [] _ within ⟨forest, roots, .empty⟩).holds

end Groups

/-! ## Clusters -/

/-- The clusters of a list: a union of each linked pair, and the groups that this leaves. -/
def clusters (order : HashOrder α (List α)) (linked : α → α → Bool) (xs : List α) :
    List (List α) :=
  let parent := unions xs.length id ((pairsOf xs).filter fun e => linked e.1 e.2)
  (order.read (groups xs.length parent xs)).map Sigma.snd

/-- **The clusters are the classes that the linked pairs generate.** -/
theorem clusters_spec (order : HashOrder α (List α)) (linked : α → α → Bool) {xs : List α}
    (nodup : xs.Nodup) :
    Clusters (Relation.EqvGen fun a b => [a, b].Sublist xs ∧ linked a b = true) xs
      (clusters order linked xs) := by
  have pairs : (fun a b => (a, b) ∈ (pairsOf xs).filter fun e => linked e.1 e.2) =
      fun a b => [a, b].Sublist xs ∧ linked a b = true := by
    funext a b
    rw [List.mem_filter, mem_pairsOf]
  have size : xs.length = xs.toFinset.card := (List.toFinset_card_of_nodup nodup).symm
  rw [clusters, ← pairs, size]
  have represents : Represents xs.toFinset (unions xs.toFinset.card id
      ((pairsOf xs).filter fun e => linked e.1 e.2))
      ((pairsOf xs).filter fun e => linked e.1 e.2) := by
    refine unions_represents _ (fun e mem => ?_) (.new xs.toFinset)
    rw [List.mem_toFinset, List.mem_toFinset]
    exact mem_of_mem_pairsOf (List.mem_filter.mp mem).1
  generalize (pairsOf xs).filter (fun e => linked e.1 e.2) = pairs at represents
  generalize unions xs.toFinset.card id pairs = parent at represents
  have exists_ : ∀ x, ∃ r, x ∈ xs.toFinset → ∃ n, Up parent n x r := fun x => by
    by_cases mem : x ∈ xs.toFinset
    · obtain ⟨n, r, up⟩ := represents.forest.rooted x mem
      exact ⟨r, fun _ => ⟨n, up⟩⟩
    · exact ⟨x, fun mem' => absurd mem' mem⟩
  choose rootOf roots using exists_
  have same : ∀ x ∈ xs, ∀ y ∈ xs, rootOf x = rootOf y ↔ Generated pairs x y :=
    fun x mem y mem' => by
      rw [← represents.same_iff x (by simpa using mem) y (by simpa using mem')]
      obtain ⟨m, up⟩ := roots x (by simpa using mem)
      obtain ⟨n, down⟩ := roots y (by simpa using mem')
      exact (same_iff_of_up up down).symm
  exact (groups_holds represents.forest roots xs fun x mem => by simpa using mem).clusters order same

end Ministr.Theory.UnionFind
