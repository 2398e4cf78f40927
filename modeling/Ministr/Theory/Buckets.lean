/-
# Theory.Buckets — comparing the elements of a list with each other

A program that compares all elements of a list first puts them into buckets by a key, since only
those of one bucket can be alike.  Within a bucket it then looks at each pair once, the earlier
element first.  The classes that the alike pairs generate do not cross a bucket
(`eqvGen_within`).
-/
import Ministr.Theory.Rows
import Mathlib.Logic.Relation
import Mathlib.Tactic.Common

namespace Ministr.Theory

set_option autoImplicit false

universe u v

/-! ## Buckets -/

section Buckets

variable {α : Type u} {κ : Type v} [DecidableEq κ]

/-- `entry(k).or_default().push(a)` -/
def Rows.push (table : Rows κ (List α)) (k : κ) (a : α) : Rows κ (List α) :=
  table.insert k ((table.lookup k).getD [] ++ [a])

/-- The table has the elements of a list by their keys, and no bucket without one. -/
def Holds (key : α → κ) (as : List α) (table : Rows κ (List α)) : Prop :=
  ∀ k l, table.lookup k = some l ↔ l ≠ [] ∧ l = as.filter fun a => key a = k

variable {key : α → κ} {as : List α} {table : Rows κ (List α)}

theorem Holds.empty : Holds key [] (∅ : Rows κ (List α)) := fun k l => by simp

theorem Holds.getD (holds : Holds key as table) (k : κ) :
    (table.lookup k).getD [] = as.filter fun a => key a = k := by
  cases found : table.lookup k with
  | some l => exact ((holds k l).mp found).2
  | none =>
      by_contra other
      have isSome := (holds k _).mpr ⟨Ne.symm other, rfl⟩
      rw [found] at isSome
      cases isSome

theorem Holds.push (holds : Holds key as table) (a : α) :
    Holds key (as ++ [a]) (table.push (key a) a) := by
  intro k l
  rw [Rows.push, Rows.lookup_insert_if, holds.getD, List.filter_append]
  by_cases here : k = key a
  · subst here
    rw [if_pos rfl, Option.some.injEq, List.filter_singleton, decide_eq_true rfl, cond_true]
    constructor
    · rintro rfl
      exact ⟨by simp, rfl⟩
    · rintro ⟨-, rfl⟩
      rfl
  · have apart : ¬key a = k := fun same => here same.symm
    rw [if_neg here, holds, List.filter_singleton, decide_eq_false apart, cond_false,
      List.append_nil]

/-- The buckets of a list. -/
def buckets (key : α → κ) (as : List α) : Rows κ (List α) :=
  as.foldl (fun table a => table.push (key a) a) ∅

theorem holds_buckets (key : α → κ) (as : List α) : Holds key as (buckets key as) := by
  induction as using List.reverseRecOn with
  | nil => exact .empty
  | append_singleton as a ih =>
      rw [buckets, List.foldl_append]
      exact ih.push a

/-- These lists are the classes of a relation on a list, in its order. -/
structure Clusters (rel : α → α → Prop) (xs : List α) (ls : List (List α)) : Prop where
  nonempty : ∀ l ∈ ls, l ≠ []
  sublist : ∀ l ∈ ls, l.Sublist xs
  whole : ∀ l ∈ ls, ∀ x ∈ l, ∀ y, y ∈ l ↔ y ∈ xs ∧ rel x y
  cover : ∀ x ∈ xs, ∃ l ∈ ls, x ∈ l
  apart : ls.Pairwise List.Disjoint

/-- The buckets by a key are the classes of having one key. -/
theorem Holds.clusters {rel : α → α → Prop} {xs : List α} (holds : Holds key xs table)
    (order : HashOrder κ (List α))
    (same : ∀ x ∈ xs, ∀ y ∈ xs, key x = key y ↔ rel x y) :
    Clusters rel xs ((order.read table).map Sigma.snd) := by
  have value : ∀ l, l ∈ (order.read table).map Sigma.snd ↔
      ∃ r, l ≠ [] ∧ l = xs.filter fun x => key x = r := fun l => by
    rw [List.mem_map]
    constructor
    · rintro ⟨⟨r, l⟩, mem, rfl⟩
      exact ⟨r, (holds r l).mp
        ((Rows.mem_entries_iff _ _ _).mp ((order.perm table).mem_iff.mp mem))⟩
    · rintro ⟨r, isGroup⟩
      exact ⟨⟨r, l⟩, (order.perm table).mem_iff.mpr
        ((Rows.mem_entries_iff _ _ _).mpr ((holds r l).mpr isGroup)), rfl⟩
  refine ⟨fun l mem => ?_, fun l mem => ?_, fun l mem x here y => ?_, fun x mem => ?_, ?_⟩
  · obtain ⟨r, nonempty, -⟩ := (value l).mp mem
    exact nonempty
  · obtain ⟨r, -, rfl⟩ := (value l).mp mem
    exact List.filter_sublist
  · obtain ⟨r, -, rfl⟩ := (value l).mp mem
    obtain ⟨isIn, isRoot⟩ := List.mem_filter.mp here
    rw [List.mem_filter, decide_eq_true_eq]
    refine and_congr_right fun isIn' => ?_
    rw [← same x isIn y isIn', of_decide_eq_true isRoot]
    exact eq_comm
  · have here : x ∈ xs.filter fun y => key y = key x :=
      List.mem_filter.mpr ⟨mem, decide_eq_true rfl⟩
    exact ⟨_, (value _).mpr ⟨key x, List.ne_nil_of_mem here, rfl⟩, here⟩
  · rw [List.pairwise_map]
    have keys : ((order.read table).map Sigma.fst).Nodup :=
      ((order.perm table).map Sigma.fst).nodup_iff.mpr table.nodupKeys
    refine (List.pairwise_map.mp keys).imp_of_mem fun {e e'} mem mem' other x here here' => ?_
    have isGroup := (holds e.1 e.2).mp
      ((Rows.mem_entries_iff _ _ _).mp ((order.perm table).mem_iff.mp mem))
    have isGroup' := (holds e'.1 e'.2).mp
      ((Rows.mem_entries_iff _ _ _).mp ((order.perm table).mem_iff.mp mem'))
    rw [isGroup.2, List.mem_filter, decide_eq_true_eq] at here
    rw [isGroup'.2, List.mem_filter, decide_eq_true_eq] at here'
    exact other (here.2.symm.trans here'.2)

end Buckets

/-! ## Pairs -/

section Pairs

variable {α : Type u} {xs l : List α} {a b : α}

/-- The pairs of a nested loop, the earlier element first. -/
def pairsOf : List α → List (α × α)
  | [] => []
  | x :: xs => xs.map (fun y => (x, y)) ++ pairsOf xs

theorem mem_pairsOf : (a, b) ∈ pairsOf xs ↔ [a, b].Sublist xs := by
  induction xs with
  | nil => simp [pairsOf]
  | cons x xs ih =>
      rw [pairsOf, List.mem_append, ih, List.sublist_cons_iff, or_comm]
      refine or_congr_right ?_
      constructor
      · intro mem
        obtain ⟨y, isIn, same⟩ := List.mem_map.mp mem
        obtain ⟨rfl, rfl⟩ := Prod.mk.inj same
        exact ⟨[y], rfl, List.singleton_sublist.mpr isIn⟩
      · rintro ⟨rest, same, sub⟩
        obtain ⟨rfl, rfl⟩ := List.cons.inj same
        exact List.mem_map.mpr ⟨b, List.singleton_sublist.mp sub, rfl⟩

theorem mem_of_mem_pairsOf {e : α × α} (mem : e ∈ pairsOf xs) : e.1 ∈ xs ∧ e.2 ∈ xs := by
  have sub : [e.1, e.2].Sublist xs := mem_pairsOf.mp mem
  exact ⟨sub.subset (by simp), sub.subset (by simp)⟩

variable (xs) in
/-- The pairs of what passes a test are the pairs that pass it twice. -/
theorem pairsOf_filter (p : α → Bool) :
    pairsOf (xs.filter p) = (pairsOf xs).filter fun e => p e.1 && p e.2 := by
  induction xs with
  | nil => rfl
  | cons x xs ih =>
      rw [pairsOf, List.filter_append, List.filter_map, ← ih]
      cases passes : p x with
      | true => simp [passes, pairsOf, Function.comp_def]
      | false => simp [passes, Function.comp_def]

/-- A sublist without repetitions is what is left of the list by a test for it. -/
theorem filter_of_sublist [DecidableEq α] (sub : l.Sublist xs) (nodup : xs.Nodup) :
    (xs.filter fun x => x ∈ l) = l := by
  induction sub with
  | slnil => rfl
  | @cons l xs x sub ih =>
      obtain ⟨fresh, nodup⟩ := List.nodup_cons.mp nodup
      have notIn : x ∉ l := fun mem => fresh (sub.subset mem)
      rw [List.filter_cons, if_neg (by simpa using notIn)]
      exact ih nodup
  | @cons_cons l xs x sub ih =>
      obtain ⟨fresh, nodup⟩ := List.nodup_cons.mp nodup
      rw [List.filter_cons, if_pos (by simp)]
      refine congrArg (x :: ·) ?_
      refine Eq.trans (List.filter_congr fun y mem => ?_) (ih nodup)
      have other : y ≠ x := fun same => fresh (same ▸ mem)
      simp [other]

/-- What is reported of some elements, beside those it is reported of. -/
theorem forall₂_filterMap {β : Type v} {P : β → α → Prop} (f : α → Option β) (as : List α)
    (each : ∀ a ∈ as, ∀ b, f a = some b → P b a) :
    List.Forall₂ P (as.filterMap f) (as.filter fun a => (f a).isSome) := by
  induction as with
  | nil => exact .nil
  | cons a as ih =>
      have rest := ih fun x mem => each x (List.mem_cons_of_mem _ mem)
      cases found : f a with
      | none => rwa [List.filterMap_cons_none found, List.filter_cons_of_neg (by simp [found])]
      | some b =>
          rw [List.filterMap_cons_some found, List.filter_cons_of_pos (by simp [found])]
          exact .cons (each a List.mem_cons_self b found) rest

end Pairs

/-! ## Classes within a bucket -/

theorem two_le_length {α : Type u} {l : List α} {a b : α} (mem : a ∈ l) (mem' : b ∈ l)
    (other : a ≠ b) : 2 ≤ l.length := by
  by_contra few
  match l, few with
  | [], _ => exact List.not_mem_nil mem
  | [c], _ => exact other ((List.mem_singleton.mp mem).trans (List.mem_singleton.mp mem').symm)
  | _ :: _ :: _, few => simp at few

theorem exists_ne_of_two_le {α : Type u} {l : List α} (several : 2 ≤ l.length) (nodup : l.Nodup) :
    ∃ a ∈ l, ∃ b ∈ l, a ≠ b := by
  match l, several with
  | a :: b :: l, _ =>
      refine ⟨a, by simp, b, by simp, ?_⟩
      rintro rfl
      exact (List.nodup_cons.mp nodup).1 List.mem_cons_self

section Clusters

variable {α : Type u} {rel : α → α → Prop} {xs : List α} {ls ls' : List (List α)}

theorem Clusters.perm (clusters : Clusters rel xs ls) (perm : ls'.Perm ls) :
    Clusters rel xs ls' where
  nonempty l mem := clusters.nonempty l (perm.mem_iff.mp mem)
  sublist l mem := clusters.sublist l (perm.mem_iff.mp mem)
  whole l mem := clusters.whole l (perm.mem_iff.mp mem)
  cover x mem := by
    obtain ⟨l, isIn, here⟩ := clusters.cover x mem
    exact ⟨l, perm.mem_iff.mpr isIn, here⟩
  apart := perm.symm.pairwise clusters.apart fun {l l'} disjoint => disjoint.symm

/-- Two clusters are large when two unrelated elements have each one they are related to. -/
theorem Clusters.two_large_iff (clusters : Clusters rel xs ls) (nodup : xs.Nodup) :
    2 ≤ (ls.filter fun l => 2 ≤ l.length).length ↔
      ∃ a ∈ xs, ∃ b ∈ xs, ∃ c ∈ xs, ∃ d ∈ xs, a ≠ b ∧ c ≠ d ∧ rel a b ∧ rel c d ∧ ¬rel a c := by
  constructor
  · intro large
    have apart := clusters.apart.filter fun l => decide (2 ≤ l.length)
    have sub : ∀ l ∈ ls.filter (fun l => decide (2 ≤ l.length)), l ∈ ls ∧ 2 ≤ l.length :=
      fun l mem => by simpa using mem
    generalize ls.filter (fun l => decide (2 ≤ l.length)) = kept at large apart sub
    match kept, large with
    | l :: l' :: _, _ =>
        obtain ⟨mem, several⟩ := sub l (by simp)
        obtain ⟨mem', several'⟩ := sub l' (by simp)
        have isSub := clusters.sublist l mem
        have isSub' := clusters.sublist l' mem'
        obtain ⟨a, isA, b, isB, other⟩ := exists_ne_of_two_le several (isSub.nodup nodup)
        obtain ⟨c, isC, d, isD, other'⟩ := exists_ne_of_two_le several' (isSub'.nodup nodup)
        refine ⟨a, isSub.subset isA, b, isSub.subset isB, c, isSub'.subset isC, d,
          isSub'.subset isD, other, other', ((clusters.whole l mem a isA b).mp isB).2,
          ((clusters.whole l' mem' c isC d).mp isD).2, fun related => ?_⟩
        have both := (clusters.whole l mem a isA c).mpr ⟨isSub'.subset isC, related⟩
        exact (List.pairwise_cons.mp apart).1 l' (by simp) both isC
  · rintro ⟨a, memA, b, memB, c, memC, d, memD, other, other', related, related', apart⟩
    obtain ⟨l, mem, isA⟩ := clusters.cover a memA
    obtain ⟨l', mem', isC⟩ := clusters.cover c memC
    have isB := (clusters.whole l mem a isA b).mpr ⟨memB, related⟩
    have isD := (clusters.whole l' mem' c isC d).mpr ⟨memD, related'⟩
    refine two_le_length (a := l) (b := l')
      (List.mem_filter.mpr ⟨mem, decide_eq_true (two_le_length isA isB other)⟩)
      (List.mem_filter.mpr ⟨mem', decide_eq_true (two_le_length isC isD other')⟩) ?_
    rintro rfl
    exact apart ((clusters.whole l mem a isA c).mp isC).2

end Clusters

/-- An element of a class with another one is related to some. -/
theorem eqvGen_eq_or {α : Type u} {rel : α → α → Prop} {a b : α}
    (generated : Relation.EqvGen rel a b) :
    a = b ∨ (∃ c, rel a c ∨ rel c a) ∧ ∃ c, rel b c ∨ rel c b := by
  induction generated with
  | rel x y related => exact .inr ⟨⟨y, .inl related⟩, x, .inr related⟩
  | refl x => exact .inl rfl
  | symm x y _ ih => exact ih.imp Eq.symm And.symm
  | trans x y z _ _ ih ih' =>
      rcases ih with rfl | both
      · exact ih'
      · rcases ih' with rfl | both'
        · exact .inr both
        · exact .inr ⟨both.1, both'.2⟩


/-- Where related elements have one key, so have those of a class, and the pairs of that key
generate it. -/
theorem eqvGen_within {α : Type u} {κ : Type v} {rel : α → α → Prop} {a b : α} (key : α → κ)
    (kept : ∀ x y, rel x y → key x = key y) (generated : Relation.EqvGen rel a b) :
    key a = key b ∧ Relation.EqvGen (fun x y => rel x y ∧ key x = key a) a b := by
  induction generated with
  | rel x y related => exact ⟨kept x y related, .rel _ _ ⟨related, rfl⟩⟩
  | refl x => exact ⟨rfl, .refl x⟩
  | symm x y _ ih =>
      obtain ⟨same, inside⟩ := ih
      refine ⟨same.symm, .symm _ _ ?_⟩
      rwa [← same]
  | trans x y z _ _ ih ih' =>
      obtain ⟨same, inside⟩ := ih
      obtain ⟨same', inside'⟩ := ih'
      refine ⟨same.trans same', .trans _ _ _ inside ?_⟩
      rwa [same]

end Ministr.Theory
