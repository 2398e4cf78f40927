/-
# Theory.Forest — ordered forests and the merging of adjacent siblings

A forest is a list of labelled trees: the first label, the forest under it, and the trees
after it.  `coalesceFrom` walks along the siblings and merges a label into the one before
it when `joins` says so; the children of the merged label move over as they are, those of
every other label are coalesced in turn.

A `Group` is a label together with the labels merged into it, in order.  `runs` says which
groups a level falls into and `lowerGroups` those of all the levels below, so that a
coalesced forest can be accounted for label by label:

* `roots_coalesce`, `descendants_coalesce` — its labels are the results of the groups;
* `members_runs`, `members_lowerGroups` — every label is in one group;
* `flatMap_coalesce_subperm`, `flatMap_coalesce_perm` — what a merge keeps, it holds;
* `infix_of_mem_runs`, `infix_of_mem_lowerGroups` — a group consists of adjacent siblings;
* `coalesceFrom_of_apart`, `apart_coalesceFrom` — when coalescing again changes nothing.
-/
import Mathlib.Data.List.Chain
import Mathlib.Data.List.Flatten
import Mathlib.Data.List.Infix
import Mathlib.Data.List.Perm.Subperm
import Mathlib.Tactic.Common

namespace Ministr.Theory

set_option autoImplicit false

universe u v

inductive Forest (α : Type u) where
  | nil
  | cons (head : α) (children rest : Forest α)
  deriving DecidableEq, Repr

namespace Forest

variable {α : Type u} {β : Type v}

/-! ## The labels -/

/-- Every label, each before what is under it. -/
def labels : Forest α → List α
  | nil => []
  | cons head children rest => head :: (children.labels ++ rest.labels)

/-- The top level. -/
def roots : Forest α → List α
  | nil => []
  | cons head _ rest => head :: rest.roots

/-- What is under the top level. -/
def descendants : Forest α → List α
  | nil => []
  | cons _ children rest => children.labels ++ rest.descendants

/-- The trees of the forest, each as its label and what is under it. -/
def trees : Forest α → List (α × Forest α)
  | nil => []
  | cons head children rest => (head, children) :: rest.trees

/-- Every list of siblings under the top level. -/
def levels : Forest α → List (List α)
  | nil => []
  | cons _ children rest => children.roots :: (children.levels ++ rest.levels)

def append : Forest α → Forest α → Forest α
  | nil, more => more
  | cons head children rest, more => cons head children (rest.append more)

@[simp] theorem labels_append (f g : Forest α) : (f.append g).labels = f.labels ++ g.labels := by
  induction f with
  | nil => rfl
  | cons head children rest _ ih => simp [append, labels, ih]

@[simp] theorem roots_append (f g : Forest α) : (f.append g).roots = f.roots ++ g.roots := by
  induction f with
  | nil => rfl
  | cons head children rest _ ih => simp [append, roots, ih]

@[simp] theorem descendants_append (f g : Forest α) : (f.append g).descendants = f.descendants ++ g.descendants := by
  induction f with
  | nil => rfl
  | cons head children rest _ ih => simp [append, descendants, ih]

@[simp] theorem levels_append (f g : Forest α) : (f.append g).levels = f.levels ++ g.levels := by
  induction f with
  | nil => rfl
  | cons head children rest _ ih => simp [append, levels, ih]

@[simp] theorem append_nil (f : Forest α) : f.append nil = f := by
  induction f with
  | nil => rfl
  | cons head children rest _ ih => simp [append, ih]

/-- A label is on the top level or below. -/
theorem labels_perm (f : Forest α) : f.labels.Perm (f.roots ++ f.descendants) := by
  induction f with
  | nil => exact .refl _
  | cons head children rest _ ih =>
      refine List.Perm.cons head ?_
      have moved := (ih.append_left children.labels).trans
        (List.perm_append_comm_assoc children.labels rest.roots rest.descendants)
      exact moved

theorem mem_labels_of_mem_roots {f : Forest α} {a : α} (mem : a ∈ f.roots) : a ∈ f.labels :=
  f.labels_perm.mem_iff.mpr (List.mem_append_left _ mem)

/-- The labels of a tree are labels of the forest. -/
theorem mem_labels_of_mem_trees {f : Forest α} {tree : α × Forest α} (mem : tree ∈ f.trees) :
    tree.1 ∈ f.labels ∧ ∀ b ∈ tree.2.labels, b ∈ f.labels := by
  induction f with
  | nil => cases mem
  | cons head children rest _ ih =>
      rcases List.mem_cons.mp mem with rfl | mem
      · exact ⟨List.mem_cons_self,
          fun b below => List.mem_cons_of_mem _ (List.mem_append_left _ below)⟩
      · obtain ⟨here, below⟩ := ih mem
        exact ⟨List.mem_cons_of_mem _ (List.mem_append_right _ here),
          fun b under => List.mem_cons_of_mem _ (List.mem_append_right _ (below b under))⟩

theorem mem_levels_of_mem_labels {f : Forest α} {a : α} (mem : a ∈ f.labels) :
    ∃ level ∈ f.roots :: f.levels, a ∈ level := by
  induction f with
  | nil => cases mem
  | cons head children rest ihChildren ihRest =>
      rcases List.mem_cons.mp mem with rfl | mem
      · exact ⟨_, List.mem_cons_self, List.mem_cons_self⟩
      rcases List.mem_append.mp mem with mem | mem
      · obtain ⟨level, listed, within⟩ := ihChildren mem
        refine ⟨level, List.mem_cons_of_mem _ ?_, within⟩
        simp only [levels, List.mem_cons, List.mem_append] at listed ⊢
        tauto
      · obtain ⟨level, listed, within⟩ := ihRest mem
        rcases List.mem_cons.mp listed with rfl | listed
        · exact ⟨_, List.mem_cons_self, List.mem_cons_of_mem _ within⟩
        · exact ⟨level, List.mem_cons_of_mem _ (List.mem_cons_of_mem _
            (List.mem_append_right _ listed)), within⟩

theorem labels_eq_nil {f : Forest α} (none : f.labels = []) : f = nil := by
  cases f with
  | nil => rfl
  | cons head children rest => cases none

/-! ## Merging siblings -/

/-- A label and the labels merged into it, in order. -/
structure Group (α : Type u) where
  into : α
  merged : List α := []
  deriving DecidableEq, Repr

namespace Group

variable (merge : α → α → α)

def members (g : Group α) : List α := g.into :: g.merged

/-- The label after the merges. -/
def result (g : Group α) : α := g.merged.foldl merge g.into

/-- One more label is merged. -/
def push (g : Group α) (a : α) : Group α := ⟨g.into, g.merged ++ [a]⟩

@[simp] theorem members_push (g : Group α) (a : α) : (g.push a).members = g.members ++ [a] := rfl

@[simp] theorem result_push (g : Group α) (a : α) :
    (g.push a).result merge = merge (g.result merge) a := by
  simp [result, push]

/-- What the merge keeps of both sides, a group keeps of all its labels. -/
theorem result_rec (P : α → List α → Prop) (one : ∀ a, P a [a])
    (join : ∀ a as b, P a as → P (merge a b) (as ++ [b])) (g : Group α) :
    P (g.result merge) g.members := by
  obtain ⟨into, merged⟩ := g
  induction merged using List.reverseRecOn with
  | nil => exact one into
  | append_singleton merged a ih =>
      have step := join _ _ a ih
      rw [← result_push merge ⟨into, merged⟩ a] at step
      exact step

end Group

section Coalesce

variable (joins : α → α → Bool) (merge : α → α → α)

/-- The trees read so far end with `last`. -/
def flush (last : Option (α × Forest α)) (rest : Forest α) : Forest α :=
  match last with
  | none => rest
  | some (head, children) => .cons head children rest

/-- The walk along the siblings; `last` is the tree a label may be merged into. -/
def coalesceFrom (last : Option (α × Forest α)) : Forest α → Forest α
  | nil => flush last nil
  | cons head children rest =>
      let own := (head, coalesceFrom none children)
      match last with
      | none => coalesceFrom (some own) rest
      | some (prev, prevChildren) =>
          if joins prev head then
            coalesceFrom (some (merge prev head, prevChildren.append children)) rest
          else flush last (coalesceFrom (some own) rest)

/-- The groups a level falls into; the first one goes on with `last`. -/
def runs (last : Option (Group α)) : List α → List (Group α)
  | [] => last.toList
  | a :: level =>
      match last with
      | none => runs (some ⟨a, []⟩) level
      | some g =>
          if joins (g.result merge) a then runs (some (g.push a)) level
          else g :: runs (some ⟨a, []⟩) level

/-- Labels on their own. -/
def singles (labels : List α) : List (Group α) := labels.map fun a => ⟨a, []⟩

/-- The groups of the levels below; what is under a merged label stays as it is. -/
def lowerGroups (last : Option (Group α)) : Forest α → List (Group α)
  | nil => []
  | cons head children rest =>
      let own := runs joins merge none children.roots ++ lowerGroups none children
      match last with
      | none => own ++ lowerGroups (some ⟨head, []⟩) rest
      | some g =>
          if joins (g.result merge) head then
            singles children.labels ++ lowerGroups (some (g.push head)) rest
          else own ++ lowerGroups (some ⟨head, []⟩) rest

/-- The groups of the whole forest. -/
def groups (f : Forest α) : List (Group α) :=
  runs joins merge none f.roots ++ lowerGroups joins merge none f

variable {joins merge}

@[simp] theorem results_singles (labels : List α) :
    (singles labels).map (Group.result merge) = labels := by
  simp [singles, Function.comp_def, Group.result]

@[simp] theorem members_singles (labels : List α) :
    (singles labels).flatMap Group.members = labels := by
  simp [singles, List.flatMap_map, Group.members]

/-! ### Every label is in one group -/

theorem members_runs (last : Option (Group α)) (level : List α) :
    (runs joins merge last level).flatMap Group.members =
      last.toList.flatMap Group.members ++ level := by
  induction level generalizing last with
  | nil => simp [runs]
  | cons a level ih =>
      cases last with
      | none => simp [runs, ih, Group.members]
      | some g =>
          simp only [runs]
          split
          · simp [ih]
          · simp [ih, Group.members]

theorem members_lowerGroups (last : Option (Group α)) (f : Forest α) :
    ((lowerGroups joins merge last f).flatMap Group.members).Perm f.descendants := by
  induction f generalizing last with
  | nil => exact .refl _
  | cons head children rest ihChildren ihRest =>
      have own : ((groups joins merge children).flatMap Group.members).Perm children.labels := by
        rw [groups, List.flatMap_append, members_runs]
        exact ((ihChildren none).append_left children.roots).trans children.labels_perm.symm
      cases last with
      | none =>
          simp only [lowerGroups]
          rw [List.flatMap_append]
          exact own.append (ihRest _)
      | some g =>
          simp only [lowerGroups]
          split
          · rw [List.flatMap_append, members_singles]
            exact (ihRest _).append_left _
          · rw [List.flatMap_append]
            exact own.append (ihRest _)

/-! ### A coalesced forest holds the results -/

theorem roots_coalesceFrom (f : Forest α) :
    (coalesceFrom joins merge none f).roots =
        (runs joins merge none f.roots).map (Group.result merge) ∧
      ∀ (g : Group α) (children : Forest α),
        (coalesceFrom joins merge (some (g.result merge, children)) f).roots =
          (runs joins merge (some g) f.roots).map (Group.result merge) := by
  induction f with
  | nil => exact ⟨rfl, fun g children => rfl⟩
  | cons head children rest _ ih =>
      refine ⟨ih.2 ⟨head, []⟩ _, fun g prevChildren => ?_⟩
      simp only [coalesceFrom, runs, roots]
      split
      · rw [← ih.2 (g.push head), Group.result_push]
      · rw [flush, roots, List.map_cons, ← ih.2 ⟨head, []⟩]
        rfl

theorem roots_coalesce (f : Forest α) :
    (coalesceFrom joins merge none f).roots =
      (runs joins merge none f.roots).map (Group.result merge) :=
  (roots_coalesceFrom f).1

theorem descendants_coalesceFrom (f : Forest α) :
    (coalesceFrom joins merge none f).descendants.Perm
        ((lowerGroups joins merge none f).map (Group.result merge)) ∧
      ∀ (g : Group α) (children : Forest α),
        (coalesceFrom joins merge (some (g.result merge, children)) f).descendants.Perm
          (children.labels ++ (lowerGroups joins merge (some g) f).map (Group.result merge)) := by
  induction f with
  | nil => exact ⟨.refl _, fun g children => .refl _⟩
  | cons head children rest ihChildren ihRest =>
      have own : (coalesceFrom joins merge none children).labels.Perm
          ((runs joins merge none children.roots ++ lowerGroups joins merge none children).map
            (Group.result merge)) := by
        rw [List.map_append, ← roots_coalesce]
        exact (labels_perm _).trans (ihChildren.1.append_left _)
      have alone := (ihRest.2 ⟨head, []⟩ (coalesceFrom joins merge none children)).trans
        (own.append_right _)
      rw [← List.map_append] at alone
      refine ⟨alone, fun g prevChildren => ?_⟩
      simp only [coalesceFrom, lowerGroups]
      split
      · have joined := ihRest.2 (g.push head) (prevChildren.append children)
        rw [Group.result_push, labels_append, List.append_assoc] at joined
        rw [List.map_append, results_singles]
        exact joined
      · exact alone.append_left _

theorem descendants_coalesce (f : Forest α) :
    (coalesceFrom joins merge none f).descendants.Perm
      ((lowerGroups joins merge none f).map (Group.result merge)) :=
  (descendants_coalesceFrom f).1

/-- The labels of the coalesced forest, and those it is made of. -/
theorem labels_coalesce (joins : α → α → Bool) (merge : α → α → α) (f : Forest α) :
    (coalesceFrom joins merge none f).labels.Perm
      ((groups joins merge f).map (Group.result merge)) := by
  rw [groups, List.map_append, ← roots_coalesce]
  exact (labels_perm _).trans ((descendants_coalesce f).append_left _)

theorem members_groups (joins : α → α → Bool) (merge : α → α → α) (f : Forest α) :
    ((groups joins merge f).flatMap Group.members).Perm f.labels := by
  rw [groups, List.flatMap_append, members_runs]
  exact ((members_lowerGroups none f).append_left f.roots).trans f.labels_perm.symm

/-- What a merge keeps of both labels, coalescing keeps of the forest. -/
theorem flatMap_coalesce_subperm {holds : α → List β}
    (kept : ∀ a b, (holds a ++ holds b).Sublist (holds (merge a b))) (f : Forest α) :
    (f.labels.flatMap holds).Subperm ((coalesceFrom joins merge none f).labels.flatMap holds) := by
  have group : ∀ g : Group α, (g.members.flatMap holds).Sublist (holds (g.result merge)) := by
    refine Group.result_rec merge (fun a members => (members.flatMap holds).Sublist (holds a))
      (fun a => by simp) fun a members b within => ?_
    rw [List.flatMap_append, List.flatMap_singleton]
    exact (within.append_right _).trans (kept a b)
  have before := (members_groups joins merge f).flatMap_right holds
  have after := (labels_coalesce joins merge f).flatMap_right holds
  rw [List.flatMap_assoc] at before
  rw [List.flatMap_map] at after
  exact before.symm.subperm.trans
    ((List.Sublist.flatMap_right _ fun g _ => group g).subperm.trans after.symm.subperm)

theorem flatMap_coalesce_perm {holds : α → List β}
    (same : ∀ a b, holds (merge a b) = holds a ++ holds b) (f : Forest α) :
    ((coalesceFrom joins merge none f).labels.flatMap holds).Perm (f.labels.flatMap holds) := by
  have group : ∀ g : Group α, holds (g.result merge) = g.members.flatMap holds := by
    refine Group.result_rec merge (fun a members => holds a = members.flatMap holds)
      (fun a => by simp) fun a members b within => ?_
    rw [List.flatMap_append, List.flatMap_singleton, same, within]
  have before := (members_groups joins merge f).flatMap_right holds
  have after := (labels_coalesce joins merge f).flatMap_right holds
  rw [List.flatMap_assoc] at before
  rw [List.flatMap_map, funext group] at after
  exact after.trans before

/-- Where nothing joins, nothing changes. -/
theorem coalesce_of_apart (apart : ∀ a b, joins a b = false) (f : Forest α) :
    coalesceFrom joins merge none f = f ∧
      ∀ last : α × Forest α, coalesceFrom joins merge (some last) f = cons last.1 last.2 f := by
  induction f with
  | nil => exact ⟨rfl, fun last => rfl⟩
  | cons head children rest ihChildren ihRest =>
      have alone : coalesceFrom joins merge (some (head, coalesceFrom joins merge none children))
          rest = cons head children rest := by
        rw [ihRest.2, ihChildren.1]
      refine ⟨alone, fun last => ?_⟩
      rw [coalesceFrom, alone]
      simp [apart, flush]

/-! ### Groups are adjacent siblings -/

theorem infix_of_mem_runs {last : Option (Group α)} {level : List α} {g : Group α}
    (mem : g ∈ runs joins merge last level) :
    g.members <:+: last.toList.flatMap Group.members ++ level := by
  induction level generalizing last with
  | nil =>
      cases Option.mem_toList.mp mem
      simp
  | cons a level ih =>
      cases last with
      | none => simpa [Group.members] using ih mem
      | some g' =>
          simp only [runs] at mem
          split at mem
          · simpa using ih mem
          · rcases List.mem_cons.mp mem with rfl | later
            · exact (List.infix_append [] g.members (a :: level)).trans (by simp)
            · refine (ih later).trans (List.IsSuffix.isInfix ⟨g'.members, ?_⟩)
              simp [Group.members]

theorem infix_of_mem_lowerGroups {last : Option (Group α)} {f : Forest α} {g : Group α}
    (mem : g ∈ lowerGroups joins merge last f) : ∃ level ∈ f.levels, g.members <:+: level := by
  induction f generalizing last with
  | nil => cases mem
  | cons head children rest ihChildren ihRest =>
      have own : g ∈ runs joins merge none children.roots ++ lowerGroups joins merge none children →
          ∃ level ∈ (cons head children rest).levels, g.members <:+: level := by
        intro mem
        rcases List.mem_append.mp mem with mem | mem
        · exact ⟨children.roots, List.mem_cons_self, infix_of_mem_runs mem⟩
        · obtain ⟨level, listed, within⟩ := ihChildren mem
          exact ⟨level, List.mem_cons_of_mem _ (List.mem_append_left _ listed), within⟩
      have later : ∀ {last}, g ∈ lowerGroups joins merge last rest →
          ∃ level ∈ (cons head children rest).levels, g.members <:+: level := by
        intro last mem
        obtain ⟨level, listed, within⟩ := ihRest mem
        exact ⟨level, List.mem_cons_of_mem _ (List.mem_append_right _ listed), within⟩
      cases last with
      | none => exact (List.mem_append.mp mem).elim own later
      | some g' =>
          simp only [lowerGroups] at mem
          split at mem
          · rcases List.mem_append.mp mem with alone | mem
            · obtain ⟨a, listed, rfl⟩ := List.mem_map.mp alone
              obtain ⟨level, there, within⟩ := mem_levels_of_mem_labels listed
              refine ⟨level, ?_, (List.singleton_infix_iff _ _).mpr within⟩
              rcases List.mem_cons.mp there with rfl | there
              · exact List.mem_cons_self
              · exact List.mem_cons_of_mem _ (List.mem_append_left _ there)
            · exact later mem
          · exact (List.mem_append.mp mem).elim own later

/-! ### Where coalescing stops -/

/-- No two adjacent siblings join, on any level. -/
def Apart (joins : α → α → Bool) (f : Forest α) : Prop :=
  ∀ level ∈ f.roots :: f.levels, level.IsChain fun a b => joins a b = false

theorem apart_nil : Apart joins nil := by
  intro level mem
  cases List.mem_singleton.mp mem
  exact .nil

theorem apart_cons {head : α} {children rest : Forest α} :
    Apart joins (cons head children rest) ↔
      (∀ b ∈ rest.roots.head?, joins head b = false) ∧ Apart joins children ∧ Apart joins rest := by
  simp only [Apart, roots, levels, List.forall_mem_cons, List.forall_mem_append, List.isChain_cons]
  tauto

theorem apart_append {f g : Forest α} :
    Apart joins (f.append g) ↔ Apart joins f ∧ Apart joins g ∧
      ∀ a ∈ f.roots.getLast?, ∀ b ∈ g.roots.head?, joins a b = false := by
  simp only [Apart, roots_append, levels_append, List.forall_mem_cons, List.forall_mem_append,
    List.isChain_append]
  tauto

/-- A forest whose siblings are apart is coalesced already. -/
theorem coalesceFrom_of_apart (f : Forest α) :
    (Apart joins f → coalesceFrom joins merge none f = f) ∧
      ∀ prev children, (∀ b ∈ f.roots.head?, joins prev b = false) → Apart joins f →
        coalesceFrom joins merge (some (prev, children)) f = cons prev children f := by
  induction f with
  | nil => exact ⟨fun _ => rfl, fun _ _ _ _ => rfl⟩
  | cons head children rest ihChildren ihRest =>
      have alone : Apart joins (cons head children rest) →
          coalesceFrom joins merge (some (head, coalesceFrom joins merge none children)) rest =
            cons head children rest := by
        intro apart
        obtain ⟨next, below, later⟩ := apart_cons.mp apart
        rw [ihRest.2 _ _ next later, ihChildren.1 below]
      refine ⟨alone, fun prev prevChildren next apart => ?_⟩
      have off : joins prev head = false := next head rfl
      rw [coalesceFrom, alone apart]
      simp [off, flush]

/-- What is under a merged label is not coalesced: it has to be apart already, and so do the
last label under the target and the first one that moves there.  `last` is the label a
merge would go into and the last label under it. -/
def Settles (joins : α → α → Bool) (merge : α → α → α) (last : Option (α × Option α)) :
    Forest α → Prop
  | nil => True
  | cons head children rest =>
      let own := (head, ((runs joins merge none children.roots).map (Group.result merge)).getLast?)
      match last with
      | none => Settles joins merge none children ∧ Settles joins merge (some own) rest
      | some (prev, lastChild) =>
          if joins prev head then
            (Apart joins children ∧
              ∀ a ∈ lastChild, ∀ b ∈ children.roots.head?, joins a b = false) ∧
            Settles joins merge (some (merge prev head, children.roots.getLast?.or lastChild)) rest
          else Settles joins merge none children ∧ Settles joins merge (some own) rest

/-- What does not join a label does not join it after merges either. -/
theorem head_coalesceFrom
    (grown : ∀ {a b c}, joins b c = true → joins a b = false → joins a (merge b c) = false)
    (f : Forest α) {a prev : α} (children : Forest α) (off : joins a prev = false) :
    ∀ b ∈ (coalesceFrom joins merge (some (prev, children)) f).roots.head?, joins a b = false := by
  induction f generalizing prev children with
  | nil =>
      intro b mem
      cases mem
      exact off
  | cons head below rest _ ih =>
      rw [coalesceFrom]
      split
      · rename_i joined
        exact ih _ (grown joined off)
      · intro b mem
        cases mem
        exact off

/-- **The siblings of a coalesced forest are apart exactly when the forest settles.** -/
theorem apart_coalesceFrom
    (grown : ∀ {a b c}, joins b c = true → joins a b = false → joins a (merge b c) = false)
    (f : Forest α) :
    (Apart joins (coalesceFrom joins merge none f) ↔ Settles joins merge none f) ∧
      ∀ prev children, Apart joins (coalesceFrom joins merge (some (prev, children)) f) ↔
        Apart joins children ∧ Settles joins merge (some (prev, children.roots.getLast?)) f := by
  induction f with
  | nil =>
      refine ⟨iff_of_true apart_nil trivial, fun prev children => ?_⟩
      simp [coalesceFrom, flush, apart_cons, apart_nil, roots, Settles]
  | cons head children rest ihChildren ihRest =>
      have own : Apart joins
            (coalesceFrom joins merge (some (head, coalesceFrom joins merge none children)) rest) ↔
          Settles joins merge none children ∧
            Settles joins merge (some (head,
              ((runs joins merge none children.roots).map (Group.result merge)).getLast?)) rest := by
        rw [ihRest.2, ihChildren.1, roots_coalesce]
      refine ⟨own, fun prev prevChildren => ?_⟩
      rw [coalesceFrom, Settles]
      by_cases joined : joins prev head = true
      · rw [if_pos joined, if_pos joined, ihRest.2, apart_append, roots_append,
          List.getLast?_append]
        tauto
      · rw [if_neg joined, if_neg joined]
        have next := head_coalesceFrom grown rest (coalesceFrom joins merge none children)
          (Bool.eq_false_iff.mpr joined)
        rw [flush, apart_cons, own]
        tauto

end Coalesce

end Forest

end Ministr.Theory
