/-
# Theory.Leaders — the first entry of each class in a ranking

The entries of a list are sorted, the first of each class is kept (`keepFirst`), and the
list is cut after `k`.  Where the sort does not tell two entries of a class apart, the
one that stood first in the list leads the class.  `cut_perm_iff` says when the order of the
list does not show: no two entries tie for the lead of a class with fewer than `k` classes
ahead of it.  Everything about the order is derived from `Leaders`, which says what the kept
entries are.
-/
import Ministr.Theory.StableSort
import Mathlib.Data.List.Dedup

namespace Ministr.Theory

set_option autoImplicit false

universe u v

section KeepFirst

variable {α : Type u} {κ : Type v} [DecidableEq κ] (cls : α → κ)

/-- Keep an entry when its class is new. -/
def keepFirst (seen : List κ) : List α → List α
  | [] => []
  | a :: l => if cls a ∈ seen then keepFirst seen l else a :: keepFirst (cls a :: seen) l

variable {cls}

/-- What is kept is the first of its class. -/
theorem mem_keepFirst_iff {seen : List κ} {l : List α} {a : α} :
    a ∈ keepFirst cls seen l ↔
      cls a ∉ seen ∧ l.find? (fun b => decide (cls b = cls a)) = some a := by
  induction l generalizing seen with
  | nil => simp [keepFirst]
  | cons b l ih =>
      rw [keepFirst]
      by_cases old : cls b ∈ seen
      · rw [if_pos old, ih]
        by_cases same : cls b = cls a
        · simp [← same, old]
        · rw [List.find?_cons_of_neg (by simpa using same)]
      · rw [if_neg old, List.mem_cons, ih]
        by_cases same : cls b = cls a
        · rw [List.find?_cons_of_pos (by simpa using same), Option.some.injEq, ← same]
          simp [old, eq_comm]
        · rw [List.find?_cons_of_neg (by simpa using same)]
          have other : a ≠ b := fun eq => same (by rw [eq])
          simp [other, Ne.symm same]

theorem keepFirst_sublist (seen : List κ) (l : List α) : (keepFirst cls seen l).Sublist l := by
  induction l generalizing seen with
  | nil => exact List.Sublist.slnil
  | cons a l ih =>
      rw [keepFirst]
      split
      · exact (ih seen).cons a
      · exact (ih _).cons_cons a

theorem nodup_map_keepFirst (seen : List κ) (l : List α) :
    ((keepFirst cls seen l).map cls).Nodup := by
  induction l generalizing seen with
  | nil => exact List.nodup_nil
  | cons a l ih =>
      rw [keepFirst]
      split
      · exact ih seen
      · rw [List.map_cons, List.nodup_cons]
        refine ⟨fun mem => ?_, ih _⟩
        obtain ⟨b, kept, same⟩ := List.mem_map.mp mem
        exact (mem_keepFirst_iff.mp kept).1 (same ▸ List.mem_cons_self)

end KeepFirst

section Leaders

variable {α : Type u} {κ : Type v} [DecidableEq κ] {le : α → α → Bool} {cls : α → κ}

/-- The leaders of the classes, ranked. -/
structure Leaders (le : α → α → Bool) (cls : α → κ) (entries leaders : List α) : Prop where
  within : ∀ a ∈ leaders, a ∈ entries
  distinct : (leaders.map cls).Nodup
  covers : ∀ c ∈ entries, ∃ a ∈ leaders, cls a = cls c
  best : ∀ a ∈ leaders, ∀ c ∈ entries, cls c = cls a → le a c
  sorted : leaders.Pairwise fun a b => le a b = true

/-- The number of classes with an entry before `a`. -/
def aheadOf (le : α → α → Bool) (cls : α → κ) (entries : List α) (a : α) : Nat :=
  ((entries.filter fun c => !le a c).map cls).dedup.length

variable (transitive : ∀ a b c, le a b → le b c → le a c) (linear : ∀ a b, le a b || le b a)
include transitive linear

theorem keepFirst_leaders {entries l : List α} (perm : l.Perm entries) :
    Leaders le cls entries (keepFirst cls [] (l.mergeSort le)) := by
  have reflexive : ∀ a, le a a = true := fun a => by simpa using linear a a
  have sorted := List.pairwise_mergeSort transitive linear l
  have mem_iff : ∀ a, a ∈ l.mergeSort le ↔ a ∈ entries := fun a =>
    List.mem_mergeSort.trans perm.mem_iff
  refine ⟨fun a kept => (mem_iff a).mp ((keepFirst_sublist _ _).subset kept),
    nodup_map_keepFirst _ _, fun c mem => ?_, fun a kept c mem same => ?_,
    sorted.sublist (keepFirst_sublist _ _)⟩
  · cases found : (l.mergeSort le).find? fun b => decide (cls b = cls c) with
    | none =>
        have missing := List.find?_eq_none.mp found c ((mem_iff c).mpr mem)
        simp at missing
    | some a =>
        have same : cls a = cls c := by simpa using List.find?_some found
        exact ⟨a, mem_keepFirst_iff.mpr ⟨by simp, by rw [same]; exact found⟩, same⟩
  · obtain ⟨-, front, back, split, earlier⟩ :=
      List.find?_eq_some_iff_append.mp (mem_keepFirst_iff.mp kept).2
    rw [← mem_iff, split] at mem
    rw [split] at sorted
    rcases List.mem_append.mp mem with inFront | inBack
    · have differs := earlier c inFront
      simp [same] at differs
    · rcases List.mem_cons.mp inBack with rfl | later
      · exact reflexive c
      · exact (List.pairwise_cons.mp (List.pairwise_append.mp sorted).2.1).1 c later

variable (ties : ∀ a b, le a b → le b a → cls a = cls b)

omit linear in
theorem tied_symm_aheadOf {entries : List α} {a b : α} (ab : le a b) (ba : le b a) :
    aheadOf le cls entries a = aheadOf le cls entries b := by
  have same : (entries.filter fun c => !le a c) = entries.filter fun c => !le b c := by
    refine List.filter_congr fun c _ => ?_
    rw [Bool.not_inj_iff, Bool.eq_iff_iff]
    exact ⟨transitive b a c ba, transitive a b c ab⟩
  rw [aheadOf, aheadOf, same]

include ties

omit linear in
/-- A leader stands behind the classes ahead of it. -/
theorem Leaders.getElem?_aheadOf {entries leaders : List α} (lead : Leaders le cls entries leaders)
    {a : α} (mem : a ∈ leaders) : leaders[aheadOf le cls entries a]? = some a := by
  obtain ⟨front, back, rfl⟩ := List.append_of_mem mem
  have classes := lead.distinct
  rw [List.map_append, List.map_cons, List.nodup_append] at classes
  have sorted := List.pairwise_append.mp lead.sorted
  have count : (front.map cls).Perm ((entries.filter fun c => !le a c).map cls).dedup := by
    refine (List.perm_ext_iff_of_nodup classes.1 (List.nodup_dedup _)).mpr fun k => ?_
    rw [List.mem_dedup]
    constructor
    · intro inFront
      obtain ⟨f, there, rfl⟩ := List.mem_map.mp inFront
      refine List.mem_map_of_mem (List.mem_filter.mpr ⟨lead.within f (by simp [there]), ?_⟩)
      rw [Bool.not_eq_true', Bool.eq_false_iff]
      intro back'
      have tie := ties a f back' (sorted.2.2 f there a List.mem_cons_self)
      exact classes.2.2 _ inFront _ List.mem_cons_self tie.symm
    · intro ahead
      obtain ⟨c, there, rfl⟩ := List.mem_map.mp ahead
      obtain ⟨listed, before⟩ := List.mem_filter.mp there
      rw [Bool.not_eq_true', Bool.eq_false_iff] at before
      obtain ⟨d, leads, same⟩ := lead.covers c listed
      have dc := lead.best d leads c listed same.symm
      rw [← same]
      rcases List.mem_append.mp leads with inFront | inBack
      · exact List.mem_map_of_mem inFront
      · rcases List.mem_cons.mp inBack with rfl | later
        · exact absurd dc before
        · exact absurd (transitive a d c ((List.pairwise_cons.mp sorted.2.1).1 d later) dc) before
  have length : aheadOf le cls entries a = front.length := by
    rw [aheadOf, ← count.length_eq, List.length_map]
  rw [length, List.getElem?_append_right (Nat.le_refl _), Nat.sub_self, List.getElem?_cons_zero]

omit transitive linear ties in
theorem Leaders.length_eq {entries leaders : List α} (lead : Leaders le cls entries leaders) :
    leaders.length = (entries.map cls).dedup.length := by
  rw [← List.length_map cls]
  refine List.Perm.length_eq ((List.perm_ext_iff_of_nodup lead.distinct (List.nodup_dedup _)).mpr
    fun k => ?_)
  rw [List.mem_dedup, List.mem_map, List.mem_map]
  constructor
  · rintro ⟨a, mem, rfl⟩
    exact ⟨a, lead.within a mem, rfl⟩
  · rintro ⟨c, mem, rfl⟩
    exact lead.covers c mem

/-- No two entries tie for the lead of a class among the first `k`. -/
def Uncontested (le : α → α → Bool) (cls : α → κ) (k : Nat) (entries : List α) : Prop :=
  ∀ a ∈ entries, ∀ b ∈ entries, a ≠ b → tied le a b = true →
    (∀ c ∈ entries, cls c = cls a → le a c = true) → k ≤ aheadOf le cls entries a

omit transitive linear ties in
instance [DecidableEq α] (k : Nat) (entries : List α) :
    Decidable (Uncontested le cls k entries) :=
  inferInstanceAs (Decidable (∀ a ∈ entries, ∀ b ∈ entries, _ → _ → _ → _))

omit linear in
/-- Leaders that nobody contests are the same. -/
theorem Leaders.take_eq {entries leaders leaders' : List α} {k : Nat}
    (lead : Leaders le cls entries leaders) (lead' : Leaders le cls entries leaders')
    (apart : Uncontested le cls k entries) : leaders.take k = leaders'.take k := by
  have lengths : leaders.length = leaders'.length := lead.length_eq.trans lead'.length_eq.symm
  refine List.ext_getElem? fun r => ?_
  rw [List.getElem?_take, List.getElem?_take]
  split
  · rename_i within
    by_cases short : r < leaders.length
    · have mem : leaders[r] ∈ leaders := List.getElem_mem short
      obtain ⟨b, memB, same⟩ := lead'.covers _ (lead.within _ mem)
      have ab := lead.best _ mem b (lead'.within b memB) same
      have ba := lead'.best b memB _ (lead.within _ mem) same.symm
      have place := lead.getElem?_aheadOf transitive ties mem
      have here : r = aheadOf le cls entries leaders[r] := by
        obtain ⟨bound, value⟩ := List.getElem?_eq_some_iff.mp place
        exact ((lead.distinct.of_map _).getElem_inj_iff.mp value).symm
      have place' := lead'.getElem?_aheadOf transitive ties memB
      rw [← tied_symm_aheadOf transitive ab ba, ← here] at place'
      rw [List.getElem?_eq_getElem short, place']
      by_contra other
      have beyond := apart _ (lead.within _ mem) b (lead'.within b memB)
        (fun eq => other (by rw [← eq])) (by simp [tied, ab, ba])
        (fun c listed cls' => lead.best _ mem c listed cls')
      omega
    · rw [List.getElem?_eq_none (by omega), List.getElem?_eq_none (by omega)]
  · rfl

omit transitive linear ties in
theorem uncontested_perm {k : Nat} {entries entries' : List α} (perm : entries.Perm entries')
    (apart : Uncontested le cls k entries) : Uncontested le cls k entries' := by
  intro a memA b memB other tie leads
  have ahead : aheadOf le cls entries a = aheadOf le cls entries' a :=
    (((perm.filter _).map cls).dedup).length_eq
  rw [← ahead]
  exact apart a (perm.mem_iff.mpr memA) b (perm.mem_iff.mpr memB) other tie
    fun c mem => leads c (perm.mem_iff.mp mem)

omit transitive linear ties in
/-- A contest is one of the names under which the entries are ranked. -/
theorem uncontested_map_iff {β : Type u} {f : α → β} {le' : β → β → Bool} {cls' : β → κ} {k : Nat}
    {entries : List α} (distinct : (entries.map f).Nodup)
    (order : ∀ a ∈ entries, ∀ b ∈ entries, le' (f a) (f b) = le a b)
    (classes : ∀ a ∈ entries, cls' (f a) = cls a) :
    Uncontested le' cls' k (entries.map f) ↔ Uncontested le cls k entries := by
  have ahead : ∀ a ∈ entries,
      aheadOf le' cls' (entries.map f) (f a) = aheadOf le cls entries a := by
    intro a mem
    have same : ((entries.map f).filter fun c => !le' (f a) c).map cls' =
        (entries.filter fun c => !le a c).map cls := by
      rw [List.filter_map, List.map_map]
      rw [List.filter_congr (q := fun c => !le a c) fun c listed => by
        simp [order a mem c listed]]
      exact List.map_congr_left fun c listed => classes c (List.mem_filter.mp listed).1
    rw [aheadOf, aheadOf, same]
  constructor
  · intro apart a memA b memB other tie leads
    rw [← ahead a memA]
    refine apart _ (List.mem_map_of_mem memA) _ (List.mem_map_of_mem memB)
      (fun same => other (List.inj_on_of_nodup_map distinct memA memB same)) ?_ fun c mem same => ?_
    · rw [tied, order a memA b memB, order b memB a memA]
      exact tie
    · obtain ⟨c, listed, rfl⟩ := List.mem_map.mp mem
      rw [order a memA c listed]
      exact leads c listed (by rwa [classes a memA, classes c listed] at same)
  · intro apart x memX y memY other tie leads
    obtain ⟨a, memA, rfl⟩ := List.mem_map.mp memX
    obtain ⟨b, memB, rfl⟩ := List.mem_map.mp memY
    rw [ahead a memA]
    refine apart a memA b memB (fun same => other (by rw [same])) ?_ fun c mem same => ?_
    · rw [tied, order a memA b memB, order b memB a memA] at tie
      exact tie
    · rw [← order a memA c mem]
      exact leads _ (List.mem_map_of_mem mem) (by rw [classes a memA, classes c mem, same])

/-- The entry that stands first in the list leads its class if it can. -/
theorem mem_keepFirst_of_cons {entries rest : List α} {a : α} (perm : (a :: rest).Perm entries)
    (leads : ∀ c ∈ entries, cls c = cls a → le a c = true) :
    a ∈ keepFirst cls [] ((a :: rest).mergeSort le) := by
  have lead : Leaders le cls entries _ := keepFirst_leaders transitive linear perm
  obtain ⟨b, kept, same⟩ := lead.covers a (perm.mem_iff.mp List.mem_cons_self)
  have ab := leads b (lead.within b kept) same
  have ba := lead.best b kept a (perm.mem_iff.mp List.mem_cons_self) same.symm
  -- `b` is the first of its class after the sort, and `a` the first of its ties before it
  have sortedTies := filter_tied_mergeSort transitive linear (a :: rest) a
  have self : tied le a a = true := by
    have here := linear a a
    rw [Bool.or_self] at here
    simp [tied, here]
  rw [List.filter_cons_of_pos self] at sortedTies
  obtain ⟨-, front, back, split, earlier⟩ :=
    List.find?_eq_some_iff_append.mp (mem_keepFirst_iff.mp kept).2
  have none_ : front.filter (tied le a) = [] := by
    refine List.filter_eq_nil_iff.mpr fun c inFront tie => ?_
    rw [tied, Bool.and_eq_true] at tie
    have differs := earlier c inFront
    rw [Bool.not_eq_true', decide_eq_false_iff_not, same] at differs
    exact differs (ties a c tie.1 tie.2).symm
  rw [split, List.filter_append, none_, List.nil_append,
    List.filter_cons_of_pos (by simp [tied, ab, ba])] at sortedTies
  have first : b = a := (List.cons.inj sortedTies).1
  rwa [first] at kept

/-- **The ranking is the same for every order of the entries exactly when no two of them tie
for the lead of a class among the first `k`.** -/
theorem cut_perm_iff {entries : List α} (k : Nat) :
    (∀ l l' : List α, l.Perm entries → l'.Perm entries →
      (keepFirst cls [] (l.mergeSort le)).take k = (keepFirst cls [] (l'.mergeSort le)).take k) ↔
      Uncontested le cls k entries := by
  classical
  constructor
  · intro same a memA b memB other tie leads
    by_contra few
    rw [tied, Bool.and_eq_true] at tie
    have together : cls a = cls b := ties a b tie.1 tie.2
    have permA := (List.perm_cons_erase memA).symm
    have permB := (List.perm_cons_erase memB).symm
    have leadA : Leaders le cls entries _ := keepFirst_leaders transitive linear permA
    have keptA := mem_keepFirst_of_cons transitive linear ties permA leads
    have keptB := mem_keepFirst_of_cons transitive linear ties permB fun c mem cls' =>
      transitive b a c tie.2 (leads c mem (cls'.trans together.symm))
    have place := leadA.getElem?_aheadOf transitive ties keptA
    have inCut : a ∈ (keepFirst cls [] ((a :: entries.erase a).mergeSort le)).take k := by
      refine List.mem_iff_getElem?.mpr ⟨aheadOf le cls entries a, ?_⟩
      rw [List.getElem?_take, if_pos (Nat.lt_of_not_le few), place]
    rw [same _ _ permA permB] at inCut
    have distinct : ((keepFirst cls [] ((b :: entries.erase b).mergeSort le)).map cls).Nodup :=
      nodup_map_keepFirst _ _
    exact other (List.inj_on_of_nodup_map distinct (List.mem_of_mem_take inCut) keptB together)
  · intro apart l l' perm perm'
    exact (keepFirst_leaders transitive linear perm).take_eq transitive ties
      (keepFirst_leaders transitive linear perm') apart

end Leaders

end Ministr.Theory
