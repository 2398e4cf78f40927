/-
# Theory.StableSort — stable sorting does not depend on the order of the blocks

A list that is made of blocks, such as the rows of several files, is sorted by a key that
tells the blocks apart.  Elements the key does not order are then of one block, and a
stable sort leaves them as they stand there; so the sorted list does not depend on the
order of the blocks, and fewer blocks sort to a sublist.

Where the key leaves ties, `mergeSort_eq_iff` says which lists are sorted alike, and
`flatMap_perm_iff` which blocks can be put together in any order; `mergeSort_blocks_iff`
puts the two together.
-/
import Mathlib.Data.List.Sort

namespace Ministr.Theory

set_option autoImplicit false

universe u v

section StableSort

variable {α : Type u} {le : α → α → Bool}

/-- Two elements of a list without duplicates stand in one order only. -/
theorem not_pair_sublist_swap {l : List α} (distinct : l.Nodup) {a b : α} (ab : [a, b].Sublist l) :
    ¬ [b, a].Sublist l := by
  induction l with
  | nil => cases ab
  | cons c l ih =>
      obtain ⟨fresh, distinct⟩ := List.nodup_cons.mp distinct
      intro ba
      cases ab with
      | cons _ ab =>
          cases ba with
          | cons _ ba => exact ih distinct ab ba
          | cons_cons _ ba => exact fresh (ab.subset (by simp))
      | cons_cons _ ab =>
          cases ba with
          | cons _ ba => exact fresh (ba.subset (by simp))
          | cons_cons _ ba => exact fresh (List.singleton_sublist.mp ab)

theorem pair_sublist_or {l : List α} {a b : α} (here : a ∈ l) (there : b ∈ l) (other : a ≠ b) :
    [a, b].Sublist l ∨ [b, a].Sublist l := by
  induction l with
  | nil => cases here
  | cons c l ih =>
      rcases List.mem_cons.mp here with first | here
      · rcases List.mem_cons.mp there with second | there
        · exact absurd (first.trans second.symm) other
        · rw [← first]
          exact .inl ((List.singleton_sublist.mpr there).cons_cons a)
      · rcases List.mem_cons.mp there with second | there
        · rw [← second]
          exact .inr ((List.singleton_sublist.mpr here).cons_cons b)
        · exact (ih here there).imp (fun s => s.cons c) (fun s => s.cons c)

/-- What a stable sort leaves in order. -/
theorem pairwise_mergeSort_stable (transitive : ∀ a b c, le a b → le b c → le a c)
    (linear : ∀ a b, le a b || le b a) {l : List α} (distinct : l.Nodup) :
    (l.mergeSort le).Pairwise fun a b => le a b ∧ (le b a → [a, b].Sublist l) := by
  have sortedDistinct : (l.mergeSort le).Nodup := (List.mergeSort_perm l le).nodup_iff.mpr distinct
  rw [List.pairwise_iff_forall_sublist]
  intro a b ab
  have sorted : le a b := List.pairwise_iff_forall_sublist.mp
    (List.pairwise_mergeSort transitive linear l) ab
  refine ⟨sorted, fun tie => ?_⟩
  have other : a ≠ b := by
    rintro rfl
    exact not_pair_sublist_swap sortedDistinct ab ab
  have inList : ∀ c ∈ [a, b], c ∈ l := fun c mem => List.mem_mergeSort.mp (ab.subset mem)
  rcases pair_sublist_or (inList a (by simp)) (inList b (by simp)) other with before | after
  · exact before
  · exact absurd (List.pair_sublist_mergeSort transitive linear tie after)
      (not_pair_sublist_swap sortedDistinct ab)

/-- Fewer blocks sort to a sublist. -/
theorem mergeSort_sublist_of_blocks (transitive : ∀ a b c, le a b → le b c → le a c)
    (linear : ∀ a b, le a b || le b a) {κ : Type v} [DecidableEq κ] (key : α → κ)
    (ties : ∀ a b, le a b → le b a → key a = key b) {few many : List α} (distinct : few.Nodup)
    (distinct' : many.Nodup)
    (blocks : ∀ k, (few.filter fun a => key a = k).Sublist (many.filter fun a => key a = k)) :
    (few.mergeSort le).Sublist (many.mergeSort le) := by
  have within : few ⊆ many := by
    intro a mem
    have inBlock := (blocks (key a)).subset (List.mem_filter.mpr ⟨mem, decide_eq_true rfl⟩)
    exact (List.mem_filter.mp inBlock).1
  have perm : (few.mergeSort le).Subperm (many.mergeSort le) :=
    ((List.mergeSort_perm few le).subperm.trans (List.subperm_of_subset distinct within)).trans
      (List.mergeSort_perm many le).symm.subperm
  let before : α → α → Prop := fun a b => le a b ∧ (le b a → [a, b].Sublist many)
  have antisymm : Std.Antisymm before := by
    refine ⟨fun a b ab ba => ?_⟩
    exact absurd (ba.2 ab.1) (not_pair_sublist_swap distinct' (ab.2 ba.1))
  refine List.sublist_of_subperm_of_pairwise (r := before) perm ?_
    (pairwise_mergeSort_stable transitive linear distinct')
  refine (pairwise_mergeSort_stable transitive linear distinct).imp
    fun {a b} ab => ⟨ab.1, fun tie => ?_⟩
  have same : key a = key b := ties a b ab.1 tie
  have kept : [a, b].filter (fun c => key c = key b) = [a, b] := by simp [same]
  have inBlock := (ab.2 tie).filter fun c => key c = key b
  rw [kept] at inBlock
  exact (inBlock.trans (blocks (key b))).trans List.filter_sublist

end StableSort

/-! ## Sorting and ties -/

section Ties

variable {α : Type u} {le : α → α → Bool}

/-- Neither comes before the other. -/
def tied (le : α → α → Bool) (a b : α) : Bool := le a b && le b a

/-- A stable sort leaves tied elements in their order. -/
theorem filter_tied_mergeSort (transitive : ∀ a b c, le a b → le b c → le a c)
    (linear : ∀ a b, le a b || le b a) (l : List α) (a : α) :
    (l.mergeSort le).filter (tied le a) = l.filter (tied le a) := by
  have flat : (l.filter (tied le a)).Pairwise fun b c => le b c = true := by
    refine List.pairwise_of_forall_mem_list fun b memB c memC => ?_
    have tiedB := (List.mem_filter.mp memB).2
    have tiedC := (List.mem_filter.mp memC).2
    rw [tied, Bool.and_eq_true] at tiedB tiedC
    exact transitive b a c tiedB.2 tiedC.1
  have kept : (l.filter (tied le a)).Sublist ((l.mergeSort le).filter (tied le a)) := by
    have sub := (List.sublist_mergeSort transitive linear flat List.filter_sublist).filter (tied le a)
    simpa only [List.filter_filter, Bool.and_self] using sub
  exact (kept.eq_of_length (((List.mergeSort_perm l le).filter _).length_eq.symm)).symm

/-- Sorted lists that agree on their ties are equal. -/
theorem eq_of_filter_tied (linear : ∀ a b, le a b || le b a) {l l' : List α}
    (sorted : l.Pairwise fun a b => le a b = true) (sorted' : l'.Pairwise fun a b => le a b = true)
    (same : ∀ a, l.filter (tied le a) = l'.filter (tied le a)) : l = l' := by
  have reflexive : ∀ a, le a a = true := fun a => by simpa using linear a a
  have self : ∀ a, tied le a a = true := fun a => by simp [tied, reflexive]
  have mem_iff : ∀ a, a ∈ l ↔ a ∈ l' := by
    intro a
    have filtered := congrArg (a ∈ ·) (same a)
    simpa [List.mem_filter, self] using filtered
  induction l generalizing l' with
  | nil =>
      cases l' with
      | nil => rfl
      | cons a l' => cases (mem_iff a).mpr List.mem_cons_self
  | cons a l ih =>
      cases l' with
      | nil => cases (mem_iff a).mp List.mem_cons_self
      | cons a' l' =>
          obtain ⟨first, rest⟩ := List.pairwise_cons.mp sorted
          obtain ⟨first', rest'⟩ := List.pairwise_cons.mp sorted'
          have there : le a' a = true := by
            rcases List.mem_cons.mp ((mem_iff a).mp List.mem_cons_self) with rfl | mem
            · exact reflexive _
            · exact first' a mem
          have back : le a a' = true := by
            rcases List.mem_cons.mp ((mem_iff a').mpr List.mem_cons_self) with rfl | mem
            · exact reflexive _
            · exact first a' mem
          have heads : a = a' := by
            have here := same a
            rw [List.filter_cons_of_pos (self a),
              List.filter_cons_of_pos (by simp [tied, there, back])] at here
            exact (List.cons.inj here).1
          subst heads
          have tails : ∀ b, l.filter (tied le b) = l'.filter (tied le b) := by
            intro b
            have here := same b
            rw [List.filter_cons, List.filter_cons] at here
            split at here
            · exact (List.cons.inj here).2
            · exact here
          have mem_iff' : ∀ b, b ∈ l ↔ b ∈ l' := by
            intro b
            have filtered := congrArg (b ∈ ·) (tails b)
            simpa [List.mem_filter, self] using filtered
          rw [ih rest rest' tails mem_iff']

/-- **Two lists are sorted alike exactly when they agree on their ties.** -/
theorem mergeSort_eq_iff (transitive : ∀ a b c, le a b → le b c → le a c)
    (linear : ∀ a b, le a b || le b a) {l l' : List α} :
    l.mergeSort le = l'.mergeSort le ↔
      ∀ a, l.filter (tied le a) = l'.filter (tied le a) := by
  constructor
  · intro same a
    rw [← filter_tied_mergeSort transitive linear l, same,
      filter_tied_mergeSort transitive linear]
  · intro same
    refine eq_of_filter_tied linear (List.pairwise_mergeSort transitive linear l)
      (List.pairwise_mergeSort transitive linear l') fun a => ?_
    rw [filter_tied_mergeSort transitive linear, filter_tied_mergeSort transitive linear, same]

end Ties

/-! ## Blocks in any order -/

section Blocks

variable {α : Type u} {β : Type v}

/-- **Blocks can be put together in any order exactly when at most one holds something**;
`name` tells by an element which block it is of. -/
theorem flatMap_perm_iff {blocks : List α} {content : α → List β} (name : β → α)
    (named : ∀ a ∈ blocks, ∀ b ∈ content a, name b = a) (distinct : blocks.Nodup) :
    (∀ order : List α, order.Perm blocks → order.flatMap content = blocks.flatMap content) ↔
      ∀ a ∈ blocks, ∀ a' ∈ blocks, a ≠ a' → content a = [] ∨ content a' = [] := by
  constructor
  · intro same a mem a' mem' other
    by_contra held
    obtain ⟨notA, notA'⟩ := not_or.mp held
    obtain ⟨rest, perm⟩ : ∃ rest, (a :: a' :: rest).Perm blocks := by
      classical
      refine ⟨(blocks.erase a).erase a', ?_⟩
      have inRest : a' ∈ blocks.erase a := (List.mem_erase_of_ne (Ne.symm other)).mpr mem'
      exact ((List.perm_cons_erase inRest).symm.cons a).trans (List.perm_cons_erase mem).symm
    have one := same _ perm
    have two := same _ ((List.Perm.swap a a' rest).trans perm)
    rw [← one] at two
    simp only [List.flatMap_cons] at two
    obtain ⟨b, more, eq⟩ := List.exists_cons_of_ne_nil notA
    obtain ⟨b', more', eq'⟩ := List.exists_cons_of_ne_nil notA'
    simp only [eq, eq', List.cons_append, List.cons.injEq] at two
    have nameB := named a mem b (eq ▸ List.mem_cons_self)
    have nameB' := named a' mem' b' (eq' ▸ List.mem_cons_self)
    exact other (by rw [← nameB, ← nameB', two.1])
  · intro alone order perm
    by_cases empty : ∀ a ∈ blocks, content a = []
    · rw [List.flatMap_eq_nil_iff.mpr empty,
        List.flatMap_eq_nil_iff.mpr fun a mem => empty a (perm.mem_iff.mp mem)]
    · push Not at empty
      obtain ⟨a, mem, held⟩ := empty
      have only : ∀ order : List α, order.Nodup → a ∈ order →
          (∀ a' ∈ order, a' ∈ blocks) → order.flatMap content = content a := by
        intro order nodup there within
        obtain ⟨front, back, rfl⟩ := List.append_of_mem there
        have others : ∀ a' ∈ front ++ back, content a' = [] := by
          intro a' mem'
          have ne : a' ≠ a := by
            rintro rfl
            rw [List.nodup_middle, List.nodup_cons] at nodup
            exact nodup.1 mem'
          have listed : a' ∈ blocks := within a' (by
            rcases List.mem_append.mp mem' with mem' | mem'
            · exact List.mem_append_left _ mem'
            · exact List.mem_append_right _ (List.mem_cons_of_mem _ mem'))
          exact (alone a' listed a mem ne).resolve_right held
        rw [List.flatMap_append, List.flatMap_cons,
          List.flatMap_eq_nil_iff.mpr fun a' mem' => others a' (List.mem_append_left _ mem'),
          List.flatMap_eq_nil_iff.mpr fun a' mem' => others a' (List.mem_append_right _ mem')]
        simp
      rw [only order (perm.nodup_iff.mpr distinct) (perm.mem_iff.mpr mem)
        fun a' mem' => perm.mem_iff.mp mem', only blocks distinct mem fun _ mem' => mem']

/-- **Sorting blocks gives the same list for every order of the blocks exactly when no two
blocks hold tied elements.** -/
theorem mergeSort_blocks_iff {le : β → β → Bool} (transitive : ∀ a b c, le a b → le b c → le a c)
    (linear : ∀ a b, le a b || le b a) {blocks : List α} {content : α → List β} (name : β → α)
    (named : ∀ a ∈ blocks, ∀ b ∈ content a, name b = a) (distinct : blocks.Nodup)
    (front back : List β) :
    (∀ order : List α, order.Perm blocks →
      (front ++ order.flatMap content ++ back).mergeSort le =
        (front ++ blocks.flatMap content ++ back).mergeSort le) ↔
      ∀ a ∈ blocks, ∀ a' ∈ blocks, a ≠ a' → ∀ b ∈ content a, ∀ b' ∈ content a',
        tied le b b' = false := by
  have perTie : ∀ order : List α,
      ((front ++ order.flatMap content ++ back).mergeSort le =
        (front ++ blocks.flatMap content ++ back).mergeSort le ↔
      ∀ b, (order.flatMap fun a => (content a).filter (tied le b)) =
        blocks.flatMap fun a => (content a).filter (tied le b)) := by
    intro order
    rw [mergeSort_eq_iff transitive linear]
    simp only [List.filter_append, List.append_cancel_left_eq, List.append_cancel_right_eq,
      List.filter_flatMap]
  have swap : (∀ order : List α, order.Perm blocks →
      (front ++ order.flatMap content ++ back).mergeSort le =
        (front ++ blocks.flatMap content ++ back).mergeSort le) ↔
      ∀ b, ∀ a ∈ blocks, ∀ a' ∈ blocks, a ≠ a' →
        (content a).filter (tied le b) = [] ∨ (content a').filter (tied le b) = [] := by
    constructor
    · intro same b
      refine (flatMap_perm_iff name (fun a mem b' inside => ?_) distinct).mp
        fun order perm => (perTie order).mp (same order perm) b
      exact named a mem b' (List.mem_filter.mp inside).1
    · intro alone order perm
      refine (perTie order).mpr fun b => ?_
      refine (flatMap_perm_iff name (fun a mem b' inside => ?_) distinct).mpr
        (alone b) order perm
      exact named a mem b' (List.mem_filter.mp inside).1
  rw [swap]
  constructor
  · intro alone a mem a' mem' other b inside b' inside'
    by_contra tie
    rw [Bool.not_eq_false] at tie
    have self : tied le b b = true := by
      have here := linear b b
      rw [Bool.or_self] at here
      simp [tied, here]
    rcases alone b a mem a' mem' other with empty | empty
    · exact absurd (List.filter_eq_nil_iff.mp empty b inside) (by simp [self])
    · exact absurd (List.filter_eq_nil_iff.mp empty b' inside') (by simp [tie])
  · intro apart b a mem a' mem' other
    by_contra held
    obtain ⟨some_, some'⟩ := not_or.mp held
    obtain ⟨x, memX⟩ := List.exists_mem_of_ne_nil _ some_
    obtain ⟨y, memY⟩ := List.exists_mem_of_ne_nil _ some'
    obtain ⟨inX, tieX⟩ := List.mem_filter.mp memX
    obtain ⟨inY, tieY⟩ := List.mem_filter.mp memY
    rw [tied, Bool.and_eq_true] at tieX tieY
    have tie : tied le x y = true := by
      simp [tied, transitive x b y tieX.2 tieY.1, transitive y b x tieY.2 tieX.1]
    rw [apart a mem a' mem' other x inX y inY] at tie
    cases tie

end Blocks

end Ministr.Theory
