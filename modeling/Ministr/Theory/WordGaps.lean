/-
# Theory.WordGaps — texts with the same words, whatever follows

Two texts have the same gist when they have the same words whatever is written behind them
(`SameGist`).  How many separators stand in a row does not matter to it, so a writer that adds and
leaves out separators is followed step by step.

Of the characters of a text some are kept and some are dropped.  What is kept has the words of the
text exactly where only separators are dropped, and of those between two letters one is kept
(`words_kept_iff`).
-/
import Ministr.Theory.Words

namespace Ministr.Theory

set_option autoImplicit false

universe u

section Gist

variable {α : Type u} {sep : α → Bool} {x y z t : List α} {a b : α}

/-- The same words, whatever follows. -/
def SameGist (sep : α → Bool) (x y : List α) : Prop :=
  ∀ z, words sep (x ++ z) = words sep (y ++ z)

namespace SameGist

theorem refl (x : List α) : SameGist sep x x := fun _ => rfl

theorem symm (same : SameGist sep x y) : SameGist sep y x := fun z => (same z).symm

theorem trans (first : SameGist sep x y) (second : SameGist sep y z) : SameGist sep x z :=
  fun w => (first w).trans (second w)

theorem append (same : SameGist sep x y) (t : List α) : SameGist sep (x ++ t) (y ++ t) := fun z => by
  rw [List.append_assoc, List.append_assoc]
  exact same (t ++ z)

theorem words_eq (same : SameGist sep x y) : words sep x = words sep y := by
  simpa using same []

/-- One separator is as good as another. -/
theorem concat (x : List α) (first : sep a) (second : sep b) :
    SameGist sep (x ++ [a]) (x ++ [b]) := fun z => by
  rw [List.append_assoc, List.append_assoc, List.singleton_append, List.singleton_append,
    words_append_cons x z first, words_append_cons x z second]

/-- Separators behind a separator say nothing. -/
theorem absorb (x : List α) (first : sep a) (seps : ∀ c ∈ t, sep c) :
    SameGist sep (x ++ a :: t) (x ++ [a]) := by
  induction t with
  | nil => exact refl _
  | cons b t ih =>
      intro z
      have later := ih fun c mem => seps c (List.mem_cons_of_mem _ mem)
      have second := seps b List.mem_cons_self
      rw [← later z, List.append_assoc, List.append_assoc, List.cons_append, List.cons_append,
        List.cons_append, words_append_cons x _ first, words_append_cons x _ first,
        words_cons _ second]

/-- Nor do they in front of one. -/
theorem absorb_front (x : List α) (first : sep a) (seps : ∀ c ∈ t, sep c) :
    SameGist sep (x ++ (t ++ [a])) (x ++ [a]) := by
  cases t with
  | nil => exact refl _
  | cons b t =>
      have second := seps b List.mem_cons_self
      refine (absorb x second fun c mem => ?_).trans (concat x second first)
      rcases List.mem_append.mp mem with inside | last
      · exact seps c (List.mem_cons_of_mem _ inside)
      · rw [List.mem_singleton.mp last]
        exact first

/-- A text of separators says nothing. -/
theorem of_seps (seps : ∀ c ∈ t, sep c) : SameGist sep t [] := by
  induction t with
  | nil => exact refl _
  | cons b t ih =>
      intro z
      rw [List.cons_append, words_cons _ (seps b List.mem_cons_self)]
      exact ih (fun c mem => seps c (List.mem_cons_of_mem _ mem)) z

end SameGist

/-- A text that a separator says nothing behind: it is empty or ends in one. -/
def Closed (sep : α → Bool) (x : List α) : Prop :=
  ∀ t, (∀ c ∈ t, sep c) → SameGist sep (x ++ t) x

theorem closed_of_seps (seps : ∀ c ∈ x, sep c) : Closed sep x := fun t rest => by
  refine (SameGist.of_seps fun c mem => ?_).trans (SameGist.of_seps seps).symm
  rcases List.mem_append.mp mem with first | second
  · exact seps c first
  · exact rest c second

theorem closed_concat (x : List α) (separates : sep a) : Closed sep (x ++ [a]) := fun t seps => by
  rw [List.append_assoc, List.singleton_append]
  exact SameGist.absorb x separates seps

theorem Closed.congr (closed : Closed sep x) (same : SameGist sep x y) : Closed sep y :=
  fun t seps => ((same.append t).symm.trans (closed t seps)).trans same

end Gist

/-! ## What is kept -/

section Kept

variable {α : Type u} {sep : α → Bool}

/-- The characters that are kept. -/
def kept (l : List (α × Bool)) : List α := (l.filter Prod.snd).map Prod.fst

@[simp] theorem kept_nil : kept ([] : List (α × Bool)) = [] := rfl

@[simp] theorem kept_cons_true (a : α) (l : List (α × Bool)) : kept ((a, true) :: l) = a :: kept l :=
  rfl

@[simp] theorem kept_cons_false (a : α) (l : List (α × Bool)) : kept ((a, false) :: l) = kept l := rfl

@[simp] theorem kept_append (l l' : List (α × Bool)) : kept (l ++ l') = kept l ++ kept l' := by
  rw [kept, List.filter_append, List.map_append, ← kept, ← kept]

/-- Between two letters that something stands between, something is kept. -/
def GapsKept (sep : α → Bool) (l : List (α × Bool)) : Prop :=
  ∀ before a gap b after, l = before ++ a :: (gap ++ b :: after) → sep a.1 = false →
    sep b.1 = false → gap ≠ [] → (∀ g ∈ gap, sep g.1) → ∃ g ∈ gap, g.2 = true

/-- Only separators are dropped, and of those between two letters one is kept. -/
structure KeptApart (sep : α → Bool) (l : List (α × Bool)) : Prop where
  letters : ∀ x ∈ l, sep x.1 = false → x.2 = true
  gaps : GapsKept sep l

/-- A letter, and the word that it starts. -/
theorem words_cons_letter {a : α} (letter : sep a = false) (text : List α) :
    words sep (a :: text) =
      (a :: text.takeWhile fun c => !sep c) :: words sep (text.dropWhile fun c => !sep c) := by
  have letters : ∀ c ∈ a :: text.takeWhile (fun c => !sep c), sep c = false := by
    intro c mem
    rcases List.mem_cons.mp mem with rfl | inside
    · exact letter
    · simpa using List.mem_takeWhile_imp inside
  have word : words sep (a :: text.takeWhile fun c => !sep c) =
      [a :: text.takeWhile fun c => !sep c] := words_single letters (List.cons_ne_nil _ _)
  have whole : a :: text = (a :: text.takeWhile fun c => !sep c) ++ text.dropWhile fun c => !sep c := by
    rw [List.cons_append, List.takeWhile_append_dropWhile]
  conv_lhs => rw [whole]
  cases rest : text.dropWhile fun c => !sep c with
  | nil => rw [List.append_nil, word, words_nil]
  | cons s rest' =>
      have separates : sep s := by
        have first := List.head?_dropWhile_not (fun c => !sep c) text
        rw [rest] at first
        simpa using first
      rw [words_append_cons _ _ separates, word, words_cons _ separates]
      rfl

theorem words_letter_sep {a s : α} (letter : sep a = false) (separates : sep s) (text : List α) :
    words sep (a :: s :: text) = [a] :: words sep (s :: text) := by
  rw [words_cons_letter letter, List.takeWhile_cons_of_neg (by simp [separates]),
    List.dropWhile_cons_of_neg (by simp [separates])]

theorem words_letter_letter {a b : α} (letter : sep a = false) (letter' : sep b = false)
    (text : List α) :
    ∃ word rest, words sep (b :: text) = (b :: word) :: rest ∧
      words sep (a :: b :: text) = (a :: b :: word) :: rest := by
  refine ⟨_, _, words_cons_letter letter' text, ?_⟩
  rw [words_cons_letter letter, List.takeWhile_cons_of_pos (by simp [letter']),
    List.dropWhile_cons_of_pos (by simp [letter'])]

/-- What stands in front of the first letter is not lost. -/
def FirstGapKept (sep : α → Bool) (l : List (α × Bool)) : Prop :=
  ∀ gap b after, l = gap ++ b :: after → sep b.1 = false → gap ≠ [] → (∀ g ∈ gap, sep g.1) →
    ∃ g ∈ gap, g.2 = true

theorem gapsKept_cons {x : α × Bool} {l : List (α × Bool)} :
    GapsKept sep (x :: l) ↔ GapsKept sep l ∧ (sep x.1 = false → FirstGapKept sep l) := by
  constructor
  · intro gaps
    refine ⟨fun before a gap b after whole => ?_, fun letter gap b after whole => ?_⟩
    · exact gaps (x :: before) a gap b after (by rw [whole, List.cons_append])
    · exact gaps [] x gap b after (by rw [whole, List.nil_append]) letter
  · rintro ⟨gaps, first⟩ before a gap b after whole letter
    cases before with
    | nil =>
        obtain ⟨rfl, behind⟩ := List.cons.inj whole
        exact first letter gap b after behind
    | cons y before => exact gaps before a gap b after (List.cons.inj whole).2 letter

/-- A letter that is kept and first of what is kept has only dropped characters in front of it. -/
theorem kept_eq_cons {l : List (α × Bool)} {b : α} {rest : List α} (first : kept l = b :: rest) :
    ∃ gap after, l = gap ++ (b, true) :: after ∧ ∀ g ∈ gap, g.2 = false := by
  induction l with
  | nil => cases first
  | cons x l ih =>
      obtain ⟨c, k⟩ := x
      cases k with
      | true =>
          obtain ⟨rfl, -⟩ := List.cons.inj first
          exact ⟨[], l, rfl, nofun⟩
      | false =>
          obtain ⟨gap, after, rfl, dropped⟩ := ih first
          exact ⟨(c, false) :: gap, after, rfl, List.forall_mem_cons.mpr ⟨rfl, dropped⟩⟩

section FirstGap

variable {l : List (α × Bool)} {d : α} {rest : List α}

/-- There is no gap in front of a letter. -/
theorem firstGapKept_of_letter {y : α × Bool} (letter : sep y.1 = false) :
    FirstGapKept sep (y :: l) := by
  intro gap b after whole _ held seps
  cases gap with
  | nil => exact absurd rfl held
  | cons g gap =>
      have first := seps g List.mem_cons_self
      rw [← (List.cons.inj whole).1, letter] at first
      cases first

/-- If nothing is kept, there is no letter. -/
theorem firstGapKept_of_nil (letters : ∀ x ∈ l, sep x.1 = false → x.2 = true)
    (none : kept l = []) : FirstGapKept sep l := by
  rintro gap b after rfl letter
  have isKept := letters b (by simp) letter
  have mem : b ∈ (gap ++ b :: after).filter Prod.snd := List.mem_filter.mpr ⟨by simp, isKept⟩
  rw [List.map_eq_nil_iff.mp none] at mem
  cases mem

/-- A separator that is kept first stands in the gap. -/
theorem firstGapKept_of_sep (letters : ∀ x ∈ l, sep x.1 = false → x.2 = true)
    (first : kept l = d :: rest) (separates : sep d) : FirstGapKept sep l := by
  rintro gap b after rfl letter - -
  have isKept := letters b (by simp) letter
  by_contra none
  push Not at none
  have gone : gap.filter Prod.snd = [] := List.filter_eq_nil_iff.mpr none
  rw [kept_append, kept, gone, List.map_nil, List.nil_append, kept,
    List.filter_cons_of_pos isKept, List.map_cons] at first
  rw [(List.cons.inj first).1, separates] at letter
  cases letter

/-- A letter that is kept first has lost the gap in front of it. -/
theorem not_firstGapKept (letters : ∀ x ∈ l, sep x.1 = false → x.2 = true)
    (first : kept l = d :: rest) (letter : sep d = false) {y : α × Bool} (head : l.head? = some y)
    (separates : sep y.1) : ¬ FirstGapKept sep l := by
  obtain ⟨gap, after, rfl, dropped⟩ := kept_eq_cons first
  have held : gap ≠ [] := by
    rintro rfl
    rw [List.nil_append, List.head?_cons, Option.some.injEq] at head
    rw [← head, letter] at separates
    cases separates
  have seps : ∀ g ∈ gap, sep g.1 := fun g mem => by
    by_contra isLetter
    rw [Bool.not_eq_true] at isLetter
    have isKept := letters g (by simp [mem]) isLetter
    rw [dropped g mem] at isKept
    cases isKept
  intro gapKept
  obtain ⟨g, mem, isKept⟩ := gapKept gap (d, true) after rfl letter held seps
  rw [dropped g mem] at isKept
  cases isKept

end FirstGap

/-- Behind a letter, the words stay exactly where the gap does. -/
theorem words_letter_iff {a : α} {l : List (α × Bool)} (letter : sep a = false)
    (letters : ∀ x ∈ l, sep x.1 = false → x.2 = true) :
    words sep (a :: l.map Prod.fst) = words sep (a :: kept l) ↔
      words sep (l.map Prod.fst) = words sep (kept l) ∧ FirstGapKept sep l := by
  cases l with
  | nil => exact iff_of_true rfl ⟨rfl, firstGapKept_of_nil letters rfl⟩
  | cons y l =>
      obtain ⟨c, k⟩ := y
      by_cases next : sep c
      · rw [List.map_cons, words_letter_sep letter next]
        cases rest : kept ((c, k) :: l) with
        | nil =>
            rw [words_nil, words_cons_letter letter, and_iff_left (firstGapKept_of_nil letters rest)]
            simp
        | cons d rest' =>
            by_cases white : sep d
            · rw [words_letter_sep letter white, and_iff_left (firstGapKept_of_sep letters rest white)]
              simp
            · rw [Bool.not_eq_true] at white
              obtain ⟨word, words', -, longer⟩ := words_letter_letter letter white rest'
              rw [longer]
              refine iff_of_false (fun same => by simp at same) fun both => ?_
              exact not_firstGapKept letters rest white rfl next both.2
      · rw [Bool.not_eq_true] at next
        obtain rfl : k = true := letters (c, k) List.mem_cons_self next
        obtain ⟨word, words', isWord, longer⟩ := words_letter_letter letter next (l.map Prod.fst)
        obtain ⟨word', words'', isWord', longer'⟩ := words_letter_letter letter next (kept l)
        rw [kept_cons_true, List.map_cons, longer, longer', isWord, isWord',
          and_iff_left (firstGapKept_of_letter next)]
        simp

theorem words_kept_gaps {l : List (α × Bool)} (letters : ∀ x ∈ l, sep x.1 = false → x.2 = true) :
    words sep (l.map Prod.fst) = words sep (kept l) ↔ GapsKept sep l := by
  induction l with
  | nil => exact iff_of_true rfl fun before a gap b after whole => by simp at whole
  | cons x l ih =>
      have behind : ∀ y ∈ l, sep y.1 = false → y.2 = true := fun y mem =>
        letters y (List.mem_cons_of_mem _ mem)
      obtain ⟨a, k⟩ := x
      rw [gapsKept_cons, ← ih behind, List.map_cons]
      by_cases separates : sep a
      · have tail : words sep (kept ((a, k) :: l)) = words sep (kept l) := by
          cases k with
          | true => exact words_cons _ separates
          | false => rfl
        rw [words_cons _ separates, tail, iff_self_and]
        intro _ letter
        rw [separates] at letter
        cases letter
      · rw [Bool.not_eq_true] at separates
        obtain rfl : k = true := letters _ List.mem_cons_self separates
        rw [kept_cons_true, words_letter_iff separates behind, forall_prop_of_true separates]

/-- The letters of the words are those of the text. -/
theorem flatten_words (text : List α) : (words sep text).flatten = text.filter fun a => !sep a := by
  induction text with
  | nil => rfl
  | cons a text ih =>
      by_cases separates : sep a
      · rw [words_cons _ separates, ih, List.filter_cons_of_neg (by simp [separates])]
      · rw [Bool.not_eq_true] at separates
        rw [List.filter_cons_of_pos (by simp [separates]), ← ih]
        cases text with
        | nil => simp [words_cons_letter separates]
        | cons b text =>
            by_cases next : sep b
            · rw [words_letter_sep separates next, List.flatten_cons]
              rfl
            · rw [Bool.not_eq_true] at next
              obtain ⟨word, rest, isWord, longer⟩ := words_letter_letter separates next text
              rw [longer, isWord, List.flatten_cons, List.flatten_cons]
              rfl

theorem letter_of_mem_words {text word : List α} (mem : word ∈ words sep text) :
    ∀ c ∈ word, sep c = false := by
  intro c inWord
  have letter : c ∈ text.filter fun a => !sep a := by
    rw [← flatten_words]
    exact List.mem_flatten.mpr ⟨word, mem, inWord⟩
  simpa using (List.mem_filter.mp letter).2

/-- **What is kept has the words of the text exactly where only separators are dropped, and of those
between two letters one is kept.** -/
theorem words_kept_iff {l : List (α × Bool)} :
    words sep (kept l) = words sep (l.map Prod.fst) ↔ KeptApart sep l := by
  constructor
  · intro same
    have letters : ∀ x ∈ l, sep x.1 = false → x.2 = true := by
      have lengths := congrArg (fun ws => ws.flatten.length) same
      simp only [flatten_words, kept, List.filter_map, List.length_map] at lengths
      rw [List.filter_comm, List.length_filter_eq_length_iff] at lengths
      exact fun x mem letter => lengths x (List.mem_filter.mpr ⟨mem, by simp [letter]⟩)
    exact ⟨letters, (words_kept_gaps letters).mp same.symm⟩
  · exact fun apart => ((words_kept_gaps apart.letters).mpr apart.gaps).symm

end Kept

end Ministr.Theory
