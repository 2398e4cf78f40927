/-
# Parser.HtmlRead — when a page keeps its words and its code

The words of the output are those of the page exactly where what the fates keep is enough, and its
blocks hold the lines of the code exactly where every block is written and its code is not one that
the clean-up changes (`convert_keeps_iff`).
-/
import Ministr.Parser.HtmlClean

namespace Ministr.Parser.HtmlToMd

open Ministr.Theory Ministr.Content Ministr.Git

set_option autoImplicit false

/-! ## Lines of code -/

/-- Two blank lines in a row. -/
def BothBlank (l l' : List Char) : Prop := l.all isWhitespace = true ∧ l'.all isWhitespace = true

/-- The clean-up leaves the code as it is: there is some, no line ends in a carriage return, blank
lines are empty, and none of them is behind another. -/
structure Verbatim (code : List Char) : Prop where
  held : code ≠ []
  returns : ∀ l ∈ textLines code, dropCr l = l
  blank : ∀ l ∈ textLines code, l.all isWhitespace = true → l = []
  apart : (textLines code).IsChain fun l l' => ¬ BothBlank l l'

/-- The lines of a block, as they are read back. -/
def readLines (code : List Char) : List (List Char) :=
  (squeezeLines 0 (textLines (ended code))).map dropCr

section Lines

variable {code : List Char} {lines : List (List Char)}

theorem mem_squeezeLines {blanks : Nat} : ∀ l ∈ squeezeLines blanks lines, l ∈ lines ∨ l = [] := by
  induction lines generalizing blanks with
  | nil => exact nofun
  | cons line lines ih =>
      intro l mem
      have later : ∀ {b : Nat}, l ∈ squeezeLines b lines → l ∈ line :: lines ∨ l = [] := fun mem =>
        (ih l mem).imp_left (List.mem_cons_of_mem _)
      rw [squeezeLines] at mem
      split at mem
      · split at mem
        · rcases List.mem_cons.mp mem with rfl | behind
          · exact .inr rfl
          · exact later behind
        · exact later mem
      · rcases List.mem_cons.mp mem with rfl | behind
        · exact .inl List.mem_cons_self
        · exact later behind

theorem length_squeezeLines (blanks : Nat) (lines : List (List Char)) :
    (squeezeLines blanks lines).length ≤ lines.length := by
  induction lines generalizing blanks with
  | nil => exact Nat.le_refl _
  | cons line lines ih =>
      rw [squeezeLines, List.length_cons]
      split
      · split
        · exact Nat.succ_le_succ (ih _)
        · exact Nat.le_succ_of_le (ih _)
      · exact Nat.succ_le_succ (ih _)

/-- A line as the clean-up writes it. -/
def emptied (line : List Char) : List Char := if line.all isWhitespace then [] else line

/-- No line is lost exactly where no blank line is behind another. -/
theorem length_squeezeLines_eq (blanks : Nat) (lines : List (List Char)) :
    (squeezeLines blanks lines).length = lines.length ↔
      (0 < blanks → ∀ l ∈ lines.head?, l.all isWhitespace = false) ∧
        lines.IsChain fun l l' => ¬ BothBlank l l' := by
  induction lines generalizing blanks with
  | nil => exact iff_of_true rfl ⟨fun _ => nofun, .nil⟩
  | cons line lines ih =>
      rw [squeezeLines, List.isChain_cons]
      by_cases blank : line.all isWhitespace = true
      · rw [if_pos blank]
        rcases Nat.eq_zero_or_pos blanks with rfl | some
        · rw [if_pos rfl, List.length_cons, List.length_cons, Nat.succ_inj, ih]
          simp [BothBlank, blank]
        · have fewer := length_squeezeLines (blanks + 1) lines
          rw [if_neg (by omega), List.length_cons]
          refine iff_of_false (by omega) fun both => ?_
          rw [both.1 some line rfl] at blank
          cases blank
      · rw [if_neg blank, List.length_cons, List.length_cons, Nat.succ_inj, ih]
        constructor
        · rintro ⟨-, chain⟩
          refine ⟨fun _ l first => ?_, fun _ _ both => blank both.1, chain⟩
          rw [← Option.some.inj first]
          exact Bool.eq_false_of_not_eq_true blank
        · exact fun both => ⟨fun some => absurd some (Nat.lt_irrefl 0), both.2.2⟩

/-- If none is lost, the blank ones are emptied. -/
theorem squeezeLines_eq_map {blanks : Nat}
    (whole : (squeezeLines blanks lines).length = lines.length) :
    squeezeLines blanks lines = lines.map emptied := by
  induction lines generalizing blanks with
  | nil => rfl
  | cons line lines ih =>
      have fewer := length_squeezeLines (blanks + 1) lines
      rw [squeezeLines, List.length_cons] at whole
      rw [squeezeLines, List.map_cons, emptied]
      by_cases blank : line.all isWhitespace = true
      · rw [if_pos blank] at whole ⊢
        rw [if_pos blank]
        rcases Nat.eq_zero_or_pos blanks with rfl | some
        · rw [if_pos rfl] at whole ⊢
          rw [ih (Nat.succ.inj whole)]
        · rw [if_neg (by omega)] at whole
          omega
      · rw [if_neg blank] at whole ⊢
        rw [if_neg blank, ih (Nat.succ.inj whole)]

theorem textLines_ofLines_append (whole : ∀ l ∈ lines, '\n' ∉ l) {last : List Char}
    (open_ : '\n' ∉ last) (held : last ≠ []) :
    textLines (ofLines lines ++ last) = lines.map dropCr ++ [last] := by
  have pieces : (ofLines lines ++ last).splitOn '\n' = lines ++ [last] := by
    induction lines with
    | nil =>
        refine List.splitOnP_eq_singleton fun c mem => ?_
        rw [beq_eq_false_iff_ne]
        rintro rfl
        exact open_ mem
    | cons l lines ih =>
        rw [ofLines, List.flatMap_cons, List.append_assoc, List.append_assoc, List.singleton_append,
          List.splitOn_append_cons_self_of_not_mem (whole l List.mem_cons_self), ← ofLines,
          ih fun l mem => whole l (List.mem_cons_of_mem _ mem), List.cons_append]
  rw [textLines, pieces]
  simp [held]

/-- A line of the text, and the line that the clean-up finds. -/
def Found (found line : List Char) : Prop := found = line ∨ found = dropCr line

/-- The last line may lose a carriage return. -/
theorem textLines_ended (held : code ≠ []) :
    List.Forall₂ Found (textLines (ended code)) (textLines code) := by
  have same : ∀ ls : List (List Char), List.Forall₂ Found ls ls := fun ls =>
    List.forall₂_same.mpr fun _ _ => .inl rfl
  rw [ended]
  split
  · exact same _
  · rename_i other
    obtain ⟨lines, last, whole, open_, rfl⟩ := exists_ofLines_append code
    have rest : last ≠ [] := by
      rintro rfl
      rcases List.eq_nil_or_concat' lines with rfl | ⟨init, l, rfl⟩
      · exact held rfl
      · refine other ?_
        rw [List.append_nil, ofLines, List.flatMap_append, List.flatMap_singleton,
          ← List.append_assoc, List.getLast?_concat]
    have closed : textLines (ofLines lines ++ last ++ ['\n']) =
        lines.map dropCr ++ [dropCr last] := by
      have all : ∀ l ∈ lines ++ [last], '\n' ∉ l := fun l mem => by
        rcases List.mem_append.mp mem with inside | here
        · exact whole l inside
        · rw [List.mem_singleton.mp here]
          exact open_
      have shape : ofLines lines ++ last ++ ['\n'] = ofLines (lines ++ [last]) := by simp [ofLines]
      rw [shape]
      exact (textLines_ofLines all).trans (by simp)
    rw [closed, textLines_ofLines_append whole open_ rest]
    exact List.rel_append (same _) (.cons (.inr rfl) .nil)

theorem dropCr_fixed {l : List Char} (same : dropCr (dropCr l) = l) : dropCr l = l := by
  have shorter : ∀ l, (dropCr l).length ≤ l.length := fun l => by
    rw [dropCr]
    split
    · rw [List.length_dropLast]
      omega
    · exact Nat.le_refl _
  by_cases last : l.getLast? = some '\r'
  · have length := congrArg List.length same
    have inner := shorter (dropCr l)
    have dropped : dropCr l = l.dropLast := if_pos last
    have held : l.length ≠ 0 := by
      intro empty
      rw [List.eq_nil_of_length_eq_zero empty] at last
      cases last
    rw [dropped, List.length_dropLast] at inner
    rw [dropped] at length
    omega
  · exact if_neg last

/-- Lines that are read as they are found and emptied are found as they are. -/
theorem found_eq {found : List (List Char)} (each : List.Forall₂ Found found lines)
    (read : (found.map emptied).map dropCr = lines) :
    found = lines ∧ ∀ l ∈ lines, dropCr l = l ∧ (l.all isWhitespace = true → l = []) := by
  induction each with
  | nil => exact ⟨rfl, nofun⟩
  | @cons m l found lines first _ ih =>
      obtain ⟨isLine, behind⟩ := List.cons.inj read
      obtain ⟨rfl, rest⟩ := ih behind
      have own : m = l ∧ dropCr l = l ∧ (l.all isWhitespace = true → l = []) := by
        by_cases blank : m.all isWhitespace = true
        · rw [emptied, if_pos blank] at isLine
          have empty : l = [] := isLine.symm
          subst empty
          exact ⟨first.elim id id, rfl, fun _ => rfl⟩
        · rw [emptied, if_neg blank] at isLine
          rcases first with rfl | dropped
          · exact ⟨rfl, isLine, fun white => absurd white blank⟩
          · rw [dropped] at isLine
            have fixed := dropCr_fixed isLine
            have same : m = l := dropped.trans fixed
            exact ⟨same, fixed, fun white => absurd (same ▸ white) blank⟩
      obtain ⟨rfl, facts⟩ := own
      exact ⟨rfl, List.forall_mem_cons.mpr ⟨facts, rest⟩⟩

/-- **The lines of a block are those of its code exactly where the clean-up leaves it as it is.** -/
theorem readLines_eq_iff (code : List Char) : readLines code = textLines code ↔ Verbatim code := by
  by_cases empty : code = []
  · subst empty
    exact iff_of_false (by decide) fun verbatim => verbatim.held rfl
  · have each := textLines_ended empty
    constructor
    · intro read
      have sizes := congrArg List.length read
      rw [readLines, List.length_map] at sizes
      have whole : (squeezeLines 0 (textLines (ended code))).length =
          (textLines (ended code)).length := sizes.trans each.length_eq.symm
      rw [readLines, squeezeLines_eq_map whole] at read
      obtain ⟨same, facts⟩ := found_eq each read
      have chain := ((length_squeezeLines_eq 0 _).mp whole).2
      rw [same] at chain
      exact ⟨empty, fun l mem => (facts l mem).1, fun l mem => (facts l mem).2, chain⟩
    · intro verbatim
      have same : textLines (ended code) = textLines code := by
        have eq : ∀ {ls ls' : List (List Char)}, List.Forall₂ Found ls ls' →
            (∀ l ∈ ls', dropCr l = l) → ls = ls' := fun each fixed => by
          induction each with
          | nil => rfl
          | @cons m l ls ls' first _ ih =>
              rw [ih fun l mem => fixed l (List.mem_cons_of_mem _ mem)]
              rcases first with rfl | dropped
              · rfl
              · rw [dropped, fixed l List.mem_cons_self]
        exact eq each verbatim.returns
      have whole := (length_squeezeLines_eq 0 (textLines code)).mpr
        ⟨fun some => absurd some (Nat.lt_irrefl 0), verbatim.apart⟩
      have emptiedSame : (textLines code).map emptied = textLines code := by
        refine (List.map_congr_left fun l mem => ?_).trans (List.map_id _)
        rw [emptied]
        split
        · rename_i blank
          exact (verbatim.blank l mem blank).symm
        · rfl
      have returnsSame : (textLines code).map dropCr = textLines code :=
        (List.map_congr_left fun l mem => verbatim.returns l mem).trans (List.map_id _)
      rw [readLines, same, squeezeLines_eq_map whole, emptiedSame, returnsSame]

theorem not_mem_dropCr {l : List Char} (whole : '\n' ∉ l) : '\n' ∉ dropCr l := by
  rw [dropCr]
  split
  · exact fun mem => whole ((List.dropLast_sublist l).subset mem)
  · exact whole

/-- The lines behind the one that the first fence stands on. -/
theorem textLines_cleanedCode (code : List Char) :
    (textLines (cleanedCode code)).drop 1 = readLines code := by
  obtain ⟨lines, whole, -, isLines⟩ := exists_ofLines (ended_getLast code)
  have squeezed : ∀ l ∈ [] :: squeezeLines 0 (textLines (ended code)), '\n' ∉ l := by
    intro l mem
    rcases List.mem_cons.mp mem with rfl | behind
    · exact List.not_mem_nil
    · rcases mem_squeezeLines l behind with inside | rfl
      · rw [← isLines] at inside
        obtain ⟨l', inLines, rfl⟩ := List.mem_map.mp inside
        exact not_mem_dropCr (whole l' inLines)
      · exact List.not_mem_nil
  have shape : cleanedCode code = ofLines ([] :: squeezeLines 0 (textLines (ended code))) := rfl
  rw [shape, textLines_ofLines squeezed, List.map_cons, List.drop_succ_cons, List.drop_zero,
    readLines]

end Lines

/-! ## Blocks that are not written -/

/-- The texts of the blocks of code in a node for which none is written. -/
def elementHidden (tag : Element) (children : Forest) (visit : Place → List (List Char)) :
    List (List Char) :=
  match tag with
  | .pre | .a _ | .code _ => children.codeTexts
  | .ul => visit (.list false 0)
  | .ol => visit (.list true 0)
  | .p | .strong | .em | .div | .li => visit .children

/-- Blocks of code are not written in a link, in code, in another block of code, and in a list
outside its items. -/
def hidden : Place → Forest → List (List Char)
  | _, .nil => []
  | place, .text _ next => hidden place next
  | .children, .element tag children next =>
      elementHidden tag children (fun place => hidden place children) ++ hidden .children next
  | .item, .element tag children next =>
      elementHidden tag children (fun place => hidden place children) ++ hidden .item next
  | .list ordered index, .element tag children next =>
      if tag = .li then hidden .item children ++ hidden (.list ordered (index + 1)) next
      else (Forest.element tag children .nil).codeTexts ++ hidden (.list ordered index) next

section Hidden

variable {children : Forest}

theorem codeTexts_element (tag : Element) (children next : Forest) :
    (Forest.element tag children next).codeTexts =
      (Forest.element tag children .nil).codeTexts ++ next.codeTexts := by
  simp [Forest.codeTexts]

theorem length_element (tag : Element)
    (each : ∀ place, (blocks place children).length + (hidden place children).length =
      children.codeTexts.length) :
    (elementBlocks tag children fun place => blocks place children).length +
        (elementHidden tag children fun place => hidden place children).length =
      (Forest.element tag children .nil).codeTexts.length := by
  cases tag <;>
    simp [elementBlocks, elementHidden, Forest.codeTexts, each, Nat.add_comm]

/-- A block of code is written or hidden. -/
theorem length_blocks (f : Forest) (place : Place) :
    (blocks place f).length + (hidden place f).length = f.codeTexts.length := by
  induction f generalizing place with
  | nil => cases place <;> rfl
  | text chars next ih =>
      rw [blocks, hidden, Forest.codeTexts]
      exact ih place
  | element tag children next ihc ihn =>
      have own := length_element tag ihc
      rw [codeTexts_element, List.length_append]
      cases place with
      | children =>
          have rest := ihn .children
          rw [blocks, hidden, List.length_append, List.length_append]
          omega
      | item =>
          have rest := ihn .item
          rw [blocks, hidden, List.length_append, List.length_append]
          omega
      | list ordered index =>
          rw [blocks, hidden]
          by_cases isItem : tag = .li
          · have inside := ihc .item
            have rest := ihn (.list ordered (index + 1))
            have single : (Forest.element tag children .nil).codeTexts = children.codeTexts := by
              rw [isItem]
              simp [Forest.codeTexts]
            rw [if_pos isItem, if_pos isItem, List.length_append, List.length_append, single]
            omega
          · have rest := ihn (.list ordered index)
            rw [if_neg isItem, if_neg isItem, List.length_append]
            omega

theorem element_written (tag : Element)
    (each : ∀ place, hidden place children = [] → blocks place children = children.codeTexts)
    (all : elementHidden tag children (fun place => hidden place children) = []) :
    elementBlocks tag children (fun place => blocks place children) =
      (Forest.element tag children .nil).codeTexts := by
  cases tag <;> simp [elementBlocks, Forest.codeTexts]
  case pre => exact all
  case a => exact all
  case code => exact all
  all_goals exact each _ all

/-- Where none is hidden, every block is written in its turn. -/
theorem blocks_eq (f : Forest) (place : Place) (all : hidden place f = []) :
    blocks place f = f.codeTexts := by
  induction f generalizing place with
  | nil => cases place <;> rfl
  | text chars next ih =>
      cases place <;> exact ih _ all
  | element tag children next ihc ihn =>
      rw [codeTexts_element]
      cases place with
      | children =>
          obtain ⟨own, rest⟩ := List.append_eq_nil_iff.mp all
          rw [blocks, element_written tag ihc own, ihn _ rest]
      | item =>
          obtain ⟨own, rest⟩ := List.append_eq_nil_iff.mp all
          rw [blocks, element_written tag ihc own, ihn _ rest]
      | list ordered index =>
          rw [hidden] at all
          rw [blocks]
          by_cases isItem : tag = .li
          · rw [if_pos isItem] at all ⊢
            obtain ⟨own, rest⟩ := List.append_eq_nil_iff.mp all
            rw [ihc _ own, ihn _ rest, isItem]
            simp [Forest.codeTexts]
          · rw [if_neg isItem] at all ⊢
            obtain ⟨own, rest⟩ := List.append_eq_nil_iff.mp all
            rw [ihn _ rest, own, List.nil_append]

end Hidden

/-! ## Pages -/

section Convert

variable {f : Forest}

/-- What is written of a page. -/
theorem convert_writes (f : Forest) :
    pageWords (convert f) = words isWhitespace (kept (fates .children f)) ∧
      blockLines (convert f) = (blocks .children f).map readLines := by
  have writes := process_writes f .children 0 []
  have framed := writes.framed .nil
  have fenced := writes.fenced [] .nil
  constructor
  · rw [convert, pageWords_cleanup framed, pageWords]
    exact (writes.gist .nil).words_eq
  · rw [blockLines, convert, fences_cleanup fenced, List.nil_append, List.map_map]
    exact List.map_congr_left fun code _ => textLines_cleanedCode code

/-- **A page keeps its words exactly where its places drop whitespace alone, and between two words
never all of it; it keeps its code exactly where every block is written, with a code that the
clean-up leaves as it is.** -/
theorem convert_keeps_iff (f : Forest) :
    (pageWords (convert f) = words isWhitespace f.pageText ↔
        KeptApart isWhitespace (fates .children f)) ∧
      (blockLines (convert f) = f.codeTexts.map textLines ↔
        hidden .children f = [] ∧ ∀ code ∈ f.codeTexts, Verbatim code) := by
  obtain ⟨isWords, isLines⟩ := convert_writes f
  constructor
  · rw [isWords, ← map_fates .children f]
    exact words_kept_iff
  · rw [isLines]
    constructor
    · intro same
      have sizes := congrArg List.length same
      have whole := length_blocks f .children
      rw [List.length_map, List.length_map] at sizes
      have none : hidden .children f = [] := List.eq_nil_of_length_eq_zero (by omega)
      rw [blocks_eq f .children none] at same
      exact ⟨none, fun code mem => (readLines_eq_iff code).mp (List.map_inj_left.mp same code mem)⟩
    · rintro ⟨none, verbatim⟩
      rw [blocks_eq f .children none]
      exact List.map_congr_left fun code mem => (readLines_eq_iff code).mpr (verbatim code mem)

/-- An item with emphasis inside a sentence. -/
def stressedItem : Forest :=
  .element .ul
    (.element .li
      (.text "see ".toList (.element .em (.text "this".toList .nil) (.text " now".toList .nil)))
      .nil)
    .nil

/-- Code with two blank lines between its lines. -/
def spacedCode : Forest :=
  .element .pre (.element (.code []) (.text "a\n\n\nb\n".toList .nil) .nil) .nil

/-- The item is written without its spaces, the code without one of its lines. -/
theorem stressedItem_glued :
    (convert stressedItem).map Glyph.char = "- see*this*now\n".toList ∧
      pageWords (convert stressedItem) ≠ words isWhitespace stressedItem.pageText ∧
      blockLines (convert spacedCode) ≠ spacedCode.codeTexts.map textLines := by
  decide +kernel

end Convert

end Ministr.Parser.HtmlToMd
