/-
# Parser.HtmlFates — which characters of a page are kept

Every character of a page has a fate that its place in the tree decides: it is kept or dropped
(`fates`).  Dropped are texts in a list outside its items, the text of a block of code outside its
first `code`, texts of whitespace alone, whitespace at the ends of a text that stands in an item and
at the ends of the text of a link, and the edges of blocks in links, in code and around an item that
is in no list.
-/
import Ministr.Parser.HtmlToMd

namespace Ministr.Parser.HtmlToMd

open Ministr.Theory Ministr.Content Ministr.Git

set_option autoImplicit false

/-! ## Fates -/

def keep (text : List Char) : List (Char × Bool) := text.map fun c => (c, true)

def drop (text : List Char) : List (Char × Bool) := text.map fun c => (c, false)

/-- The edge of a block that is kept, and one that is dropped. -/
def edge (isKept : Bool) : List (Char × Bool) := [(' ', isKept)]

/-- Whitespace at the ends is dropped. -/
def dropEnds (fates : List (Char × Bool)) : List (Char × Bool) :=
  let white := fun x : Char × Bool => isWhitespace x.1
  let behind := fates.dropWhile white
  drop ((fates.takeWhile white).map Prod.fst) ++ behind.rdropWhile white ++
    drop ((behind.rtakeWhile white).map Prod.fst)

/-- In a link and in code the text is kept and the edges of blocks are dropped. -/
def inlineFates : Forest → List (Char × Bool)
  | .nil => []
  | .text chars next => keep chars ++ inlineFates next
  | .element tag children next =>
      (if tag.isBlock then edge false ++ (inlineFates children ++ edge false)
        else inlineFates children) ++ inlineFates next

/-- Only the first `code` is kept. -/
def firstCodeFates : Forest → List (Char × Bool)
  | .nil => []
  | .text chars next => drop chars ++ firstCodeFates next
  | .element (.code _) children next => inlineFates children ++ drop next.pageText
  | .element tag children next =>
      if children.firstCode.isSome then
        (if tag.isBlock then edge false ++ (firstCodeFates children ++ edge false)
          else firstCodeFates children) ++ drop next.pageText
      else drop (Forest.element tag children .nil).pageText ++ firstCodeFates next

/-- The fates in a block of code. -/
def blockFates (children : Forest) : List (Char × Bool) :=
  if children.firstCode.isSome then firstCodeFates children else inlineFates children

def textFates (place : Place) (text : List Char) : List (Char × Bool) :=
  match place with
  | .children => if (trim text).isEmpty then drop text else keep text
  | .item => dropEnds (keep text)
  | .list _ _ => drop text

def elementFates (tag : Element) (children : Forest) (visit : Place → List (Char × Bool)) :
    List (Char × Bool) :=
  match tag with
  | .p => edge true ++ (visit .children ++ edge true)
  | .pre => edge true ++ (blockFates children ++ edge true)
  | .ul => edge true ++ (visit (.list false 0) ++ edge true)
  | .ol => edge true ++ (visit (.list true 0) ++ edge true)
  | .a _ => dropEnds (inlineFates children)
  | .code _ => inlineFates children
  | .strong | .em | .div => visit .children
  | .li => edge false ++ (visit .children ++ edge false)

/-- The characters of the page, each with whether it is kept. -/
def fates : Place → Forest → List (Char × Bool)
  | _, .nil => []
  | place, .text chars next => textFates place chars ++ fates place next
  | .children, .element tag children next =>
      elementFates tag children (fun place => fates place children) ++ fates .children next
  | .item, .element tag children next =>
      elementFates tag children (fun place => fates place children) ++ fates .item next
  | .list ordered index, .element tag children next =>
      if tag = .li then
        edge true ++ (fates .item children ++ edge true) ++ fates (.list ordered (index + 1)) next
      else
        drop (Forest.element tag children .nil).pageText ++ fates (.list ordered index) next

/-- The texts of the blocks that are written. -/
def elementBlocks (tag : Element) (children : Forest) (visit : Place → List (List Char)) :
    List (List Char) :=
  match tag with
  | .pre => [codeText children]
  | .ul => visit (.list false 0)
  | .ol => visit (.list true 0)
  | .a _ | .code _ => []
  | .p | .strong | .em | .div | .li => visit .children

def blocks : Place → Forest → List (List Char)
  | _, .nil => []
  | place, .text _ next => blocks place next
  | .children, .element tag children next =>
      elementBlocks tag children (fun place => blocks place children) ++ blocks .children next
  | .item, .element tag children next =>
      elementBlocks tag children (fun place => blocks place children) ++ blocks .item next
  | .list ordered index, .element tag children next =>
      if tag = .li then blocks .item children ++ blocks (.list ordered (index + 1)) next
      else blocks (.list ordered index) next

/-! ## The fates are those of the page -/

section Fates

theorem map_keep (text : List Char) : (keep text).map Prod.fst = text := by
  simp [keep, Function.comp_def]

theorem map_drop (text : List Char) : (drop text).map Prod.fst = text := by
  simp [drop, Function.comp_def]

@[simp] theorem kept_keep (text : List Char) : kept (keep text) = text := by
  rw [kept, keep, List.filter_eq_self.mpr (by simp), List.map_map]
  simp [Function.comp_def]

@[simp] theorem kept_drop (text : List Char) : kept (drop text) = [] := by
  rw [kept, drop, List.filter_eq_nil_iff.mpr (by simp), List.map_nil]

theorem map_dropEnds (l : List (Char × Bool)) : (dropEnds l).map Prod.fst = l.map Prod.fst := by
  rw [dropEnds, List.map_append, List.map_append, map_drop, map_drop, ← List.map_append,
    ← List.map_append, List.append_assoc, List.rdropWhile_append_rtakeWhile,
    List.takeWhile_append_dropWhile]

@[simp] theorem kept_edge_true : kept (edge true) = [' '] := rfl

@[simp] theorem kept_edge_false : kept (edge false) = [] := rfl

theorem map_edge (isKept : Bool) : (edge isKept).map Prod.fst = [' '] := rfl

theorem kept_reverse (l : List (Char × Bool)) : kept l.reverse = (kept l).reverse := by
  rw [kept, List.filter_reverse, List.map_reverse, ← kept]

theorem kept_dropWhile {l : List (Char × Bool)}
    (white : ∀ x ∈ l, x.2 = false → isWhitespace x.1 = true) :
    kept (l.dropWhile fun x => isWhitespace x.1) = trimStart (kept l) := by
  induction l with
  | nil => rfl
  | cons x l ih =>
      obtain ⟨c, k⟩ := x
      have later := ih fun y mem => white y (List.mem_cons_of_mem _ mem)
      by_cases blank : isWhitespace c = true
      · have front : ((c, k) :: l).dropWhile (fun x => isWhitespace x.1) =
            l.dropWhile fun x => isWhitespace x.1 := List.dropWhile_cons_of_pos blank
        rw [front, later]
        cases k with
        | true => rw [kept_cons_true, trimStart, trimStart, List.dropWhile_cons_of_pos blank]
        | false => rw [kept_cons_false]
      · have front : ((c, k) :: l).dropWhile (fun x => isWhitespace x.1) = (c, k) :: l :=
          List.dropWhile_cons_of_neg blank
        rw [front]
        cases k with
        | true => rw [kept_cons_true, trimStart, List.dropWhile_cons_of_neg blank]
        | false => exact absurd (white (c, false) List.mem_cons_self rfl) blank

theorem kept_dropEnds {l : List (Char × Bool)}
    (white : ∀ x ∈ l, x.2 = false → isWhitespace x.1 = true) :
    kept (dropEnds l) = trim (kept l) := by
  have behind : ∀ x ∈ (l.dropWhile fun x => isWhitespace x.1).reverse, x.2 = false →
      isWhitespace x.1 = true := fun x mem =>
    white x ((List.dropWhile_suffix _).subset (List.mem_reverse.mp mem))
  rw [dropEnds, kept_append, kept_append, kept_drop, kept_drop, List.nil_append, List.append_nil,
    List.rdropWhile, kept_reverse, kept_dropWhile behind, kept_reverse, kept_dropWhile white, trim]

theorem map_inlineFates (f : Forest) : (inlineFates f).map Prod.fst = f.pageText := by
  induction f with
  | nil => rfl
  | text chars next ih => rw [inlineFates, List.map_append, map_keep, ih, Forest.pageText]
  | element tag children next ihc ihn =>
      rw [inlineFates, List.map_append, ihn, Forest.pageText]
      split
      · rw [List.map_append, List.map_append, map_edge, ihc]
        rfl
      · rw [ihc]

theorem kept_inlineFates (f : Forest) : kept (inlineFates f) = f.inlineText := by
  induction f with
  | nil => rfl
  | text chars next ih => rw [inlineFates, kept_append, kept_keep, ih, Forest.inlineText]
  | element tag children next ihc ihn =>
      rw [inlineFates, kept_append, ihn, Forest.inlineText]
      split
      · rw [kept_append, kept_append, ihc, kept_edge_false, List.nil_append, List.append_nil]
      · rw [ihc]

theorem inlineFates_white (f : Forest) :
    ∀ x ∈ inlineFates f, x.2 = false → isWhitespace x.1 = true := by
  induction f with
  | nil => exact nofun
  | text chars next ih =>
      intro x mem dropped
      rcases List.mem_append.mp mem with here | later
      · obtain ⟨c, -, rfl⟩ := List.mem_map.mp here
        cases dropped
      · exact ih x later dropped
  | element tag children next ihc ihn =>
      intro x mem dropped
      rcases List.mem_append.mp mem with here | later
      · split at here
        · simp only [List.mem_append, edge, List.mem_singleton] at here
          rcases here with rfl | inside | rfl
          · decide
          · exact ihc x inside dropped
          · decide
        · exact ihc x here dropped
      · exact ihn x later dropped

theorem map_firstCodeFates (f : Forest) : (firstCodeFates f).map Prod.fst = f.pageText := by
  induction f with
  | nil => rfl
  | text chars next ih => rw [firstCodeFates, List.map_append, map_drop, ih, Forest.pageText]
  | element tag children next ihc ihn =>
      have single : (Forest.element tag children .nil).pageText ++ next.pageText =
          (Forest.element tag children next).pageText := by
        simp [Forest.pageText]
      have other : (if children.firstCode.isSome then
          (if tag.isBlock then edge false ++ (firstCodeFates children ++ edge false)
            else firstCodeFates children) ++ drop next.pageText
          else drop (Forest.element tag children .nil).pageText ++ firstCodeFates next).map Prod.fst =
            (Forest.element tag children next).pageText := by
        split
        · rw [List.map_append, map_drop, Forest.pageText]
          split
          · rw [List.map_append, List.map_append, map_edge, ihc]
            rfl
          · rw [ihc]
        · rw [List.map_append, map_drop, ihn, single]
      cases tag with
      | code classes =>
          rw [firstCodeFates, List.map_append, map_inlineFates, map_drop, Forest.pageText]
          rfl
      | _ => exact other

theorem kept_firstCodeFates {f : Forest} {classes code : List Char}
    (first : f.firstCode = some (classes, code)) : kept (firstCodeFates f) = code := by
  induction f with
  | nil => cases first
  | text chars next ih =>
      rw [firstCodeFates, kept_append, kept_drop, List.nil_append]
      exact ih first
  | element tag children next ihc ihn =>
      have other : (children.firstCode.or next.firstCode) = some (classes, code) →
          kept (if children.firstCode.isSome then
            (if tag.isBlock then edge false ++ (firstCodeFates children ++ edge false)
              else firstCodeFates children) ++ drop next.pageText
            else drop (Forest.element tag children .nil).pageText ++ firstCodeFates next) = code := by
        intro found
        cases inside : children.firstCode with
        | none =>
            rw [inside, Option.none_or] at found
            rw [Option.isSome_none, if_neg Bool.false_ne_true, kept_append, kept_drop,
              List.nil_append, ihn found]
        | some pair =>
            rw [inside, Option.some_or] at found
            rw [Option.isSome_some, if_pos rfl, kept_append, kept_drop, List.append_nil]
            have own := ihc (inside.trans found)
            split
            · rw [kept_append, kept_append, own, kept_edge_false, List.nil_append, List.append_nil]
            · exact own
      cases tag with
      | code classes' =>
          obtain ⟨-, rfl⟩ := Prod.mk.inj (Option.some.inj first)
          rw [firstCodeFates, kept_append, kept_inlineFates, kept_drop, List.append_nil]
      | _ => exact other first

theorem map_blockFates (f : Forest) : (blockFates f).map Prod.fst = f.pageText := by
  rw [blockFates]
  split
  · exact map_firstCodeFates f
  · exact map_inlineFates f

theorem kept_blockFates (f : Forest) : kept (blockFates f) = codeText f := by
  rw [blockFates, codeText]
  cases first : f.firstCode with
  | none => exact kept_inlineFates f
  | some pair => exact kept_firstCodeFates first

theorem map_textFates (place : Place) (text : List Char) :
    (textFates place text).map Prod.fst = text := by
  cases place with
  | children =>
      rw [textFates]
      split
      · exact map_drop text
      · exact map_keep text
  | item => rw [textFates, map_dropEnds, map_keep]
  | list ordered index => exact map_drop text

theorem map_elementFates (tag : Element) (children : Forest) {visit : Place → List (Char × Bool)}
    (visited : ∀ place, (visit place).map Prod.fst = children.pageText) :
    (elementFates tag children visit).map Prod.fst =
      if tag.isBlock then ' ' :: (children.pageText ++ [' ']) else children.pageText := by
  cases tag <;>
    simp [elementFates, Element.isBlock, visited, map_edge, map_blockFates, map_dropEnds,
      map_inlineFates]

/-- **The fates are those of the characters of the page, in their order.** -/
theorem map_fates (place : Place) (f : Forest) : (fates place f).map Prod.fst = f.pageText := by
  induction f generalizing place with
  | nil => cases place <;> rfl
  | text chars next ih =>
      cases place <;> rw [fates, List.map_append, map_textFates, ih, Forest.pageText]
  | element tag children next ihc ihn =>
      cases place with
      | children =>
          rw [fates, List.map_append, map_elementFates tag children ihc, ihn, Forest.pageText]
      | item => rw [fates, List.map_append, map_elementFates tag children ihc, ihn, Forest.pageText]
      | list ordered index =>
          rw [fates]
          split
          · rename_i isItem
            subst isItem
            rw [List.map_append, List.map_append, List.map_append, map_edge, ihc, ihn,
              Forest.pageText]
            rfl
          · rw [List.map_append, map_drop, ihn]
            simp [Forest.pageText]

end Fates

end Ministr.Parser.HtmlToMd
