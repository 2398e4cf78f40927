/-
# Ingestion.Coalesce — when merging small sections is done after one pass

`coalesce_small_sections` walks along the siblings and merges a small section into a small
one of the same depth right before it.  The children of a section that stays are coalesced
in turn.  Those of a section that is merged are not: `merge_into` appends them to the
children of the target as they are, so that small neighbours among them, or across the
seam, stay apart until the next pass.

`coalesceSmallSections_fixpoint` says which forests are done after one pass: those in which
nothing that moves along with a merged section could have been merged itself.
-/
import Ministr.Ingestion.Reshape

namespace Ministr.Ingestion.Reshape

open Ministr.Theory Ministr.Content

set_option autoImplicit false

section Fixpoint

variable (e : Enricher)

/-- The text is below the threshold. -/
def small (s : ParsedSection) : Prop := e.countTokens s.text < e.minSectionTokens

/-- On no level do two adjacent siblings have the same depth and both a small text. -/
def NoSmallNeighbours (f : SectionForest) : Prop :=
  ∀ level ∈ f.roots :: f.levels, ∀ a b before after, level = before ++ a :: b :: after →
    ¬ (a.depth = b.depth ∧ small e a ∧ small e b)

variable {e}

theorem joins_eq_false {a b : ParsedSection} :
    joins e a b = false ↔ ¬ (a.depth = b.depth ∧ small e a ∧ small e b) := by
  rw [joins, decide_eq_false_iff_not, small, small]
  tauto

theorem noSmallNeighbours_iff {f : SectionForest} :
    NoSmallNeighbours e f ↔ Forest.Apart (joins e) f := by
  simp only [NoSmallNeighbours, Forest.Apart, List.isChain_iff_forall_rel_of_append_cons_cons,
    joins_eq_false]

/-- A target keeps its depth, and only small ones grow. -/
theorem joins_mergeInto {a b c : ParsedSection} (joined : joins e b c = true)
    (off : joins e a b = false) : joins e a (mergeInto b c) = false := by
  have target : small e b := (of_decide_eq_true joined).2.2
  rw [joins_eq_false] at off ⊢
  rintro ⟨sameDepth, left, -⟩
  exact off ⟨sameDepth, left, target⟩

end Fixpoint

/-- **One pass reaches the fixpoint exactly when what moves along with a merged section is
settled**: the subtrees under it hold no small neighbours, and its first child is no small
neighbour of the last child the target has by then. -/
theorem coalesceSmallSections_fixpoint (e : Enricher) (f : SectionForest) :
    (NoSmallNeighbours e (coalesceSmallSections e f) ∧
        coalesceSmallSections e (coalesceSmallSections e f) = coalesceSmallSections e f) ↔
      Forest.Settles (joins e) mergeInto none f := by
  have settled := (Forest.apart_coalesceFrom (@joins_mergeInto e) f).1
  rw [noSmallNeighbours_iff, coalesceSmallSections_eq, coalesceSmallSections_eq, ← settled]
  exact ⟨fun done => done.1, fun apart => ⟨apart, (Forest.coalesceFrom_of_apart _).1 apart⟩⟩

/-! ### Two small chapters, the second with two small parts -/

def titled (title : String) (depth : Nat) (text : String) : ParsedSection :=
  { id := "guide.md#" ++ title, headingPath := [title], depth := depth, text := text, claims := [],
    summary := none, structuralNodes := [] }

def installGuide : ParsedSection := titled "install" 1 "Run it."

def usageGuide : ParsedSection := titled "usage" 1 "Ask it."

def searchPart : ParsedSection := titled "search" 2 "By words."

def browsePart : ParsedSection := titled "browse" 2 "By file."

def parts : SectionForest := .cons searchPart .nil (.cons browsePart .nil .nil)

def manual : SectionForest := .cons installGuide .nil (.cons usageGuide parts .nil)

/-- The two parts of the merged chapter stay neighbours. -/
theorem merged_chapter_keeps_small_parts :
    ¬ ∀ (e : Enricher) (f : SectionForest),
      NoSmallNeighbours e (coalesceSmallSections e f) ∧
        coalesceSmallSections e (coalesceSmallSections e f) = coalesceSmallSections e f := by
  intro fixpoint
  let e : Enricher := ⟨String.length, 50, fun _ _ => [], fun _ _ => ""⟩
  have once : coalesceSmallSections e manual =
      .cons (mergeInto installGuide usageGuide) parts .nil := by
    decide +kernel
  have done := once ▸ (fixpoint e manual).1
  refine done [searchPart, browsePart] ?_ searchPart browsePart [] [] rfl ⟨rfl, ?_, ?_⟩
  · simp [parts, Forest.roots, Forest.levels]
  · show searchPart.text.length < 50
    decide
  · show browsePart.text.length < 50
    decide

end Ministr.Ingestion.Reshape
