/-
# Ingestion.Reshape — what splitting and merging sections keep

Before a document is stored, its large headingless sections are split at their paragraphs
and small neighbours are merged, level by level.  Sections come here with their structural
nodes, which `Ingestion.Process` leaves out; `forget_reshape` says that the two models
reshape a tree in the same way.

Merging loses nothing: the text, the nodes and the children of a merged section move into
the section before it.  Splitting does: each paragraph becomes a section of its own, with
no nodes and no children, and those of the section that was split are gone.
`nestSections`, through which every parser builds its tree, puts all the chapters of a
document under a preface without a heading.  `nothingLost_iff` says that this is the only
loss.
-/
import Ministr.Ingestion.Process
import Ministr.Theory.Forest
import Mathlib.Data.List.Perm.Subperm

namespace Ministr.Ingestion.Reshape

open Ministr.Theory Ministr.Content

set_option autoImplicit false

/-! ## Sections with their nodes -/

inductive StructuralNode where
  | codeBlock (language code : String)
  | table (headers : List String) (rows : List (List String))
  | listBlock (ordered : Bool) (items : List String)
  deriving DecidableEq, Repr

/-- `Section`, without its children. -/
structure ParsedSection extends SectionBody where
  structuralNodes : List StructuralNode
  deriving DecidableEq, Repr

abbrev SectionForest := Forest ParsedSection

/-- The sections without their nodes. -/
def forget : SectionForest → Sections
  | .nil => .nil
  | .cons head children rest => .cons head.toSectionBody (forget children) (forget rest)

/-! ## Nesting -/

/-- The loop over the stack in `nest_sections`, top first: sections at `depth` or deeper
are closed, each as the last child of the section under it.  `pending` is what was closed
last. -/
def closeDeeper (depth : Nat) (result pending : SectionForest) :
    List (ParsedSection × SectionForest) → SectionForest × List (ParsedSection × SectionForest)
  | [] => (result.append pending, [])
  | (top, children) :: stack =>
      let children := children.append pending
      if depth ≤ top.depth then closeDeeper depth result (.cons top children .nil) stack
      else (result, (top, children) :: stack)

/-- The loop over the flat list in `nest_sections`. -/
def nestLoop (result : SectionForest) (stack : List (ParsedSection × SectionForest)) :
    List ParsedSection → SectionForest
  | [] => (closeDeeper 0 result .nil stack).1
  | s :: flat =>
      let (result, stack) := closeDeeper s.depth result .nil stack
      nestLoop result ((s, .nil) :: stack) flat

/-- `nest_sections`. -/
def nestSections (flat : List ParsedSection) : SectionForest := nestLoop .nil [] flat

/-- The sections on the stack, the bottom one first. -/
def stacked (stack : List (ParsedSection × SectionForest)) : List ParsedSection :=
  stack.reverse.flatMap fun (top, children) => top :: children.labels

theorem stacked_cons (top : ParsedSection) (children : SectionForest)
    (stack : List (ParsedSection × SectionForest)) :
    stacked ((top, children) :: stack) = stacked stack ++ top :: children.labels := by
  simp [stacked]

theorem closeDeeper_labels (depth : Nat) (result pending : SectionForest)
    (stack : List (ParsedSection × SectionForest)) :
    (closeDeeper depth result pending stack).1.labels ++
        stacked (closeDeeper depth result pending stack).2 =
      result.labels ++ stacked stack ++ pending.labels := by
  induction stack generalizing pending with
  | nil => simp [closeDeeper, stacked]
  | cons entry stack ih =>
      obtain ⟨top, children⟩ := entry
      simp only [closeDeeper]
      split
      · rw [ih]
        simp [stacked_cons, Forest.labels]
      · simp [stacked_cons]

theorem closeDeeper_zero (result pending : SectionForest)
    (stack : List (ParsedSection × SectionForest)) : (closeDeeper 0 result pending stack).2 = [] := by
  induction stack generalizing pending with
  | nil => rfl
  | cons entry stack ih => exact ih _

theorem nestLoop_labels (result : SectionForest) (stack : List (ParsedSection × SectionForest))
    (flat : List ParsedSection) :
    (nestLoop result stack flat).labels = result.labels ++ stacked stack ++ flat := by
  induction flat generalizing result stack with
  | nil =>
      have closed := closeDeeper_labels 0 result .nil stack
      rw [closeDeeper_zero] at closed
      simpa [nestLoop, stacked, Forest.labels] using closed
  | cons s flat ih =>
      have closed := closeDeeper_labels s.depth result .nil stack
      rw [nestLoop, ih, stacked_cons, ← List.append_assoc, closed]
      simp [Forest.labels]

/-- Nesting keeps every section, in document order. -/
theorem labels_nestSections (flat : List ParsedSection) : (nestSections flat).labels = flat := by
  rw [nestSections, nestLoop_labels]
  rfl

/-! ## Splitting and merging -/

/-- The paragraphs of a text that are not blank. -/
def paragraphs (text : String) : List (List Char) :=
  ((splitParagraphs [] text.toList).map trim).filter fun p => !p.isEmpty

/-- The paragraphs, each as a section of its own. -/
def paragraphSections (sourcePath : String) : List (List Char × Nat) → SectionForest
  | [] => .nil
  | (para, i) :: rest =>
      .cons
        { id := sourcePath ++ "#paragraph-" ++ toString i, headingPath := [], depth := 0,
          text := String.ofList para, claims := [], summary := none, structuralNodes := [] }
        .nil (paragraphSections sourcePath rest)

/-- `split_large_headingless_section`. -/
def splitLargeHeadinglessSection (sourcePath : String) (s : ParsedSection)
    (children : SectionForest) : SectionForest :=
  if s.depth ≠ 0 ∨ Content.wordCount s.text ≤ paragraphSplitThreshold then .cons s children .nil
  else if (paragraphs s.text).length ≤ 1 then .cons s children .nil
  else paragraphSections sourcePath (paragraphs s.text).zipIdx

def splitSections (sourcePath : String) : SectionForest → SectionForest
  | .nil => .nil
  | .cons head children rest =>
      (splitLargeHeadinglessSection sourcePath head children).append (splitSections sourcePath rest)

/-- `merge_into`, without the children. -/
def mergeInto (target source : ParsedSection) : ParsedSection :=
  { Ingestion.mergeInto target.toSectionBody source.toSectionBody with
    structuralNodes := target.structuralNodes ++ source.structuralNodes }

/-- A small section right after a small one of the same depth. -/
def joins (e : Enricher) (prev s : ParsedSection) : Bool :=
  decide (e.countTokens s.text < e.minSectionTokens ∧ prev.depth = s.depth ∧
    e.countTokens prev.text < e.minSectionTokens)

/-- `coalesce_small_sections`. -/
def coalesceSmallSections (e : Enricher) (sections : SectionForest) : SectionForest :=
  if e.minSectionTokens = 0 then sections
  else Forest.coalesceFrom (joins e) mergeInto none sections

/-- The first two steps of `store_enriched_document`. -/
def reshape (e : Enricher) (sourcePath : String) (sections : SectionForest) : SectionForest :=
  coalesceSmallSections e (splitSections sourcePath sections)

/-! ### The same as without the nodes -/

theorem forget_append (f g : SectionForest) : forget (f.append g) = (forget f).append (forget g) := by
  induction f with
  | nil => rfl
  | cons head children rest _ ih => simp [Forest.append, forget, Sections.append, ih]

theorem forget_paragraphSections (sourcePath : String) (paras : List (List Char × Nat)) :
    forget (paragraphSections sourcePath paras) =
      Ingestion.paragraphSections sourcePath paras := by
  induction paras with
  | nil => rfl
  | cons para paras ih => simp [paragraphSections, forget, Ingestion.paragraphSections, ih]

theorem forget_splitSections (sourcePath : String) (f : SectionForest) :
    forget (splitSections sourcePath f) = Ingestion.splitSections sourcePath (forget f) := by
  induction f with
  | nil => rfl
  | cons head children rest _ ih =>
      simp only [splitSections, forget_append, ih, forget, Ingestion.splitSections]
      congr 1
      unfold splitLargeHeadinglessSection Ingestion.splitLargeHeadinglessSection paragraphs
      split
      · rfl
      · dsimp only
        split
        · rfl
        · exact forget_paragraphSections _ _

theorem forget_coalesceFrom (e : Enricher) (f : SectionForest) :
    forget (Forest.coalesceFrom (joins e) mergeInto none f) =
        Ingestion.coalesceFrom e none (forget f) ∧
      ∀ prev children,
        forget (Forest.coalesceFrom (joins e) mergeInto (some (prev, children)) f) =
          Ingestion.coalesceFrom e (some (prev.toSectionBody, forget children)) (forget f) := by
  induction f with
  | nil => exact ⟨rfl, fun prev children => rfl⟩
  | cons head children rest ihChildren ihRest =>
      refine ⟨?_, fun prev prevChildren => ?_⟩
      · simp only [Forest.coalesceFrom, forget, Ingestion.coalesceFrom, ihRest.2, ihChildren.1]
      · simp only [Forest.coalesceFrom, forget, Ingestion.coalesceFrom, joins, decide_eq_true_eq]
        split
        · rw [ihRest.2, forget_append]
          rfl
        · rw [Forest.flush, forget, ihRest.2, ihChildren.1]
          rfl

/-- Without the nodes, reshaping is the reshaping of `Ingestion.Process`. -/
theorem forget_reshape (e : Enricher) (sourcePath : String) (f : SectionForest) :
    forget (reshape e sourcePath f) =
      Ingestion.coalesceSmallSections e (Ingestion.splitSections sourcePath (forget f)) := by
  unfold reshape coalesceSmallSections Ingestion.coalesceSmallSections
  split
  · exact forget_splitSections sourcePath f
  · rw [(forget_coalesceFrom e _).1, forget_splitSections]

/-! ## What a tree holds -/

/-- The whitespace-separated words of all the texts. -/
def wordsOf (f : SectionForest) : List String := f.labels.flatMap fun s => splitWhitespace s.text

def nodesOf (f : SectionForest) : List StructuralNode :=
  f.labels.flatMap ParsedSection.structuralNodes

/-! ### Words and paragraphs -/

theorem words_trim (text : List Char) : words isWhitespace (trim text) = words isWhitespace text := by
  show words isWhitespace ((text.dropWhile isWhitespace).rdropWhile isWhitespace) = _
  rw [words_rdropWhile, words_dropWhile]

theorem words_splitParagraphs (current text : List Char) :
    (splitParagraphs current text).flatMap (words isWhitespace) =
      words isWhitespace (current.reverse ++ text) := by
  have newline : isWhitespace '\n' = true := by decide
  induction current, text using splitParagraphs.induct with
  | case1 current => simp [splitParagraphs]
  | case2 current text ih =>
      rw [splitParagraphs, List.flatMap_cons, ih, words_append_cons _ _ newline,
        words_cons _ newline]
      rfl
  | case3 current c text other ih =>
      rw [splitParagraphs.eq_3 _ _ _ other, ih]
      simp

/-- The paragraphs hold the words of the text. -/
theorem words_paragraphs (text : String) :
    (paragraphs text).flatMap (words isWhitespace) = words isWhitespace text.toList := by
  have shown : ∀ pieces : List (List Char),
      ((pieces.map trim).filter fun p => !p.isEmpty).flatMap (words isWhitespace) =
        pieces.flatMap (words isWhitespace) := by
    intro pieces
    induction pieces with
    | nil => rfl
    | cons piece pieces ih =>
        rw [List.map_cons, List.filter_cons, List.flatMap_cons, ← words_trim piece]
        cases empty : trim piece with
        | nil => simpa using ih
        | cons c rest => simp [ih]
  rw [paragraphs, shown, words_splitParagraphs]
  rfl

/-- A merged text holds the words of both. -/
theorem words_mergeInto (target source : ParsedSection) :
    (splitWhitespace target.text ++ splitWhitespace source.text).Sublist
      (splitWhitespace (mergeInto target source).text) := by
  have newline : isWhitespace '\n' = true := by decide
  simp only [splitWhitespace, ← List.map_append]
  refine List.Sublist.map _ ?_
  have kept := fun between =>
    words_sublist_between target.text.toList between source.text.toList newline newline
  simp only [mergeInto, Ingestion.mergeInto, String.toList_append]
  split
  · simpa using kept []
  · simpa using kept ("\n### ".toList ++ (source.headingPath.getLast?.getD "").toList ++ ['\n'])

/-! ### Merging keeps words and nodes -/

section Merging

variable (e : Enricher) (f : SectionForest)

theorem coalesceSmallSections_eq :
    coalesceSmallSections e f = Forest.coalesceFrom (joins e) mergeInto none f := by
  unfold coalesceSmallSections
  split
  · rename_i unlimited
    refine (Forest.coalesce_of_apart (fun prev s => ?_) f).1.symm
    simp [joins, unlimited]
  · rfl

theorem wordsOf_coalesce : (wordsOf f).Subperm (wordsOf (coalesceSmallSections e f)) := by
  rw [coalesceSmallSections_eq]
  exact Forest.flatMap_coalesce_subperm words_mergeInto f

theorem nodesOf_coalesce : (nodesOf (coalesceSmallSections e f)).Perm (nodesOf f) := by
  rw [coalesceSmallSections_eq]
  exact Forest.flatMap_coalesce_perm (fun _ _ => rfl) f

end Merging

/-! ## Splitting -/

/-- The section is split. -/
def splits (s : ParsedSection) : Bool :=
  decide (s.depth = 0 ∧ paragraphSplitThreshold < Content.wordCount s.text ∧
    1 < (paragraphs s.text).length)

section Splitting

variable (sourcePath : String)

theorem splitLargeHeadinglessSection_eq (s : ParsedSection) (children : SectionForest) :
    splitLargeHeadinglessSection sourcePath s children =
      if splits s then paragraphSections sourcePath (paragraphs s.text).zipIdx
      else .cons s children .nil := by
  unfold splitLargeHeadinglessSection splits
  simp only [decide_eq_true_eq]
  split
  · rw [if_neg (by omega)]
  · split
    · rw [if_neg (by omega)]
    · rw [if_pos (by omega)]

theorem splitSections_cons_of_splits {head : ParsedSection} (large : splits head = true)
    (children rest : SectionForest) :
    splitSections sourcePath (.cons head children rest) =
      (paragraphSections sourcePath (paragraphs head.text).zipIdx).append
        (splitSections sourcePath rest) := by
  rw [splitSections, splitLargeHeadinglessSection_eq, if_pos large]

theorem splitSections_cons_of_not {head : ParsedSection} (whole : ¬ splits head = true)
    (children rest : SectionForest) :
    splitSections sourcePath (.cons head children rest) =
      .cons head children (splitSections sourcePath rest) := by
  rw [splitSections, splitLargeHeadinglessSection_eq, if_neg whole]
  rfl

/-! ### What the paragraphs hold -/

theorem paragraphSections_leaves (paras : List (List Char × Nat)) :
    (paragraphSections sourcePath paras).labels = (paragraphSections sourcePath paras).roots ∧
      (paragraphSections sourcePath paras).descendants = [] ∧
      nodesOf (paragraphSections sourcePath paras) = [] ∧
      ∀ level ∈ (paragraphSections sourcePath paras).levels, level = [] := by
  induction paras with
  | nil => exact ⟨rfl, rfl, rfl, nofun⟩
  | cons para paras ih =>
      obtain ⟨labels, descendants, nodes, levels⟩ := ih
      refine ⟨?_, ?_, ?_, ?_⟩
      · simp [paragraphSections, Forest.labels, Forest.roots, labels]
      · simp [paragraphSections, Forest.labels, Forest.descendants, descendants]
      · simpa [paragraphSections, nodesOf, Forest.labels] using nodes
      · simpa [paragraphSections, Forest.levels, Forest.roots] using levels

theorem wordsOf_paragraphSections (paras : List (List Char)) (first : Nat) :
    wordsOf (paragraphSections sourcePath (paras.zipIdx first)) =
      (paras.flatMap (words isWhitespace)).map String.ofList := by
  induction paras generalizing first with
  | nil => rfl
  | cons para paras ih =>
      have rest := ih (first + 1)
      simp only [wordsOf, splitWhitespace] at rest
      simp [paragraphSections, wordsOf, Forest.labels, splitWhitespace, rest]

/-! ### What a split forest holds -/

/-- No section that is split owns children or nodes. -/
def SplitsBare (f : SectionForest) : Prop :=
  ∀ tree ∈ f.trees, splits tree.1 = true → tree.2 = .nil ∧ tree.1.structuralNodes = []

theorem splitsBare_cons {head : ParsedSection} {children rest : SectionForest} :
    SplitsBare (.cons head children rest) ↔
      (splits head = true → children = .nil ∧ head.structuralNodes = []) ∧ SplitsBare rest := by
  simp [SplitsBare, Forest.trees]

theorem wordsOf_cons (head : ParsedSection) (children rest : SectionForest) :
    wordsOf (.cons head children rest) =
      splitWhitespace head.text ++ wordsOf children ++ wordsOf rest := by
  simp [wordsOf, Forest.labels]

theorem nodesOf_cons (head : ParsedSection) (children rest : SectionForest) :
    nodesOf (.cons head children rest) =
      head.structuralNodes ++ nodesOf children ++ nodesOf rest := by
  simp [nodesOf, Forest.labels]

theorem wordsOf_append (f g : SectionForest) : wordsOf (f.append g) = wordsOf f ++ wordsOf g := by
  simp [wordsOf]

theorem nodesOf_append (f g : SectionForest) : nodesOf (f.append g) = nodesOf f ++ nodesOf g := by
  simp [nodesOf]

/-- Splitting bare sections loses nothing. -/
theorem splitSections_of_bare {f : SectionForest} (bare : SplitsBare f) :
    wordsOf (splitSections sourcePath f) = wordsOf f ∧
      nodesOf (splitSections sourcePath f) = nodesOf f ∧
      (splitSections sourcePath f).descendants = f.descendants := by
  induction f with
  | nil => exact ⟨rfl, rfl, rfl⟩
  | cons head children rest _ ih =>
      obtain ⟨here, later⟩ := splitsBare_cons.mp bare
      obtain ⟨sameWords, sameNodes, sameDescendants⟩ := ih later
      by_cases large : splits head = true
      · obtain ⟨rfl, none⟩ := here large
        obtain ⟨-, noDescendants, noNodes, -⟩ :=
          paragraphSections_leaves sourcePath (paragraphs head.text).zipIdx
        rw [splitSections_cons_of_splits sourcePath large, wordsOf_append, nodesOf_append,
          Forest.descendants_append, sameWords, sameNodes, sameDescendants, noNodes, noDescendants,
          wordsOf_paragraphSections, words_paragraphs, wordsOf_cons, nodesOf_cons, none]
        exact ⟨by simp [splitWhitespace, wordsOf, Forest.labels], rfl, rfl⟩
      · rw [splitSections_cons_of_not sourcePath large, wordsOf_cons, wordsOf_cons, nodesOf_cons,
          nodesOf_cons, sameWords, sameNodes]
        exact ⟨rfl, rfl, by rw [Forest.descendants, Forest.descendants, sameDescendants]⟩

/-- Splitting never adds nodes or descendants. -/
theorem splitSections_length_le (f : SectionForest) :
    (nodesOf (splitSections sourcePath f)).length ≤ (nodesOf f).length ∧
      (splitSections sourcePath f).descendants.length ≤ f.descendants.length := by
  induction f with
  | nil => exact ⟨le_refl _, le_refl _⟩
  | cons head children rest _ ih =>
      obtain ⟨nodes, descendants⟩ := ih
      by_cases large : splits head = true
      · obtain ⟨-, noDescendants, noNodes, -⟩ :=
          paragraphSections_leaves sourcePath (paragraphs head.text).zipIdx
        rw [splitSections_cons_of_splits sourcePath large, nodesOf_append, noNodes,
          Forest.descendants_append, noDescendants, nodesOf_cons, Forest.descendants]
        simp only [List.length_append, List.length_nil]
        omega
      · rw [splitSections_cons_of_not sourcePath large, nodesOf_cons, nodesOf_cons,
          Forest.descendants, Forest.descendants]
        simp only [List.length_append]
        omega

/-- If none got lost, the split sections were bare. -/
theorem bare_of_splitSections_length {f : SectionForest}
    (nodes : (nodesOf f).length ≤ (nodesOf (splitSections sourcePath f)).length)
    (descendants : f.descendants.length ≤ (splitSections sourcePath f).descendants.length) :
    SplitsBare f := by
  induction f with
  | nil => exact nofun
  | cons head children rest _ ih =>
      obtain ⟨fewerNodes, fewerDescendants⟩ := splitSections_length_le sourcePath rest
      by_cases large : splits head = true
      · obtain ⟨-, noDescendants, noNodes, -⟩ :=
          paragraphSections_leaves sourcePath (paragraphs head.text).zipIdx
        rw [splitSections_cons_of_splits sourcePath large, nodesOf_append, noNodes,
          nodesOf_cons] at nodes
        rw [splitSections_cons_of_splits sourcePath large, Forest.descendants_append,
          noDescendants, Forest.descendants] at descendants
        simp only [List.length_append, List.length_nil] at nodes descendants
        have noChildren : children.labels = [] := List.eq_nil_of_length_eq_zero (by omega)
        have none : head.structuralNodes = [] := List.eq_nil_of_length_eq_zero (by omega)
        exact splitsBare_cons.mpr ⟨fun _ => ⟨Forest.labels_eq_nil noChildren, none⟩,
          ih (by omega) (by omega)⟩
      · rw [splitSections_cons_of_not sourcePath large, nodesOf_cons, nodesOf_cons] at nodes
        rw [splitSections_cons_of_not sourcePath large, Forest.descendants,
          Forest.descendants] at descendants
        simp only [List.length_append] at nodes descendants
        exact splitsBare_cons.mpr ⟨fun is => absurd is large, ih (by omega) (by omega)⟩

/-- The siblings below the top level are those of the input. -/
theorem mem_levels_splitSections {f : SectionForest} {level : List ParsedSection}
    (mem : level ∈ (splitSections sourcePath f).levels) : level = [] ∨ level ∈ f.levels := by
  induction f with
  | nil => cases mem
  | cons head children rest _ ih =>
      by_cases large : splits head = true
      · rw [splitSections_cons_of_splits sourcePath large, Forest.levels_append] at mem
        rcases List.mem_append.mp mem with mem | mem
        · exact .inl ((paragraphSections_leaves sourcePath _).2.2.2 level mem)
        · refine (ih mem).imp_right fun listed => ?_
          exact List.mem_cons_of_mem _ (List.mem_append_right _ listed)
      · rw [splitSections_cons_of_not sourcePath large] at mem
        simp only [Forest.levels, List.mem_cons, List.mem_append] at mem ⊢
        rcases mem with rfl | mem | mem
        · exact .inr (.inl rfl)
        · exact .inr (.inr (.inl mem))
        · exact (ih mem).imp_right fun listed => .inr (.inr listed)

theorem roots_splitSections (f : SectionForest) :
    (f.roots.filter fun s => !splits s).Sublist (splitSections sourcePath f).roots := by
  induction f with
  | nil => exact .slnil
  | cons head children rest _ ih =>
      by_cases large : splits head = true
      · rw [splitSections_cons_of_splits sourcePath large, Forest.roots_append, Forest.roots,
          List.filter_cons_of_neg (by simp [large])]
        exact ih.trans (List.sublist_append_right _ _)
      · rw [splitSections_cons_of_not sourcePath large, Forest.roots, Forest.roots,
          List.filter_cons_of_pos (by simp [large])]
        exact ih.cons_cons head

end Splitting

/-! ## Nothing is lost -/

/-- The sections merged on the top level, and on the levels below. -/
def rootGroups (e : Enricher) (sourcePath : String) (f : SectionForest) :
    List (Forest.Group ParsedSection) :=
  Forest.runs (joins e) mergeInto none (splitSections sourcePath f).roots

def lowerGroups (e : Enricher) (sourcePath : String) (f : SectionForest) :
    List (Forest.Group ParsedSection) :=
  Forest.lowerGroups (joins e) mergeInto none (splitSections sourcePath f)

/-- The section others were merged into is there, with its id and its text; one that was
left alone is there as it was. -/
def KeptAs (g : Forest.Group ParsedSection) (s : ParsedSection) : Prop :=
  s.id = g.into.id ∧ g.into.text.toList <+: s.text.toList ∧ (g.merged = [] → s = g.into)

/-- Every section of `before` was merged into one of its siblings or is still in `after`. -/
structure Accounted (levels : List (List ParsedSection)) (groups : List (Forest.Group ParsedSection))
    (before after : List ParsedSection) : Prop where
  found : before.Subperm (groups.flatMap Forest.Group.members)
  siblings : ∀ g ∈ groups, ∃ level ∈ levels, g.members <:+: level
  present : ∃ kept, List.Forall₂ KeptAs groups kept ∧ kept.Subperm after

/-- Reshaping keeps the words, the structural nodes and the sections that are neither
merged nor split. -/
structure NothingLost (e : Enricher) (sourcePath : String) (f : SectionForest) : Prop where
  words : (wordsOf f).Subperm (wordsOf (reshape e sourcePath f))
  nodes : (nodesOf f).Subperm (nodesOf (reshape e sourcePath f))
  descendants : Accounted f.levels (lowerGroups e sourcePath f) f.descendants
    (reshape e sourcePath f).descendants
  unsplit : Accounted [(splitSections sourcePath f).roots] (rootGroups e sourcePath f)
    (f.roots.filter fun s => !splits s) (reshape e sourcePath f).roots

theorem keptAs_result (g : Forest.Group ParsedSection) : KeptAs g (g.result mergeInto) := by
  obtain ⟨into, merged⟩ := g
  induction merged using List.reverseRecOn with
  | nil => exact ⟨rfl, List.prefix_refl _, fun _ => rfl⟩
  | append_singleton merged s ih =>
      have pushed := Forest.Group.result_push mergeInto ⟨into, merged⟩ s
      simp only [Forest.Group.push] at pushed
      rw [pushed]
      refine ⟨ih.1, ih.2.1.trans ?_, fun alone => by simp at alone⟩
      simp only [mergeInto, Ingestion.mergeInto, String.toList_append, List.append_assoc]
      exact List.prefix_append _ _

theorem forall₂_keptAs (groups : List (Forest.Group ParsedSection)) :
    List.Forall₂ KeptAs groups (groups.map (Forest.Group.result mergeInto)) := by
  rw [List.forall₂_map_right_iff]
  exact List.forall₂_same.mpr fun g _ => keptAs_result g

section NothingLost

variable {e : Enricher} {sourcePath : String} {f : SectionForest}

theorem SplitsBare.accounted (bare : SplitsBare f) :
    Accounted f.levels (lowerGroups e sourcePath f) f.descendants
      (reshape e sourcePath f).descendants where
  found := by
    rw [← (splitSections_of_bare sourcePath bare).2.2]
    exact (Forest.members_lowerGroups none _).symm.subperm
  siblings g mem := by
    obtain ⟨level, listed, within⟩ := Forest.infix_of_mem_lowerGroups mem
    rcases mem_levels_splitSections sourcePath listed with rfl | listed
    · cases List.infix_nil.mp within
    · exact ⟨level, listed, within⟩
  present := by
    refine ⟨_, forall₂_keptAs _, ?_⟩
    rw [reshape, coalesceSmallSections_eq]
    exact (Forest.descendants_coalesce _).symm.subperm

theorem accounted_unsplit (e : Enricher) (sourcePath : String) (f : SectionForest) :
    Accounted [(splitSections sourcePath f).roots] (rootGroups e sourcePath f)
      (f.roots.filter fun s => !splits s) (reshape e sourcePath f).roots where
  found := by
    rw [rootGroups, Forest.members_runs]
    exact (roots_splitSections sourcePath f).subperm
  siblings g mem := ⟨_, List.mem_singleton_self _, Forest.infix_of_mem_runs mem⟩
  present := by
    refine ⟨_, forall₂_keptAs _, ?_⟩
    rw [reshape, coalesceSmallSections_eq, Forest.roots_coalesce]
    exact List.Subperm.refl _

/-- A split section that owned nodes or children is missed. -/
theorem NothingLost.bare (kept : NothingLost e sourcePath f) : SplitsBare f := by
  refine bare_of_splitSections_length sourcePath ?_ ?_
  · rw [← (nodesOf_coalesce e (splitSections sourcePath f)).length_eq]
    exact kept.nodes.length_le
  · rw [← (Forest.members_lowerGroups none (splitSections sourcePath f)).length_eq]
    exact kept.descendants.found.length_le

end NothingLost

/-- **Reshaping loses nothing exactly when no section that is split owns children or
structural nodes**, whatever the tree, the token counter and the threshold. -/
theorem nothingLost_iff (e : Enricher) (sourcePath : String) (f : SectionForest) :
    NothingLost e sourcePath f ↔
      ∀ tree ∈ f.trees, splits tree.1 = true → tree.2 = .nil ∧ tree.1.structuralNodes = [] := by
  refine ⟨NothingLost.bare, fun bare => ?_⟩
  obtain ⟨sameWords, sameNodes, -⟩ := splitSections_of_bare sourcePath bare
  refine ⟨?_, ?_, SplitsBare.accounted bare, accounted_unsplit e sourcePath f⟩
  · rw [← sameWords]
    exact wordsOf_coalesce e _
  · rw [← sameNodes]
    exact (nodesOf_coalesce e _).symm.subperm

/-! ### A preface over the chapters -/

/-- 501 words in two paragraphs. -/
def longText : List Char := (List.replicate 500 ['a', ' ']).flatten ++ ['\n', '\n', 'b']

def preface : ParsedSection :=
  { id := "guide.md", headingPath := [], depth := 0, text := String.ofList longText, claims := [],
    summary := none, structuralNodes := [] }

def chapter : ParsedSection :=
  { id := "guide.md#setup", headingPath := ["Setup"], depth := 1, text := "Install it.",
    claims := [], summary := none, structuralNodes := [.codeBlock "sh" "make"] }

theorem preface_splits : splits preface = true := by
  simp only [splits, Content.wordCount, paragraphs, preface, String.toList_ofList]
  decide +kernel

/-- The chapter under a long preface is lost, also in the trees the parsers build. -/
theorem chapter_lost :
    ¬ ∀ (e : Enricher) (sourcePath : String) (flat : List ParsedSection),
      NothingLost e sourcePath (nestSections flat) := by
  intro kept
  have bare := (kept ⟨fun _ => 0, 0, fun _ _ => [], fun _ _ => ""⟩ "guide.md" [preface, chapter]).bare
  have nested : nestSections [preface, chapter] =
      .cons preface (.cons chapter .nil .nil) .nil := rfl
  rw [nested] at bare
  cases (bare _ List.mem_cons_self preface_splits).1

end Ministr.Ingestion.Reshape
