/-
# Parser.Markdown — the section tree of a Markdown document

`SectionCollector` walks the top-level nodes of a document.  A heading opens a section,
whose path is read off a stack of all headings so far; what follows goes to the section
opened last.  Sections in which nothing ended up are dropped, and `build_section_tree`
nests what is left by depth, with a stack of its own.

`outline` is the document as a reader sees it: its headings, each with the nodes under it.
`rawSections_eq` says that the collector finds exactly these.  The parent a section gets is
the nearest section before it that is less deep (`parents_parseSections`).  A heading
with nothing under it is gone by then, also when it closed that section, and what follows
it is filed under a section it does not belong to.  `faithful_iff` says that this is the
only way the tree and the headings disagree.
-/
import Ministr.Ingestion.Reshape
import Ministr.Theory.Preorder

namespace Ministr.Parser

open Ministr.Theory Ministr.Content Ministr.Ingestion.Reshape

set_option autoImplicit false

/-! ## Nodes -/

abbrev HeadingLevel := { n : Nat // 1 ≤ n ∧ n ≤ 6 }

/-- `NodeValue`, by the cases the parser tells apart. -/
inductive NodeValue where
  | heading (level : HeadingLevel)
  | frontMatter
  | codeBlock (info literal : String)
  | table
  | tableRow (header : Bool)
  | list (ordered : Bool)
  | text (t : String)
  | code (literal : String)
  | softBreak
  | lineBreak
  | other

inductive Node where
  | mk (value : NodeValue) (children : List Node)

namespace Node

def value : Node → NodeValue
  | mk value _ => value

def children : Node → List Node
  | mk _ children => children

end Node

/-- What a node adds to the inline text itself. -/
def NodeValue.inlineText : NodeValue → String
  | .text t => t
  | .code literal => "`" ++ literal ++ "`"
  | .softBreak => " "
  | .lineBreak => " "
  | _ => ""

mutual

/-- `collect_inline_text_recursive`. -/
def collectInlineTextRecursive (out : String) : Node → String
  | .mk value children => collectInlineTextAll (out ++ value.inlineText) children

def collectInlineTextAll (out : String) : List Node → String
  | [] => out
  | child :: children => collectInlineTextAll (collectInlineTextRecursive out child) children

end

/-- `collect_inline_text`. -/
def collectInlineText (node : Node) : String := collectInlineTextRecursive "" node

/-- `str::trim`. -/
def trimmed (s : String) : String := String.ofList (trim s.toList)

/-- `collect_list_items`. -/
def collectListItems (list : Node) : List String :=
  list.children.map fun item => trimmed (collectInlineText item)

def Node.isHeader (row : Node) : Bool :=
  match row.value with
  | .tableRow header => header
  | _ => false

/-- `collect_table`: the last header row counts. -/
def collectTable (table : Node) : List String × List (List String) :=
  table.children.foldl (fun (headers, rows) row =>
    let cells := row.children.map fun cell => trimmed (collectInlineText cell)
    if row.isHeader then (cells, rows) else (headers, rows ++ [cells])) ([], [])

/-- The table as text. -/
def tableText (headers : List String) (rows : List (List String)) : String :=
  rows.foldl (fun text row => text ++ "\n" ++ String.intercalate " | " row)
    (String.intercalate " | " headers)

/-- What a content node adds to its section. -/
def contentOf (node : Node) : List String × List StructuralNode :=
  match node.value with
  | .codeBlock info literal => ([literal], [.codeBlock (trimmed info) literal])
  | .table =>
      let (headers, rows) := collectTable node
      ([tableText headers rows], [.table headers rows])
  | .list ordered =>
      let items := collectListItems node
      ([String.intercalate "\n" items], [.listBlock ordered items])
  | _ =>
      let text := collectInlineText node
      (if text.isEmpty then [] else [text], [])

/-! ## The collector -/

structure RawSection where
  headingPath : List String
  depth : Nat
  textParts : List String := []
  structuralNodes : List StructuralNode := []

/-- The sections and the heading stack have their last element first. -/
structure SectionCollector where
  title : Option String := none
  sections : List RawSection := []
  headingStack : List (Nat × String) := []

/-- The stack after a heading: those at its level or deeper are popped. -/
def pushHeading (level : Nat) (text : String) (stack : List (Nat × String)) : List (Nat × String) :=
  (level, text) :: stack.dropWhile fun top => decide (level ≤ top.1)

def RawSection.addContent (s : RawSection) (node : Node) : RawSection :=
  { s with
    textParts := s.textParts ++ (contentOf node).1
    structuralNodes := s.structuralNodes ++ (contentOf node).2 }

namespace SectionCollector

/-- `ensure_current_section`, and the content goes there. -/
def addContent (c : SectionCollector) (node : Node) : SectionCollector :=
  match c.sections with
  | [] => { c with sections := [RawSection.addContent { headingPath := [], depth := 0 } node] }
  | current :: done => { c with sections := current.addContent node :: done }

/-- One round of `walk`. -/
def visit (c : SectionCollector) (node : Node) : SectionCollector :=
  match node.value with
  | .heading level =>
      let text := collectInlineText node
      let stack := pushHeading level text c.headingStack
      { title := c.title.or (some text)
        headingStack := stack
        sections := { headingPath := (stack.map Prod.snd).reverse, depth := level } :: c.sections }
  | .frontMatter => c
  | _ => c.addContent node

/-- `walk`. -/
def walk (c : SectionCollector) (nodes : List Node) : SectionCollector := nodes.foldl visit c

/-- `finalize`. -/
def finalize (c : SectionCollector) : SectionCollector :=
  { c with
    sections := c.sections.filter fun s => !s.textParts.isEmpty || !s.structuralNodes.isEmpty }

/-- `into_raw_sections`. -/
def intoRawSections (c : SectionCollector) : List RawSection := c.sections.reverse

end SectionCollector

/-! ## The tree -/

/-- `char::is_alphanumeric` and `char::to_lowercase`. -/
structure CharTables where
  isAlphanumeric : Char → Bool
  toLowercase : Char → List Char

section Tree

variable (chars : CharTables) (sourcePath : String)

/-- The loop of `slugify`. -/
def slugLoop (slug : List Char) (prevWasSeparator : Bool) : List Char → List Char
  | [] => slug
  | ch :: text =>
      if chars.isAlphanumeric ch then
        let slug := if prevWasSeparator && !slug.isEmpty then slug ++ ['-'] else slug
        slugLoop (slug ++ chars.toLowercase ch) false text
      else slugLoop slug true text

/-- `slugify`. -/
def slugify (text : String) : String := String.ofList (slugLoop chars [] false text.toList)

/-- `generate_section_id`. -/
def generateSectionId (headingPath : List String) : String :=
  if headingPath.isEmpty then sourcePath ++ "#root"
  else sourcePath ++ "#" ++ String.intercalate "/" (headingPath.map (slugify chars))

def RawSection.toSection (raw : RawSection) : ParsedSection :=
  { id := generateSectionId chars sourcePath raw.headingPath
    headingPath := raw.headingPath
    depth := raw.depth
    text := String.intercalate "\n\n" raw.textParts
    claims := []
    summary := none
    structuralNodes := raw.structuralNodes }

/-- `build_section_tree`. -/
def buildSectionTree (raw : List RawSection) : SectionForest :=
  nestSections (raw.map (RawSection.toSection chars sourcePath))

/-- The sections `MarkdownParser::parse` finds. -/
def parseSections (nodes : List Node) : SectionForest :=
  buildSectionTree chars sourcePath
    ((SectionCollector.walk {} nodes).finalize.intoRawSections)

end Tree

/-! ## The outline -/

/-- A heading and the nodes under it, up to the next heading.  The nodes before the first
heading are a block of level 0 without a title. -/
structure Block where
  level : Nat
  title : Option String
  contents : List Node

/-- The nodes up to the first heading, and the blocks from there on. -/
def splitBlocks : List Node → List Node × List Block
  | [] => ([], [])
  | node :: nodes =>
      let (lead, blocks) := splitBlocks nodes
      match node.value with
      | .heading level => ([], ⟨level, some (collectInlineText node), lead⟩ :: blocks)
      | .frontMatter => (lead, blocks)
      | _ => (node :: lead, blocks)

/-- The blocks of a document. -/
def outline (nodes : List Node) : List Block :=
  let (lead, blocks) := splitBlocks nodes
  if lead.isEmpty then blocks else ⟨0, none, lead⟩ :: blocks

namespace Block

def textParts (b : Block) : List String := b.contents.flatMap fun node => (contentOf node).1

def structuralNodes (b : Block) : List StructuralNode :=
  b.contents.flatMap fun node => (contentOf node).2

/-- There is something under the heading. -/
def retained (b : Block) : Bool := !b.textParts.isEmpty || !b.structuralNodes.isEmpty

end Block

/-- The blocks whose headings are not closed yet: all that follow are deeper. -/
def stillOpen : List Block → List Block
  | [] => []
  | b :: blocks =>
      if blocks.all fun later => decide (b.level < later.level) then b :: stillOpen blocks
      else stillOpen blocks

/-- The titles over the last block, and its own. -/
def pathOf (blocks : List Block) : List String := (stillOpen blocks).filterMap Block.title

/-- A block as a section; `before` are the blocks before it. -/
def Block.raw (before : List Block) (b : Block) : RawSection :=
  { headingPath := pathOf (before ++ [b])
    depth := b.level
    textParts := b.textParts
    structuralNodes := b.structuralNodes }

/-- All blocks as sections, in document order. -/
def sectionsFrom (before : List Block) : List Block → List RawSection
  | [] => []
  | b :: blocks => b.raw before :: sectionsFrom (before ++ [b]) blocks

/-- The blocks that keep their section, in document order. -/
def retainedFrom (before : List Block) : List Block → List RawSection
  | [] => []
  | b :: blocks =>
      if b.retained then b.raw before :: retainedFrom (before ++ [b]) blocks
      else retainedFrom (before ++ [b]) blocks

/-! ### What the collector finds -/

/-- The blocks as sections, with the heading stack of the collector. -/
def rawFrom (stack : List (Nat × String)) : List Block → List RawSection
  | [] => []
  | b :: blocks =>
      let stack := pushHeading b.level (b.title.getD "") stack
      { headingPath := (stack.map Prod.snd).reverse, depth := b.level, textParts := b.textParts,
        structuralNodes := b.structuralNodes } :: rawFrom stack blocks

/-- A section with more nodes under it. -/
def RawSection.addContents (s : RawSection) (nodes : List Node) : RawSection :=
  { s with
    textParts := s.textParts ++ nodes.flatMap fun node => (contentOf node).1
    structuralNodes := s.structuralNodes ++ nodes.flatMap fun node => (contentOf node).2 }

theorem RawSection.addContents_cons (s : RawSection) (node : Node) (nodes : List Node) :
    (s.addContent node).addContents nodes = s.addContents (node :: nodes) := by
  simp [RawSection.addContents, RawSection.addContent]

theorem RawSection.addContents_nil (s : RawSection) : s.addContents [] = s := by
  simp [RawSection.addContents]

/-- The walk from a state with a current section. -/
theorem walk_current (nodes : List Node) (title : Option String) (stack : List (Nat × String))
    (current : RawSection) (done : List RawSection) :
    (SectionCollector.walk ⟨title, current :: done, stack⟩ nodes).intoRawSections =
      done.reverse ++ current.addContents (splitBlocks nodes).1 ::
        rawFrom stack (splitBlocks nodes).2 := by
  induction nodes generalizing title stack current done with
  | nil => simp [SectionCollector.walk, SectionCollector.intoRawSections, splitBlocks, rawFrom,
      RawSection.addContents_nil]
  | cons node nodes ih =>
      rw [SectionCollector.walk, List.foldl_cons]
      change (SectionCollector.walk _ nodes).intoRawSections = _
      obtain ⟨value, children⟩ := node
      cases value with
      | heading level =>
          simp only [SectionCollector.visit, Node.value]
          rw [ih]
          simp [splitBlocks, Node.value, rawFrom, RawSection.addContents, Block.textParts,
            Block.structuralNodes]
      | frontMatter =>
          simp only [SectionCollector.visit, Node.value]
          rw [ih]
          simp [splitBlocks, Node.value]
      | _ =>
          simp only [SectionCollector.visit, Node.value, SectionCollector.addContent]
          rw [ih, RawSection.addContents_cons]
          simp [splitBlocks, Node.value]

/-- The walk from the start. -/
theorem walk_start (nodes : List Node) (title : Option String) :
    (SectionCollector.walk ⟨title, [], []⟩ nodes).intoRawSections =
      (if (splitBlocks nodes).1.isEmpty then []
        else [RawSection.addContents ⟨[], 0, [], []⟩ (splitBlocks nodes).1]) ++
        rawFrom [] (splitBlocks nodes).2 := by
  induction nodes generalizing title with
  | nil => rfl
  | cons node nodes ih =>
      rw [SectionCollector.walk, List.foldl_cons]
      change (SectionCollector.walk _ nodes).intoRawSections = _
      obtain ⟨value, children⟩ := node
      cases value with
      | heading level =>
          simp only [SectionCollector.visit, Node.value]
          rw [walk_current]
          simp [splitBlocks, Node.value, rawFrom, RawSection.addContents, Block.textParts,
            Block.structuralNodes]
      | frontMatter =>
          simp only [SectionCollector.visit, Node.value]
          rw [ih]
          simp [splitBlocks, Node.value]
      | _ =>
          simp only [SectionCollector.visit, Node.value, SectionCollector.addContent]
          rw [walk_current, RawSection.addContents_cons]
          simp [splitBlocks, Node.value]

/-! ### The heading stack -/

theorem stillOpen_append (blocks more : List Block) :
    stillOpen (blocks ++ more) =
      ((stillOpen blocks).filter fun b => more.all fun later => decide (b.level < later.level)) ++
        stillOpen more := by
  induction blocks with
  | nil => rfl
  | cons b blocks ih =>
      rw [List.cons_append, stillOpen, List.all_append, ih, stillOpen]
      cases here : blocks.all fun later => decide (b.level < later.level) with
      | false => simp
      | true => cases there : more.all fun later => decide (b.level < later.level) <;> simp [there]

theorem mem_of_mem_stillOpen {blocks : List Block} {b : Block} (mem : b ∈ stillOpen blocks) :
    b ∈ blocks := by
  induction blocks with
  | nil => cases mem
  | cons first blocks ih =>
      rw [stillOpen] at mem
      split at mem
      · exact List.mem_cons.mpr ((List.mem_cons.mp mem).imp_right ih)
      · exact List.mem_cons_of_mem _ (ih mem)

theorem pairwise_stillOpen (blocks : List Block) :
    (stillOpen blocks).Pairwise fun a b => a.level < b.level := by
  induction blocks with
  | nil => exact .nil
  | cons first blocks ih =>
      rw [stillOpen]
      split
      · rename_i deeper
        refine .cons (fun b mem => ?_) ih
        exact of_decide_eq_true (List.all_eq_true.mp deeper b (mem_of_mem_stillOpen mem))
      · exact ih

/-- The stack of the collector after some blocks. -/
def openStack (blocks : List Block) : List (Nat × String) :=
  ((stillOpen blocks).filterMap fun b => b.title.map fun text => (b.level, text)).reverse

theorem pairwise_openStack (blocks : List Block) :
    (openStack blocks).Pairwise fun a b => b.1 < a.1 := by
  rw [openStack, List.pairwise_reverse, List.pairwise_filterMap]
  refine (pairwise_stillOpen blocks).imp ?_
  intro a b less x fromA y fromB
  obtain ⟨_, -, rfl⟩ := Option.map_eq_some_iff.mp fromA
  obtain ⟨_, -, rfl⟩ := Option.map_eq_some_iff.mp fromB
  exact less

/-- On a stack whose levels fall, popping is filtering. -/
theorem dropWhile_eq_filter (level : Nat) {stack : List (Nat × String)}
    (falling : stack.Pairwise fun a b => b.1 < a.1) :
    (stack.dropWhile fun top => decide (level ≤ top.1)) =
      stack.filter fun entry => decide (entry.1 < level) := by
  induction stack with
  | nil => rfl
  | cons top stack ih =>
      obtain ⟨below, falling⟩ := List.pairwise_cons.mp falling
      by_cases deep : level ≤ top.1
      · rw [List.dropWhile_cons_of_pos (by simpa using deep), ih falling,
          List.filter_cons_of_neg (by simpa using deep)]
      · rw [List.dropWhile_cons_of_neg (by simpa using deep), eq_comm, List.filter_eq_self]
        intro entry mem
        rw [decide_eq_true_eq]
        rcases List.mem_cons.mp mem with rfl | mem
        · omega
        · have := below entry mem
          omega

theorem openStack_concat (before : List Block) {b : Block} {text : String}
    (titled : b.title = some text) :
    openStack (before ++ [b]) = pushHeading b.level text (openStack before) := by
  have one : stillOpen [b] = [b] := rfl
  rw [pushHeading, dropWhile_eq_filter _ (pairwise_openStack before), openStack, stillOpen_append,
    one, List.filterMap_append, List.reverse_append, openStack, List.filter_reverse,
    List.filter_filterMap, List.filterMap_filter]
  simp only [List.filterMap_cons, titled, Option.map_some, List.filterMap_nil,
    List.reverse_singleton, List.singleton_append]
  congr 3
  funext a
  by_cases less : a.level < b.level
  · cases a.title <;> simp [less, Option.filter]
  · cases a.title <;> simp [less, Option.filter]

theorem snd_openStack (blocks : List Block) :
    ((openStack blocks).map Prod.snd).reverse = pathOf blocks := by
  rw [openStack, List.map_reverse, List.reverse_reverse, List.map_filterMap, pathOf]
  congr 1
  funext b
  cases b.title <;> rfl

theorem rawFrom_eq {before blocks : List Block} (titled : ∀ b ∈ blocks, b.title.isSome) :
    rawFrom (openStack before) blocks = sectionsFrom before blocks := by
  induction blocks generalizing before with
  | nil => rfl
  | cons b blocks ih =>
      obtain ⟨text, here⟩ := Option.isSome_iff_exists.mp (titled b List.mem_cons_self)
      have stack := openStack_concat before here
      rw [rawFrom, sectionsFrom]
      simp only [here, Option.getD_some]
      rw [← stack, ih fun a mem => titled a (List.mem_cons_of_mem _ mem), snd_openStack]
      rfl

theorem splitBlocks_titled (nodes : List Node) : ∀ b ∈ (splitBlocks nodes).2, b.title.isSome := by
  induction nodes with
  | nil => exact nofun
  | cons node nodes ih =>
      obtain ⟨value, children⟩ := node
      cases value <;> simpa [splitBlocks, Node.value] using ih

theorem filter_sectionsFrom (before blocks : List Block) :
    ((sectionsFrom before blocks).filter fun s =>
      !s.textParts.isEmpty || !s.structuralNodes.isEmpty) = retainedFrom before blocks := by
  induction blocks generalizing before with
  | nil => rfl
  | cons b blocks ih =>
      rw [sectionsFrom, retainedFrom, List.filter_cons, ih]
      rfl

/-- **The collector finds the blocks of the document** that hold something, in their order,
each with the titles of the headings over it. -/
theorem rawSections_eq (nodes : List Node) :
    (SectionCollector.walk {} nodes).finalize.intoRawSections = retainedFrom [] (outline nodes) := by
  have found : (SectionCollector.walk {} nodes).intoRawSections = sectionsFrom [] (outline nodes) := by
    have titled := splitBlocks_titled nodes
    rw [walk_start]
    simp only [outline]
    cases lead : (splitBlocks nodes).1 with
    | nil => exact @rawFrom_eq [] _ titled
    | cons node rest =>
        have later := @rawFrom_eq [⟨0, none, node :: rest⟩] _ titled
        have empty : openStack [⟨0, none, node :: rest⟩] = [] := rfl
        rw [empty] at later
        simp only [List.isEmpty_cons, Bool.false_eq_true, if_false]
        rw [sectionsFrom, List.nil_append, ← later]
        simp [RawSection.addContents, Block.raw, Block.textParts, Block.structuralNodes, pathOf,
          stillOpen]
  rw [← filter_sectionsFrom, ← found]
  exact (List.filter_reverse ..).symm

/-! ## Nesting by depth -/

section Nesting

/-- The trees a closed section is appended to. -/
def openChildren (result : SectionForest) : List (ParsedSection × SectionForest) → SectionForest
  | [] => result
  | (_, children) :: _ => children

/-- A section of this depth may come next on top of the stack. -/
def Fits (result : SectionForest) (stack : List (ParsedSection × SectionForest)) (depth : Nat) :
    Prop :=
  (∀ top ∈ stack.head?, top.1.depth < depth) ∧
    ∀ b ∈ (openChildren result stack).roots.getLast?, depth ≤ b.depth

/-- What `nest_sections` keeps: every open section fits on the one under it. -/
def StackNested (result : SectionForest) : List (ParsedSection × SectionForest) → Prop
  | [] => Forest.Nested (fun s : ParsedSection => s.depth) result
  | (top, children) :: stack =>
      (∀ b ∈ children.roots, top.depth < b.depth) ∧
        Forest.Nested (fun s : ParsedSection => s.depth) children ∧
        Fits result stack top.depth ∧ StackNested result stack

theorem closeDeeper_nested {depth : Nat} {result pending : SectionForest}
    {stack : List (ParsedSection × SectionForest)} (ok : StackNested result stack)
    (nested : Forest.Nested (fun s : ParsedSection => s.depth) pending)
    (fits : ∀ b ∈ pending.roots, Fits result stack b.depth)
    (last : ∀ b ∈ ((openChildren result stack).append pending).roots.getLast?, depth ≤ b.depth) :
    StackNested (closeDeeper depth result pending stack).1
        (closeDeeper depth result pending stack).2 ∧
      Fits (closeDeeper depth result pending stack).1 (closeDeeper depth result pending stack).2
        depth := by
  have seam : ∀ a ∈ (openChildren result stack).roots.getLast?, ∀ b ∈ pending.roots.head?,
      b.depth ≤ a.depth := fun a there b mem =>
    (fits b (List.mem_of_mem_head? mem)).2 a there
  induction stack generalizing pending with
  | nil =>
      refine ⟨Forest.Nested.append ok nested seam, ?_, last⟩
      intro top mem
      cases mem
  | cons entry stack ih =>
      obtain ⟨top, children⟩ := entry
      obtain ⟨deeper, below, onTop, rest⟩ := ok
      have joined : Forest.Nested (fun s : ParsedSection => s.depth) (children.append pending) :=
        below.append nested seam
      have under : ∀ b ∈ (children.append pending).roots, top.depth < b.depth := by
        intro b mem
        rw [Forest.roots_append] at mem
        rcases List.mem_append.mp mem with mem | mem
        · exact deeper b mem
        · exact (fits b mem).1 _ rfl
      simp only [closeDeeper]
      split
      · rename_i shallow
        have alone : ∀ b ∈ (Forest.cons top (children.append pending) .nil).roots, b = top :=
          fun b mem => List.mem_singleton.mp mem
        have single : Forest.Nested (fun s : ParsedSection => s.depth)
            (.cons top (children.append pending) .nil) := by
          refine ⟨under, joined, ?_, trivial⟩
          intro b mem
          cases mem
        refine ih rest single (fun b mem => alone b mem ▸ onTop) ?_ ?_
        · intro b mem
          rw [Forest.roots_append] at mem
          simp only [Forest.roots, List.getLast?_append, List.getLast?_singleton, Option.some_or,
            Option.mem_def, Option.some.injEq] at mem
          exact mem ▸ shallow
        · intro a there b mem
          rw [alone b (List.mem_of_mem_head? mem)]
          exact onTop.2 a there
      · rename_i deep
        refine ⟨⟨under, joined, onTop, rest⟩, ?_, last⟩
        intro entry mem
        cases mem
        exact Nat.lt_of_not_le deep

theorem nestLoop_nested {flat : List ParsedSection} {result : SectionForest}
    {stack : List (ParsedSection × SectionForest)} (ok : StackNested result stack)
    (fresh : openChildren result stack = .nil) :
    Forest.Nested (fun s : ParsedSection => s.depth) (nestLoop result stack flat) := by
  have closed := fun depth => @closeDeeper_nested depth result .nil stack ok trivial nofun
    (by rw [fresh]; exact nofun)
  induction flat generalizing result stack with
  | nil =>
      have done := (closed 0).1
      rw [closeDeeper_zero] at done
      exact done
  | cons s flat ih =>
      obtain ⟨kept, next⟩ := closed s.depth
      have pushed : StackNested (closeDeeper s.depth result .nil stack).1
          ((s, .nil) :: (closeDeeper s.depth result .nil stack).2) := ⟨nofun, trivial, next, kept⟩
      exact ih pushed rfl fun depth =>
        closeDeeper_nested pushed trivial nofun nofun

/-- Every child is deeper than its parent, and siblings do not get deeper. -/
theorem nested_nestSections (flat : List ParsedSection) :
    Forest.Nested (fun s : ParsedSection => s.depth) (nestSections flat) :=
  nestLoop_nested trivial rfl

/-- The parent of a section is the nearest one before it that is less deep. -/
theorem parents_nestSections (flat : List ParsedSection) :
    (nestSections flat).parents = shallowerFrom (fun s : ParsedSection => s.depth) [] flat := by
  rw [Forest.parents_eq (nested_nestSections flat), labels_nestSections]

end Nesting

/-! ## Tree and headings -/

/-- The nearest block before `s` that is retained, less deep and still open, by its number
among the retained ones. -/
def nearestEnclosing (s : Block) : List Block → Option Nat
  | [] => none
  | p :: blocks =>
      match nearestEnclosing s blocks with
      | some i => some (if p.retained then i + 1 else i)
      | none =>
          if p.retained ∧ p.level < s.level ∧ ∀ b ∈ blocks, p.level < b.level then some 0
          else none

/-- The tree follows the headings of the document. -/
structure Faithful (chars : CharTables) (sourcePath : String) (nodes : List Node) : Prop where
  listing : (parseSections chars sourcePath nodes).labels =
    (retainedFrom [] (outline nodes)).map (RawSection.toSection chars sourcePath)
  deeper : ∀ (i j : Nat) (s : ParsedSection), (parseSections chars sourcePath nodes).parents[i]? = some (some j) →
    (parseSections chars sourcePath nodes).labels[i]? = some s →
      ∃ p : ParsedSection,
        (parseSections chars sourcePath nodes).labels[j]? = some p ∧ p.depth < s.depth
  parent : ∀ before s after, outline nodes = before ++ s :: after → s.retained = true →
    (parseSections chars sourcePath nodes).parents[before.countP Block.retained]? =
      some (nearestEnclosing s before)
  path : ∀ (i j : Nat) (s p : ParsedSection),
    (parseSections chars sourcePath nodes).parents[i]? = some (some j) →
    (parseSections chars sourcePath nodes).labels[i]? = some s →
    (parseSections chars sourcePath nodes).labels[j]? = some p → p.depth ≠ 0 →
      p.headingPath <+: s.headingPath ∧ p.headingPath.length < s.headingPath.length

/-- No heading without content closes the section that the next one is filed under: the
nearest retained block before it that is less deep. -/
def ClosersRetained (blocks : List Block) : Prop :=
  ∀ before p between s after, blocks = before ++ p :: between ++ s :: after →
    p.retained = true → s.retained = true → p.level < s.level →
    (∀ b ∈ between, b.retained = true → s.level ≤ b.level) →
      ∀ b ∈ between, b.retained = false → p.level < b.level

/-! ### Positions among the retained blocks -/

theorem retainedFrom_append (before as bs : List Block) :
    retainedFrom before (as ++ bs) = retainedFrom before as ++ retainedFrom (before ++ as) bs := by
  induction as generalizing before with
  | nil => simp [retainedFrom]
  | cons a as ih =>
      simp only [List.cons_append, retainedFrom, ih]
      split <;> simp

theorem length_retainedFrom (before blocks : List Block) :
    (retainedFrom before blocks).length = blocks.countP Block.retained := by
  induction blocks generalizing before with
  | nil => rfl
  | cons b blocks ih =>
      rw [retainedFrom, List.countP_cons]
      split
      · rw [List.length_cons, ih]
      · rw [ih, Nat.add_zero]

theorem depths_retainedFrom (before blocks : List Block) :
    (retainedFrom before blocks).map RawSection.depth =
      (blocks.filter Block.retained).map Block.level := by
  induction blocks generalizing before with
  | nil => rfl
  | cons b blocks ih =>
      rw [retainedFrom, List.filter_cons]
      split
      · rw [List.map_cons, List.map_cons, ih]
        rfl
      · exact ih _

/-- A retained section is the section of a block. -/
theorem exists_block_of_retainedFrom {before blocks : List Block} {i : Nat} {raw : RawSection}
    (found : (retainedFrom before blocks)[i]? = some raw) :
    ∃ earlier b later, blocks = earlier ++ b :: later ∧ b.retained = true ∧
      i = earlier.countP Block.retained ∧ raw = b.raw (before ++ earlier) := by
  induction blocks generalizing before i with
  | nil => cases found
  | cons b blocks ih =>
      rw [retainedFrom] at found
      split at found
      · rename_i kept
        cases i with
        | zero =>
            cases found
            exact ⟨[], b, blocks, rfl, kept, rfl, by rw [List.append_nil]⟩
        | succ i =>
            obtain ⟨earlier, c, later, rfl, keptC, rfl, rfl⟩ := ih found
            refine ⟨b :: earlier, c, later, rfl, keptC, ?_, by simp⟩
            rw [List.countP_cons_of_pos kept]
      · rename_i dropped
        obtain ⟨earlier, c, later, rfl, keptC, rfl, rfl⟩ := ih found
        refine ⟨b :: earlier, c, later, rfl, keptC, ?_, by simp⟩
        rw [List.countP_cons_of_neg dropped]

theorem retainedFrom_at {before b after} (kept : Block.retained b = true) :
    (retainedFrom [] (before ++ b :: after))[before.countP Block.retained]? =
      some (b.raw before) := by
  rw [retainedFrom_append, List.getElem?_append_right (by rw [length_retainedFrom]),
    length_retainedFrom, Nat.sub_self, retainedFrom, if_pos kept]
  rfl

/-! ### Which block encloses which -/

theorem nearestEnclosing_spec {s : Block} {blocks : List Block} {j : Nat}
    (found : nearestEnclosing s blocks = some j) :
    ∃ before p between, blocks = before ++ p :: between ∧ p.retained = true ∧
      p.level < s.level ∧ (∀ b ∈ between, p.level < b.level) ∧
        j = before.countP Block.retained := by
  induction blocks generalizing j with
  | nil => cases found
  | cons first blocks ih =>
      rw [nearestEnclosing] at found
      cases later : nearestEnclosing s blocks with
      | some i =>
          rw [later] at found
          obtain ⟨before, p, between, rfl, kept, less, open', rfl⟩ := ih later
          refine ⟨first :: before, p, between, rfl, kept, less, open', ?_⟩
          cases found
          rw [List.countP_cons]
          split <;> rfl
      | none =>
          rw [later] at found
          dsimp only at found
          split at found
          · rename_i encloses
            cases found
            exact ⟨[], first, blocks, rfl, encloses.1, encloses.2.1, encloses.2.2, rfl⟩
          · cases found

/-- The position of the nearest retained block that is less deep. -/
def nearestShallower (s : Block) (blocks : List Block) : Option Nat :=
  lastIdx (fun level => decide (level < s.level)) ((blocks.filter Block.retained).map Block.level)

theorem nearestShallower_eq_none {s : Block} {blocks : List Block} :
    nearestShallower s blocks = none ↔ ∀ b ∈ blocks, b.retained = true → s.level ≤ b.level := by
  rw [nearestShallower, lastIdx_eq_none, List.forall_mem_map]
  simp [List.mem_filter]

theorem nearestShallower_cons (s first : Block) (blocks : List Block) :
    nearestShallower s (first :: blocks) =
      match nearestShallower s blocks with
      | some i => some (if first.retained then i + 1 else i)
      | none => if first.retained ∧ first.level < s.level then some 0 else none := by
  unfold nearestShallower
  cases kept : first.retained with
  | false =>
      rw [List.filter_cons_of_neg (by simp [kept])]
      split <;> simp_all
  | true =>
      rw [List.filter_cons_of_pos kept, List.map_cons, lastIdx]
      split <;> simp_all

theorem nearestEnclosing_of_shallower {s : Block} {blocks : List Block}
    (nothing : nearestShallower s blocks = none) : nearestEnclosing s blocks = none := by
  by_contra found
  obtain ⟨j, found⟩ := Option.ne_none_iff_exists'.mp found
  obtain ⟨before, p, between, rfl, kept, less, -, -⟩ := nearestEnclosing_spec found
  have deep := nearestShallower_eq_none.mp nothing p (by simp) kept
  omega

/-- The nearest less deep block is the one that encloses exactly when no heading without
content closed it. -/
theorem nearestEnclosing_iff {s : Block} {blocks : List Block} :
    nearestEnclosing s blocks = nearestShallower s blocks ↔
      ∀ before p between, blocks = before ++ p :: between → p.retained = true →
        p.level < s.level → (∀ b ∈ between, b.retained = true → s.level ≤ b.level) →
          ∀ b ∈ between, b.retained = false → p.level < b.level := by
  induction blocks with
  | nil => simp [nearestEnclosing, nearestShallower, lastIdx]
  | cons first blocks ih =>
      have parts : (∀ before p between, first :: blocks = before ++ p :: between →
          p.retained = true → p.level < s.level →
          (∀ b ∈ between, b.retained = true → s.level ≤ b.level) →
            ∀ b ∈ between, b.retained = false → p.level < b.level) ↔
          (first.retained = true → first.level < s.level →
            (∀ b ∈ blocks, b.retained = true → s.level ≤ b.level) →
              ∀ b ∈ blocks, b.retained = false → first.level < b.level) ∧
          nearestEnclosing s blocks = nearestShallower s blocks := by
        rw [ih]
        constructor
        · intro all
          exact ⟨all [] first blocks rfl, fun before p between eq =>
            all (first :: before) p between (by rw [eq]; rfl)⟩
        · rintro ⟨here, later⟩ before p between eq
          cases before with
          | nil =>
              cases eq
              exact here
          | cons b before =>
              cases eq
              exact later before p between rfl
      rw [parts, nearestEnclosing, nearestShallower_cons]
      cases shallower : nearestShallower s blocks with
      | none =>
          have deep := nearestShallower_eq_none.mp shallower
          rw [nearestEnclosing_of_shallower shallower]
          by_cases above : first.retained = true ∧ first.level < s.level
          · have all : (∀ b ∈ blocks, first.level < b.level) ↔
                ∀ b ∈ blocks, b.retained = false → first.level < b.level := by
              refine ⟨fun less b mem _ => less b mem, fun less b mem => ?_⟩
              cases kept : b.retained with
              | false => exact less b mem kept
              | true => exact Nat.lt_of_lt_of_le above.2 (deep b mem kept)
            simp only [above.1, above.2, all, true_and, and_true, if_true]
            split
            · rename_i less
              exact iff_of_true rfl fun _ _ _ => less
            · rename_i less
              refine iff_of_false ?_ fun closed => less (closed trivial trivial deep)
              intro none
              cases none
          · have off : ¬ (first.retained = true ∧ first.level < s.level ∧
                ∀ b ∈ blocks, first.level < b.level) := fun all => above ⟨all.1, all.2.1⟩
            rw [if_neg above, if_neg off]
            exact iff_of_true rfl ⟨fun kept less => absurd ⟨kept, less⟩ above, rfl⟩
      | some i =>
          have seen : ¬ ∀ b ∈ blocks, b.retained = true → s.level ≤ b.level := by
            rw [← nearestShallower_eq_none, shallower]
            intro none
            cases none
          cases enclosing : nearestEnclosing s blocks with
          | none =>
              refine iff_of_false ?_ ?_
              · dsimp only
                cases kept : first.retained with
                | false => simp
                | true => split <;> simp
              · intro both
                cases both.2
          | some j => cases kept : first.retained <;> simp [seen]

/-! ### The parent, and its path -/

section Faithful

variable {chars : CharTables} {sourcePath : String} {nodes : List Node}

theorem labels_parseSections :
    (parseSections chars sourcePath nodes).labels =
      (retainedFrom [] (outline nodes)).map (RawSection.toSection chars sourcePath) := by
  rw [parseSections, buildSectionTree, labels_nestSections, rawSections_eq]

theorem lastIdx_map {α β : Type} (f : α → β) (p : β → Bool) (as : List α) :
    lastIdx p (as.map f) = lastIdx (fun a => p (f a)) as := by
  induction as with
  | nil => rfl
  | cons a as ih => rw [List.map_cons, lastIdx, ih, lastIdx]

/-- The parent a retained block gets. -/
theorem parents_parseSections {before : List Block} {s : Block} {after : List Block}
    (eq : outline nodes = before ++ s :: after) (kept : s.retained = true) :
    (parseSections chars sourcePath nodes).parents[before.countP Block.retained]? =
      some (nearestShallower s before) := by
  have sections : retainedFrom [] (outline nodes) =
      retainedFrom [] before ++ s.raw before :: retainedFrom (before ++ [s]) after := by
    rw [eq, retainedFrom_append, retainedFrom, if_pos kept]
    rfl
  have place : before.countP Block.retained =
      ((retainedFrom [] before).map (RawSection.toSection chars sourcePath)).length := by
    rw [List.length_map, length_retainedFrom]
  rw [parseSections, buildSectionTree, rawSections_eq, parents_nestSections, sections,
    List.map_append, List.map_cons, place, shallowerFrom_at, nearestShallower,
    ← depths_retainedFrom [], lastIdx_map, lastIdx_map]
  rfl

/-- Only the first block may be without a title. -/
theorem outline_titled {before : List Block} {first b : Block} {after : List Block}
    (eq : outline nodes = first :: before ++ b :: after) : b.title.isSome := by
  refine splitBlocks_titled nodes b ?_
  simp only [outline] at eq
  split at eq
  · rw [eq]
    simp
  · rw [List.cons_append, List.cons.injEq] at eq
    rw [eq.2]
    simp

theorem pathOf_concat {before : List Block} {b : Block} {text : String}
    (titled : b.title = some text) : pathOf (before ++ [b]) ≠ [] := by
  rw [pathOf, stillOpen_append, List.filterMap_append]
  simp [stillOpen, titled]

/-- Under an open block, paths start with the path of that block. -/
theorem pathOf_enclosed {before : List Block} {p : Block} {rest : List Block}
    (deeper : ∀ b ∈ rest, p.level < b.level) :
    pathOf (before ++ p :: rest) = pathOf (before ++ [p]) ++ pathOf rest := by
  have all : ((stillOpen (before ++ [p])).filter fun a =>
      rest.all fun later => decide (a.level < later.level)) = stillOpen (before ++ [p]) := by
    rw [List.filter_eq_self]
    intro a mem
    have le : a.level ≤ p.level := by
      rw [stillOpen_append] at mem
      rcases List.mem_append.mp mem with mem | mem
      · have less := (List.mem_filter.mp mem).2
        simp only [List.all_cons, List.all_nil, Bool.and_true, decide_eq_true_eq] at less
        omega
      · rw [List.mem_singleton.mp mem]
    rw [List.all_eq_true]
    intro later there
    have less := deeper later there
    rw [decide_eq_true_eq]
    omega
  rw [List.append_cons, pathOf, stillOpen_append, all, List.filterMap_append]
  rfl

/-- With no closing heading lost, a parent encloses its child. -/
theorem ClosersRetained.enclosed (closers : ClosersRetained (outline nodes)) {i j : Nat}
    {s : ParsedSection}
    (parent : (parseSections chars sourcePath nodes).parents[i]? = some (some j))
    (found : (parseSections chars sourcePath nodes).labels[i]? = some s) :
    ∃ (before : List Block) (p : Block) (between : List Block) (b : Block),
      s = (b.raw (before ++ p :: between)).toSection chars sourcePath ∧
      (parseSections chars sourcePath nodes).labels[j]? =
        some ((p.raw before).toSection chars sourcePath) ∧
      p.level < b.level ∧ (∀ c ∈ between, p.level < c.level) ∧ b.title.isSome := by
  rw [labels_parseSections, List.getElem?_map, Option.map_eq_some_iff] at found
  obtain ⟨raw, found, rfl⟩ := found
  obtain ⟨earlier, b, later, eq, kept, rfl, rfl⟩ := exists_block_of_retainedFrom found
  have encloses : nearestEnclosing b earlier = nearestShallower b earlier :=
    nearestEnclosing_iff.mpr fun before p between here keptP =>
      closers before p between b later (here ▸ eq) keptP kept
  rw [parents_parseSections eq kept, ← encloses, Option.some.injEq] at parent
  obtain ⟨before, p, between, rfl, keptP, less, deeper, rfl⟩ := nearestEnclosing_spec parent
  refine ⟨before, p, between, b, rfl, ?_, less, deeper, ?_⟩
  · rw [labels_parseSections, List.getElem?_map, eq, List.append_assoc, List.cons_append,
      retainedFrom_at keptP]
    rfl
  · cases before with
    | nil => exact outline_titled eq
    | cons first before => exact outline_titled eq

/-- **A tree that follows the headings loses no closing heading.** -/
theorem Faithful.closersRetained (faithful : Faithful chars sourcePath nodes) :
    ClosersRetained (outline nodes) := by
  intro before p between s after eq keptP keptS less deep
  have parent := faithful.parent (before ++ p :: between) s after eq keptS
  rw [parents_parseSections eq keptS, Option.some.injEq] at parent
  exact nearestEnclosing_iff.mp parent.symm before p between rfl keptP less deep

end Faithful

/-- **The tree follows the headings exactly when no heading without content closes the
section the next one is filed under.** -/
theorem faithful_iff (chars : CharTables) (sourcePath : String) (nodes : List Node) :
    Faithful chars sourcePath nodes ↔ ClosersRetained (outline nodes) := by
  refine ⟨Faithful.closersRetained, fun closers => ⟨labels_parseSections, ?_, ?_, ?_⟩⟩
  · intro i j s parent found
    obtain ⟨before, p, between, b, rfl, there, less, -, -⟩ := closers.enclosed parent found
    exact ⟨_, there, less⟩
  · intro before s after eq kept
    rw [parents_parseSections eq kept, Option.some.injEq, eq_comm, nearestEnclosing_iff]
    intro earlier p between here keptP
    exact closers earlier p between s after (here ▸ eq) keptP kept
  · intro i j s p parent found there _
    obtain ⟨before, q, between, b, rfl, place, less, deeper, titled⟩ := closers.enclosed parent found
    rw [place, Option.some.injEq] at there
    subst there
    obtain ⟨text, titled⟩ := Option.isSome_iff_exists.mp titled
    have path : pathOf (before ++ q :: between ++ [b]) =
        pathOf (before ++ [q]) ++ pathOf (between ++ [b]) := by
      rw [List.append_assoc, List.cons_append]
      refine pathOf_enclosed fun c mem => ?_
      rcases List.mem_append.mp mem with mem | mem
      · exact deeper c mem
      · rw [List.mem_singleton.mp mem]
        exact less
    have longer := List.length_pos_of_ne_nil (@pathOf_concat between b text titled)
    show pathOf (before ++ [q]) <+: pathOf (before ++ q :: between ++ [b]) ∧
      (pathOf (before ++ [q])).length < (pathOf (before ++ q :: between ++ [b])).length
    rw [path, List.length_append]
    exact ⟨List.prefix_append _ _, by omega⟩

/-! ### A chapter that was left empty -/

def headingNode (level : HeadingLevel) (title : String) : Node :=
  .mk (.heading level) [.mk (.text title) []]

def paragraph (text : String) : Node := .mk .other [.mk (.text text) []]

/-- `# Setup`, `## Linux`, `# Usage` and `### Search`, with nothing under `# Usage`. -/
def draft : List Node :=
  [headingNode ⟨1, by decide⟩ "Setup", paragraph "Before you start.",
    headingNode ⟨2, by decide⟩ "Linux", paragraph "Run the script.",
    headingNode ⟨1, by decide⟩ "Usage",
    headingNode ⟨3, by decide⟩ "Search", paragraph "By words."]

def setup : Block := ⟨1, some "Setup", [paragraph "Before you start."]⟩

def linux : Block := ⟨2, some "Linux", [paragraph "Run the script."]⟩

def emptyUsage : Block := ⟨1, some "Usage", []⟩

def searching : Block := ⟨3, some "Search", [paragraph "By words."]⟩

/-- `### Search` ends up under `## Linux`. -/
theorem search_filed_under_linux :
    ¬ ∀ (chars : CharTables) (sourcePath : String) (nodes : List Node),
      Faithful chars sourcePath nodes := by
  intro faithful
  have closers := (faithful ⟨Char.isAlphanum, fun c => [c.toLower]⟩ "guide.md" draft).closersRetained
  have blocks : outline draft = [setup] ++ linux :: [emptyUsage] ++ searching :: [] := by rfl
  have closed := closers [setup] linux [emptyUsage] searching [] blocks (by decide)
    (by decide) (by decide) (by decide) emptyUsage List.mem_cons_self rfl
  exact absurd closed (by decide)

end Ministr.Parser
