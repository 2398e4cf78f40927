/-
# Parser.HtmlToMd — Markdown from a page

The converter walks the nodes of a page and appends Markdown to what it has written.  Texts are
handled by where they stand: whitespace is collapsed among the children of an element, trimmed in an
item of a list, and passed over in the list itself.  A last pass takes out blank lines.

The converter only looks at characters.  Each one carries what it was written for, so that what is
left when the marks are deleted can be said, and what stands between two fences.
-/
import Ministr.Git.Diff
import Ministr.Theory.ByteOffsets
import Ministr.Theory.WordGaps

namespace Ministr.Parser.HtmlToMd

open Ministr.Theory Ministr.Content Ministr.Git

set_option autoImplicit false

/-! ## Nodes -/

/-- Elements with the attributes that are read: the classes of `code` and the target of `a`. -/
inductive Element where
  | p
  | li
  | ul
  | ol
  | strong
  | em
  | code (classes : List Char)
  | a (href : List Char)
  | div
  | pre
  deriving DecidableEq, Repr

/-- The children of a node, from the first on. -/
inductive Forest where
  | nil
  | text (chars : List Char) (next : Forest)
  | element (tag : Element) (children next : Forest)
  deriving DecidableEq, Repr

/-- `element.text().collect()`. -/
def Forest.inlineText : Forest → List Char
  | .nil => []
  | .text chars next => chars ++ next.inlineText
  | .element _ children next => children.inlineText ++ next.inlineText

/-- `select("code").next()`: its classes and its text. -/
def Forest.firstCode : Forest → Option (List Char × List Char)
  | .nil => none
  | .text _ next => next.firstCode
  | .element (.code classes) children _ => some (classes, children.inlineText)
  | .element _ children next => children.firstCode.or next.firstCode

/-! ## What is written -/

/-- What a character is written for: as the page has it or to space it, as a mark of emphasis, code,
a link or an item, or in a line that opens or closes a block of code. -/
inductive Role where
  | page
  | mark
  | opening
  | closing
  deriving DecidableEq, Repr

structure Glyph where
  char : Char
  role : Role
  deriving DecidableEq, Repr

abbrev Output := List Glyph

def glyphs (role : Role) (text : List Char) : Output := text.map fun c => ⟨c, role⟩

def Glyph.white (g : Glyph) : Bool := isWhitespace g.char

def newline : Glyph := ⟨'\n', .page⟩

def endsInNewline (out : Output) : Bool := (out.getLast?.map Glyph.char) == some '\n'

/-- `if !self.output.ends_with('\n') { self.output.push('\n') }`. -/
def ensureNewline (out : Output) : Output := if endsInNewline out then out else out ++ [newline]

/-- `ensure_block_boundary`. -/
def ensureBlockBoundary (out : Output) : Output :=
  let trimmed := out.rdropWhile Glyph.white
  if trimmed.isEmpty then out
  else
    let trailingNewlines := byteLength (out.map Glyph.char) - byteLength (trimmed.map Glyph.char)
    out ++ List.replicate (2 - trailingNewlines) newline

/-- `collapse_whitespace`, behind a character that was whitespace or not. -/
def collapseFrom (prevWasSpace : Bool) : List Char → List Char
  | [] => []
  | c :: rest =>
      if isWhitespace c then
        if prevWasSpace then collapseFrom true rest else ' ' :: collapseFrom true rest
      else c :: collapseFrom false rest

def collapseWhitespace (s : List Char) : List Char := collapseFrom false s

/-- `trim_start_matches`, at most so many times. -/
def trimStartMatches (mark : List Char) : Nat → List Char → List Char
  | 0, text => text
  | n + 1, text =>
      match stripStart mark text with
      | some rest => trimStartMatches mark n rest
      | none => text

def languageMark : List Char := "language-".toList

/-- The language that the classes of a `code` name. -/
def languageOf (classes : List Char) : List Char :=
  (((words isWhitespace classes).find? fun cls => decide (languageMark <+: cls)).map fun cls =>
    trimStartMatches languageMark cls.length cls).getD []

def fence : List Char := ['`', '`', '`']

/-- The text of a block of code: that of the first `code` in it, or all of it. -/
def codeText (children : Forest) : List Char :=
  (children.firstCode.map Prod.snd).getD children.inlineText

/-- `emit_code_block`. -/
def emitCodeBlock (children : Forest) (out : Output) : Output :=
  let language := ((children.firstCode.map Prod.fst).map languageOf).getD []
  let code := codeText children
  ensureBlockBoundary out ++ glyphs .opening (fence ++ language) ++ [newline] ++
    glyphs .page (if code.getLast? = some '\n' then code else code ++ ['\n']) ++
    glyphs .closing fence ++ [newline]

/-- `emit_link`. -/
def emitLink (href text : List Char) (out : Output) : Output :=
  let text := trim text
  if text.isEmpty then out
  else if href.isEmpty || href.head? == some '#' then out ++ glyphs .page text
  else out ++ glyphs .mark ['['] ++ glyphs .page text ++ glyphs .mark (']' :: '(' :: (href ++ [')']))

/-! ## The walk -/

/-- Where nodes stand: among the children of an element, in an item of a list, or in a list that has
had so many items. -/
inductive Place where
  | children
  | item
  | list (ordered : Bool) (index : Nat)
  deriving DecidableEq, Repr

/-- How the children of an element are walked, in a place and at a depth. -/
abbrev Visit := Place → Nat → Output → Output

def writeText (place : Place) (text : List Char) (out : Output) : Output :=
  match place with
  | .children =>
      if (trim text).isEmpty then out else out ++ glyphs .page (collapseWhitespace text)
  | .item =>
      let t := trim text
      if t.isEmpty then out else out ++ glyphs .page t
  | .list _ _ => out

/-- `process_element`. -/
def processElement (tag : Element) (children : Forest) (visit : Visit) (listDepth : Nat)
    (out : Output) : Output :=
  match tag with
  | .p => visit .children listDepth (ensureBlockBoundary out) ++ [newline]
  | .pre => emitCodeBlock children out
  | .ul => visit (.list false 0) listDepth (ensureBlockBoundary out)
  | .ol => visit (.list true 0) listDepth (ensureBlockBoundary out)
  | .a href => emitLink href children.inlineText out
  | .strong =>
      visit .children listDepth (out ++ glyphs .mark ['*', '*']) ++ glyphs .mark ['*', '*']
  | .em => visit .children listDepth (out ++ glyphs .mark ['*']) ++ glyphs .mark ['*']
  | .code _ =>
      out ++ glyphs .mark ['`'] ++ glyphs .page children.inlineText ++ glyphs .mark ['`']
  | .li | .div => visit .children listDepth out

def itemMark (ordered : Bool) (index : Nat) : Output :=
  (if ordered then glyphs .mark ((toString (index + 1)).toList ++ ['.']) else glyphs .mark ['-']) ++
    [⟨' ', .page⟩]

/-- One turn of the loop of `emit_list`. -/
def emitItem (ordered : Bool) (index : Nat) (visit : Visit) (listDepth : Nat) (out : Output) :
    Output :=
  let indent := glyphs .page (List.replicate (2 * listDepth) ' ')
  ensureNewline (visit .item (listDepth + 1) (out ++ indent ++ itemMark ordered index))

/-- `process_children`, `process_li_children` and the loop of `emit_list`, by where the nodes
stand. -/
def process : Place → Forest → Nat → Output → Output
  | _, .nil, _, out => out
  | place, .text chars next, listDepth, out =>
      process place next listDepth (writeText place chars out)
  | .children, .element tag children next, listDepth, out =>
      process .children next listDepth
        (processElement tag children (fun place depth out => process place children depth out)
          listDepth out)
  | .item, .element tag children next, listDepth, out =>
      process .item next listDepth
        (processElement tag children (fun place depth out => process place children depth out)
          listDepth (if tag = .ul ∨ tag = .ol then ensureNewline out else out))
  | .list ordered index, .element tag children next, listDepth, out =>
      if tag = .li then
        process (.list ordered (index + 1)) next listDepth
          (emitItem ordered index (fun place depth out => process place children depth out)
            listDepth out)
      else process (.list ordered index) next listDepth out

/-! ## The clean-up -/

/-- A line without the carriage return before its line feed. -/
def dropReturn (line : Output) : Output :=
  if line.getLast?.map Glyph.char = some '\r' then line.dropLast else line

/-- The lines, each with the line feed that ends it; the last may have none, and gets one. -/
def outputLines (line : Output) : Output → List (Output × Glyph)
  | [] => if line.isEmpty then [] else [(line, newline)]
  | g :: rest =>
      if g.char = '\n' then (dropReturn line, g) :: outputLines [] rest
      else outputLines (line ++ [g]) rest

structure Cleaning where
  result : Output
  consecutiveBlank : Nat

/-- One turn of the loop of `cleanup`. -/
def cleanLine (s : Cleaning) (line : Output × Glyph) : Cleaning :=
  if line.1.all Glyph.white then
    ⟨if s.consecutiveBlank + 1 ≤ 1 then s.result ++ [line.2] else s.result,
      s.consecutiveBlank + 1⟩
  else ⟨s.result ++ line.1 ++ [line.2], 0⟩

/-- `cleanup`. -/
def cleanup (out : Output) : Output :=
  let result := ((outputLines [] out).foldl cleanLine ⟨[], 0⟩).result
  let trimmed := (result.dropWhile Glyph.white).rdropWhile Glyph.white
  if trimmed.isEmpty then trimmed else trimmed ++ [newline]

/-- `HtmlToMarkdown::convert`. -/
def convert (fragment : Forest) : Output := cleanup (process .children fragment 0 [])

/-! ## What is read back -/

/-- What the page has, of what was written. -/
def pageText (out : Output) : List Char := (out.filter fun g => g.role = .page).map Glyph.char

/-- The words when the marks are deleted. -/
def pageWords (out : Output) : List (List Char) := words isWhitespace (pageText out)

/-- The texts behind an opening line and in front of a closing one, and the one that is open. -/
structure Fences where
  done : List (List Char)
  current : Option (List Char)
  deriving DecidableEq

def fenceStep (s : Fences) (g : Glyph) : Fences :=
  match g.role with
  | .opening => ⟨s.done, some []⟩
  | .closing =>
      match s.current with
      | some code => ⟨s.done ++ [code], none⟩
      | none => s
  | .page | .mark => ⟨s.done, s.current.map fun code => code ++ [g.char]⟩

def fences (out : Output) : Fences := out.foldl fenceStep ⟨[], none⟩

/-- The lines between the fences of each block; what is left of the line of the first fence is not
one of them. -/
def blockLines (out : Output) : List (List (List Char)) :=
  (fences out).done.map fun code => (textLines code).drop 1

/-! ## What the page says -/

/-- Elements that stand on lines of their own. -/
def Element.isBlock : Element → Bool
  | .p | .li | .ul | .ol | .pre => true
  | .strong | .em | .code _ | .a _ | .div => false

/-- The text of the page, with its blocks apart. -/
def Forest.pageText : Forest → List Char
  | .nil => []
  | .text chars next => chars ++ next.pageText
  | .element tag children next =>
      (if tag.isBlock then ' ' :: (children.pageText ++ [' ']) else children.pageText) ++
        next.pageText

/-- The texts of the blocks of code. -/
def Forest.codeTexts : Forest → List (List Char)
  | .nil => []
  | .text _ next => next.codeTexts
  | .element tag children next =>
      (if tag = .pre then codeText children :: children.codeTexts else children.codeTexts) ++
        next.codeTexts

end Ministr.Parser.HtmlToMd
