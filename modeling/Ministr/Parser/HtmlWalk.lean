/-
# Parser.HtmlWalk — what the walk writes of a page

What is written has the gist of what the fates keep, however much was written before, and the blocks
of code in it are those of the nodes (`Writes`): one rule for each thing that is written, and from
these, by induction on the nodes, `process_writes`.
-/
import Ministr.Parser.HtmlFates
import Ministr.Code.Diagnostics

namespace Ministr.Parser.HtmlToMd

open Ministr.Theory Ministr.Content Ministr.Git

set_option autoImplicit false

/-! ## Frames -/

/-- Whitespace that the page has no part in. -/
def Glyph.Hidden (g : Glyph) : Prop := g.white = true ∧ g.role ≠ .page

/-- Such whitespace stands inside a mark. -/
def Linked (g h : Glyph) : Prop := (g.Hidden → h.role ≠ .page) ∧ (h.Hidden → g.role ≠ .page)

structure Framed (out : Output) : Prop where
  chain : out.IsChain Linked
  head : ∀ g ∈ out.head?, ¬ g.Hidden
  last : ∀ g ∈ out.getLast?, ¬ g.Hidden

section Frames

variable {out out' : Output}

theorem Framed.nil : Framed [] := ⟨.nil, nofun, nofun⟩

theorem Framed.append (front : Framed out) (back : Framed out') : Framed (out ++ out') := by
  refine ⟨List.isChain_append.mpr ⟨front.chain, back.chain, fun g last h head => ?_⟩, ?_, ?_⟩
  · exact ⟨fun hidden => absurd hidden (front.last g last),
      fun hidden => absurd hidden (back.head h head)⟩
  · cases out with
    | nil => exact back.head
    | cons g out => exact front.head
  · intro g last
    rw [List.getLast?_append, Option.mem_def, Option.or_eq_some_iff] at last
    rcases last with here | ⟨-, here⟩
    · exact back.last g here
    · exact front.last g here

theorem framed_page {out : Output} (page : ∀ g ∈ out, g.role = .page) : Framed out := by
  have shown : ∀ g ∈ out, ¬ g.Hidden := fun g mem hidden => hidden.2 (page g mem)
  refine ⟨List.Pairwise.isChain (List.pairwise_of_forall_mem_list fun g memG h memH => ?_), ?_, ?_⟩
  · exact ⟨fun hidden => absurd hidden (shown g memG), fun hidden => absurd hidden (shown h memH)⟩
  · exact fun g head => shown g (List.mem_of_mem_head? head)
  · exact fun g last => shown g (List.mem_of_mem_getLast? last)

/-- A mark may hold whitespace, but not at its ends. -/
theorem framed_mark {role : Role} (notPage : role ≠ .page) {text : List Char}
    (head : ∀ c ∈ text.head?, isWhitespace c = false)
    (last : ∀ c ∈ text.getLast?, isWhitespace c = false) : Framed (glyphs role text) := by
  have roles : ∀ g ∈ glyphs role text, g.role ≠ .page := fun g mem => by
    obtain ⟨c, -, rfl⟩ := List.mem_map.mp mem
    exact notPage
  refine ⟨List.Pairwise.isChain (List.pairwise_of_forall_mem_list fun g memG h memH => ?_), ?_, ?_⟩
  · exact ⟨fun _ => roles h memH, fun _ => roles g memG⟩
  · intro g mem hidden
    rw [glyphs, List.head?_map] at mem
    obtain ⟨c, isHead, rfl⟩ := Option.map_eq_some_iff.mp mem
    rw [Glyph.Hidden, Glyph.white, head c isHead] at hidden
    exact absurd hidden.1 Bool.false_ne_true
  · intro g mem hidden
    rw [glyphs, List.getLast?_map] at mem
    obtain ⟨c, isLast, rfl⟩ := Option.map_eq_some_iff.mp mem
    rw [Glyph.Hidden, Glyph.white, last c isLast] at hidden
    exact absurd hidden.1 Bool.false_ne_true

theorem framed_solid {role : Role} (notPage : role ≠ .page) {text : List Char}
    (solid : ∀ c ∈ text, isWhitespace c = false) : Framed (glyphs role text) :=
  framed_mark notPage (fun c mem => solid c (List.mem_of_mem_head? mem))
    fun c mem => solid c (List.mem_of_mem_getLast? mem)

@[simp] theorem pageText_append : pageText (out ++ out') = pageText out ++ pageText out' := by
  rw [pageText, List.filter_append, List.map_append, ← pageText, ← pageText]

@[simp] theorem pageText_nil : pageText [] = [] := rfl

@[simp] theorem pageText_newline : pageText [newline] = ['\n'] := rfl

theorem pageText_page (text : List Char) : pageText (glyphs .page text) = text := by
  rw [pageText, glyphs, List.filter_eq_self.mpr (by simp), List.map_map]
  simp [Function.comp_def]

theorem pageText_mark {role : Role} (notPage : role ≠ .page) (text : List Char) :
    pageText (glyphs role text) = [] := by
  rw [pageText, glyphs, List.filter_eq_nil_iff.mpr (by simp [notPage]), List.map_nil]

theorem white_of_mem_pageText (white : ∀ g ∈ out, g.white = true) :
    ∀ c ∈ pageText out, isWhitespace c = true := by
  intro c mem
  obtain ⟨g, inOut, rfl⟩ := List.mem_map.mp mem
  exact white g (List.mem_filter.mp inOut).1

/-- Whitespace at the end is the page's. -/
theorem Framed.closed (framed : Framed out) {g : Glyph} (last : out.getLast? = some g)
    (white : g.white = true) : Closed isWhitespace (pageText out) := by
  have isPage : g.role = .page := by
    by_contra notPage
    exact framed.last g last ⟨white, notPage⟩
  obtain ⟨init, rfl⟩ := List.getLast?_eq_some_iff.mp last
  have tail : pageText [g] = [g.char] := by
    rw [pageText, List.filter_cons_of_pos (by simpa using isPage)]
    rfl
  rw [pageText_append, tail]
  exact closed_concat _ white

end Frames

/-! ## Blocks of code -/

/-- The text of a block, with a line feed at its end. -/
def ended (code : List Char) : List Char :=
  if code.getLast? = some '\n' then code else code ++ ['\n']

/-- An opening line, the text and a closing fence. -/
def blockOutput (language code : List Char) : Output :=
  glyphs .opening (fence ++ language) ++ ([newline] ++ (glyphs .page (ended code) ++
    glyphs .closing fence))

/-- What holds blocks with these texts, and nothing else of a fence. -/
inductive Fenced : Output → List (List Char) → Prop where
  | nil : Fenced [] []
  | plain {out : Output} {codes : List (List Char)} (front : Fenced out codes) {g : Glyph}
      (isPlain : g.role = .page ∨ g.role = .mark) : Fenced (out ++ [g]) codes
  | block {out : Output} {codes : List (List Char)} (front : Fenced out codes)
      {language : List Char} (solid : ∀ c ∈ language, isWhitespace c = false) (code : List Char) :
      Fenced (out ++ blockOutput language code) (codes ++ [code])

theorem Fenced.append {out : Output} {codes : List (List Char)} (front : Fenced out codes)
    {back : Output} (isPlain : ∀ g ∈ back, g.role = .page ∨ g.role = .mark) :
    Fenced (out ++ back) codes := by
  induction back generalizing out with
  | nil => rwa [List.append_nil]
  | cons g back ih =>
      have next := ih (front.plain (isPlain g List.mem_cons_self)) fun h mem =>
        isPlain h (List.mem_cons_of_mem _ mem)
      rwa [List.append_assoc, List.singleton_append] at next

theorem glyphs_plain {role : Role} (isPlain : role = .page ∨ role = .mark) (text : List Char) :
    ∀ g ∈ glyphs role text, g.role = .page ∨ g.role = .mark := by
  intro g mem
  obtain ⟨c, -, rfl⟩ := List.mem_map.mp mem
  exact isPlain

/-! ## What is written -/

/-- The output is grown by the gist of a text, and by blocks. -/
structure Writes (out out' : Output) (text : List Char) (codes : List (List Char)) : Prop where
  framed : Framed out → Framed out'
  gist : Framed out → SameGist isWhitespace (pageText out') (pageText out ++ text)
  fenced : ∀ done, Fenced out done → Fenced out' (done ++ codes)

section Writes

variable {out mid out' : Output} {text text' : List Char} {codes codes' : List (List Char)}

namespace Writes

theorem refl (out : Output) : Writes out out [] [] where
  framed := id
  gist := fun _ => by
    rw [List.append_nil]
    exact .refl _
  fenced := fun done fenced => by rwa [List.append_nil]

theorem trans (first : Writes out mid text codes) (second : Writes mid out' text' codes') :
    Writes out out' (text ++ text') (codes ++ codes') where
  framed := fun framed => second.framed (first.framed framed)
  gist := fun framed => by
    rw [← List.append_assoc]
    exact (second.gist (first.framed framed)).trans ((first.gist framed).append text')
  fenced := fun done fenced => by
    rw [← List.append_assoc]
    exact second.fenced _ (first.fenced done fenced)

/-- A text may stand for one with the same gist. -/
theorem congr (writes : Writes out out' text codes)
    (same : ∀ x, SameGist isWhitespace (x ++ text) (x ++ text')) : Writes out out' text' codes where
  framed := writes.framed
  gist := fun framed => (writes.gist framed).trans (same _)
  fenced := writes.fenced

end Writes

theorem writes_page (out : Output) (text : List Char) :
    Writes out (out ++ glyphs .page text) text [] where
  framed := fun framed => framed.append <| framed_page fun g mem => by
    obtain ⟨c, -, rfl⟩ := List.mem_map.mp mem
    rfl
  gist := fun _ => by
    rw [pageText_append, pageText_page]
    exact .refl _
  fenced := fun done fenced => by
    rw [List.append_nil]
    exact fenced.append (glyphs_plain (.inl rfl) text)

theorem writes_mark (out : Output) (mark : List Char)
    (head : ∀ c ∈ mark.head?, isWhitespace c = false)
    (last : ∀ c ∈ mark.getLast?, isWhitespace c = false) :
    Writes out (out ++ glyphs .mark mark) [] [] where
  framed := fun framed => framed.append (framed_mark (by decide) head last)
  gist := fun _ => by
    rw [pageText_append, pageText_mark (by decide)]
    exact .refl _
  fenced := fun done fenced => by
    rw [List.append_nil]
    exact fenced.append (glyphs_plain (.inr rfl) mark)

/-- A line feed is a space. -/
theorem writes_newline (out : Output) : Writes out (out ++ [newline]) [' '] [] :=
  (writes_page out ['\n']).congr fun x => SameGist.concat x (by decide) (by decide)

theorem writes_closed (closed : Framed out → Closed isWhitespace (pageText out)) :
    Writes out out [' '] [] where
  framed := id
  gist := fun framed => (closed framed [' '] (by simp [isWhitespace])).symm
  fenced := fun done fenced => by rwa [List.append_nil]

theorem writes_ensureNewline (out : Output) : Writes out (ensureNewline out) [' '] [] := by
  rw [ensureNewline]
  split
  · rename_i ends
    rw [endsInNewline, beq_iff_eq, Option.map_eq_some_iff] at ends
    obtain ⟨g, last, isNewline⟩ := ends
    refine writes_closed fun framed => framed.closed last ?_
    rw [Glyph.white, isNewline]
    decide
  · exact writes_newline out

theorem white_of_replicate {n : Nat} : ∀ c ∈ List.replicate n '\n', isWhitespace c = true := by
  intro c mem
  rw [List.eq_of_mem_replicate mem]
  decide

theorem writes_boundary (out : Output) : Writes out (ensureBlockBoundary out) [' '] [] := by
  rw [ensureBlockBoundary]
  split
  · rename_i empty
    refine writes_closed fun _ => closed_of_seps (white_of_mem_pageText ?_)
    rw [List.isEmpty_iff, List.rdropWhile_eq_nil_iff] at empty
    exact empty
  · rename_i held
    have newlines : ∀ n, List.replicate n newline = glyphs .page (List.replicate n '\n') := fun n => by
      rw [glyphs, List.map_replicate]
      rfl
    dsimp only
    rw [newlines]
    cases fewer : 2 - (byteLength (out.map Glyph.char) -
        byteLength ((out.rdropWhile Glyph.white).map Glyph.char)) with
    | zero =>
        -- two or more bytes are trimmed, so the last character is whitespace
        rw [List.replicate_zero, glyphs, List.map_nil, List.append_nil]
        refine writes_closed fun framed => ?_
        have shorter : out.rdropWhile Glyph.white ≠ out := fun same => by
          rw [same] at fewer
          omega
        rw [ne_eq, List.rdropWhile_eq_self_iff] at shorter
        push Not at shorter
        obtain ⟨nonempty, white⟩ := shorter
        exact framed.closed (List.getLast?_eq_some_getLast nonempty) white
    | succ n =>
        rw [List.replicate_succ]
        refine (writes_page out _).congr fun x => ?_
        exact (SameGist.absorb x (by decide) white_of_replicate).trans
          (SameGist.concat x (by decide) (by decide))

/-! ### Texts -/

theorem collapseFrom_gist (text : List Char) {x : List Char} {prev : Bool}
    (spaced : prev = true → Closed isWhitespace x) :
    SameGist isWhitespace (x ++ collapseFrom prev text) (x ++ text) := by
  induction text generalizing x prev with
  | nil => exact .refl _
  | cons c rest ih =>
      have shift : ∀ (d : Char) (t : List Char), x ++ d :: t = (x ++ [d]) ++ t := by simp
      rw [collapseFrom]
      by_cases white : isWhitespace c = true
      · rw [if_pos white]
        cases prev with
        | true =>
            have closed := spaced rfl
            have one : SameGist isWhitespace (x ++ [c]) x := closed [c] (by simpa using white)
            rw [if_pos rfl, shift c rest]
            exact (ih fun _ => closed).trans (one.symm.append rest)
        | false =>
            have space : isWhitespace ' ' = true := by decide
            rw [if_neg Bool.false_ne_true, shift ' ', shift c rest]
            exact (ih fun _ => closed_concat x space).trans
              ((SameGist.concat x space white).append rest)
      · rw [if_neg white, shift c, shift c rest]
        exact ih nofun

theorem writes_text (place : Place) (text : List Char) (out : Output) :
    Writes out (writeText place text out) (kept (textFates place text)) [] := by
  cases place with
  | children =>
      rw [writeText, textFates]
      split
      · rw [kept_drop]
        exact .refl out
      · rw [kept_keep]
        exact (writes_page out _).congr fun x => collapseFrom_gist text fun after =>
          absurd after Bool.false_ne_true
  | item =>
      have trimmed : kept (dropEnds (keep text)) = trim text := by
        rw [kept_dropEnds, kept_keep]
        intro x mem dropped
        obtain ⟨c, -, rfl⟩ := List.mem_map.mp mem
        cases dropped
      rw [writeText, textFates, trimmed]
      split
      · rename_i empty
        rw [List.isEmpty_iff.mp empty]
        exact .refl out
      · exact writes_page out _
  | list ordered index =>
      rw [writeText, textFates, kept_drop]
      exact .refl out

theorem writes_link (href text : List Char) (out : Output) :
    Writes out (emitLink href text out) (trim text) [] := by
  rw [emitLink]
  split
  · rename_i empty
    rw [List.isEmpty_iff.mp empty]
    exact .refl out
  · split
    · exact writes_page out _
    · have ends : (']' :: '(' :: (href ++ [')'])).getLast? = some ')' := by
        rw [← List.cons_append, ← List.cons_append, List.getLast?_concat]
      have opened := writes_mark out ['['] (by simp; decide) (by simp; decide)
      have closed := writes_mark (out ++ glyphs .mark ['['] ++ glyphs .page (trim text))
        (']' :: '(' :: (href ++ [')'])) (by simp; decide) (by rw [ends]; simp; decide)
      have whole := (opened.trans (writes_page _ (trim text))).trans closed
      rwa [List.nil_append, List.append_nil] at whole

/-! ### Code -/

theorem trimStartMatches_suffix (mark : List Char) (n : Nat) (text : List Char) :
    trimStartMatches mark n text <:+ text := by
  induction n generalizing text with
  | zero => exact List.suffix_rfl
  | succ n ih =>
      rw [trimStartMatches]
      cases found : stripStart mark text with
      | none => exact List.suffix_rfl
      | some rest =>
          rw [stripStart] at found
          split at found
          · obtain rfl := Option.some.inj found
            exact (ih _).trans (List.drop_suffix _ _)
          · cases found

theorem languageOf_solid (classes : List Char) :
    ∀ c ∈ languageOf classes, isWhitespace c = false := by
  rw [languageOf]
  cases found : (words isWhitespace classes).find? fun cls => decide (languageMark <+: cls) with
  | none => exact nofun
  | some cls =>
      intro c mem
      exact letter_of_mem_words (List.mem_of_find?_eq_some found) c
        ((trimStartMatches_suffix _ _ _).subset mem)

theorem ended_gist (x code : List Char) :
    SameGist isWhitespace (x ++ ended code) (x ++ (code ++ ['\n'])) := by
  rw [ended]
  split
  · rename_i last
    obtain ⟨init, rfl⟩ := List.getLast?_eq_some_iff.mp last
    have closed : Closed isWhitespace (x ++ init ++ ['\n']) := closed_concat _ (by decide)
    have same := (closed ['\n'] (by simp [isWhitespace])).symm
    simpa using same
  · exact .refl _

theorem pageText_block (language code : List Char) :
    pageText (blockOutput language code) = '\n' :: ended code := by
  rw [blockOutput, pageText_append, pageText_append, pageText_append, pageText_mark (by decide),
    pageText_newline, pageText_page, pageText_mark (by decide), List.append_nil]
  rfl

theorem fence_solid : ∀ c ∈ fence, isWhitespace c = false := by
  simp [fence, isWhitespace]

theorem framed_block {language : List Char} (solid : ∀ c ∈ language, isWhitespace c = false)
    (code : List Char) : Framed (blockOutput language code) := by
  have opening : Framed (glyphs .opening (fence ++ language)) :=
    framed_solid (by decide) fun c mem => (List.mem_append.mp mem).elim (fence_solid c) (solid c)
  have page : ∀ text, Framed (glyphs .page text) := fun text => framed_page fun g mem => by
    obtain ⟨c, -, rfl⟩ := List.mem_map.mp mem
    rfl
  exact opening.append ((page ['\n']).append ((page _).append (framed_solid (by decide) fence_solid)))

theorem writes_block {language : List Char} (solid : ∀ c ∈ language, isWhitespace c = false)
    (code : List Char) (out : Output) :
    Writes out (out ++ blockOutput language code) ('\n' :: (code ++ ['\n'])) [code] where
  framed := fun framed => framed.append (framed_block solid code)
  gist := fun _ => by
    rw [pageText_append, pageText_block]
    have same := ended_gist (pageText out ++ ['\n']) code
    rwa [List.append_assoc, List.singleton_append, List.append_assoc, List.singleton_append] at same
  fenced := fun done fenced => fenced.block solid code

theorem writes_codeBlock (children : Forest) (out : Output) :
    Writes out (emitCodeBlock children out) (' ' :: (codeText children ++ [' ']))
      [codeText children] := by
  have solid : ∀ c ∈ ((children.firstCode.map Prod.fst).map languageOf).getD [],
      isWhitespace c = false := by
    cases children.firstCode with
    | none => exact nofun
    | some found => exact languageOf_solid found.1
  have whole := ((writes_boundary out).trans (writes_block solid (codeText children) _)).trans
    (writes_newline _)
  have shape : emitCodeBlock children out = ensureBlockBoundary out ++
      blockOutput (((children.firstCode.map Prod.fst).map languageOf).getD []) (codeText children) ++
        [newline] := by
    simp [emitCodeBlock, blockOutput, ended]
  rw [shape]
  refine whole.congr fun x => ?_
  have front : SameGist isWhitespace (x ++ ' ' :: ['\n']) (x ++ [' ']) :=
    SameGist.absorb x (by decide) (by simp [isWhitespace])
  have back : SameGist isWhitespace (x ++ [' '] ++ codeText children ++ '\n' :: [' '])
      (x ++ [' '] ++ codeText children ++ ['\n']) :=
    SameGist.absorb _ (by decide) (by simp [isWhitespace])
  have last : SameGist isWhitespace (x ++ [' '] ++ codeText children ++ ['\n'])
      (x ++ [' '] ++ codeText children ++ [' ']) := SameGist.concat _ (by decide) (by decide)
  have moved := front.append (codeText children ++ '\n' :: [' '])
  have joined := (moved.trans (by simpa using back)).trans (by simpa using last)
  simpa using joined

/-! ### Elements -/

variable {children : Forest} {visit : Visit} {fate : Place → List (Char × Bool)}
  {block : Place → List (List Char)}

theorem writes_element (tag : Element) (listDepth : Nat) (out : Output)
    (visited : ∀ place depth out, Writes out (visit place depth out) (kept (fate place)) (block place))
    (ends : ∀ ordered index, kept (fate (.list ordered index)) = [] ∨
      ∃ init, kept (fate (.list ordered index)) = init ++ [' ']) :
    Writes out (processElement tag children visit listDepth out)
      (kept (elementFates tag children fate)) (elementBlocks tag children block) := by
  -- the items of a list end in an edge, which takes that of the list
  have list : ∀ ordered, Writes out (visit (.list ordered 0) listDepth (ensureBlockBoundary out))
      (' ' :: (kept (fate (.list ordered 0)) ++ [' '])) (block (.list ordered 0)) := fun ordered => by
    refine ((writes_boundary out).trans (visited _ _ _)).congr fun x => ?_
    rcases ends ordered 0 with empty | ⟨init, spaced⟩
    · rw [empty, List.append_nil, List.nil_append]
      exact (SameGist.absorb x (by decide) (by simp [isWhitespace])).symm
    · rw [spaced]
      have closed : Closed isWhitespace (x ++ ' ' :: init ++ [' ']) := closed_concat _ (by decide)
      have same := (closed [' '] (by simp [isWhitespace])).symm
      simpa using same
  cases tag with
  | p =>
      have whole := ((writes_boundary out).trans (visited .children listDepth _)).trans
        (writes_newline _)
      simpa [processElement, elementFates, elementBlocks] using whole
  | pre =>
      have whole := writes_codeBlock children out
      simpa [processElement, elementFates, elementBlocks, kept_blockFates] using whole
  | ul => simpa [processElement, elementFates, elementBlocks] using list false
  | ol => simpa [processElement, elementFates, elementBlocks] using list true
  | a href =>
      have whole := writes_link href children.inlineText out
      rw [← kept_inlineFates, ← kept_dropEnds (inlineFates_white children)] at whole
      rw [kept_inlineFates] at whole
      exact whole
  | strong =>
      have stars : ∀ out : Output, Writes out (out ++ glyphs .mark ['*', '*']) [] [] := fun out =>
        writes_mark out _ (by simp; decide) (by simp; decide)
      have whole := ((stars out).trans (visited .children listDepth _)).trans (stars _)
      simpa [processElement, elementFates, elementBlocks] using whole
  | em =>
      have star : ∀ out : Output, Writes out (out ++ glyphs .mark ['*']) [] [] := fun out =>
        writes_mark out _ (by simp; decide) (by simp; decide)
      have whole := ((star out).trans (visited .children listDepth _)).trans (star _)
      simpa [processElement, elementFates, elementBlocks] using whole
  | code classes =>
      have tick : ∀ out : Output, Writes out (out ++ glyphs .mark ['`']) [] [] := fun out =>
        writes_mark out _ (by simp; decide) (by simp; decide)
      have whole := ((tick out).trans (writes_page _ children.inlineText)).trans (tick _)
      simpa [processElement, elementFates, elementBlocks, kept_inlineFates] using whole
  | div => exact visited .children listDepth out
  | li =>
      have whole := visited .children listDepth out
      simpa [processElement, elementFates, elementBlocks] using whole

theorem itemMark_writes (ordered : Bool) (index : Nat) (out : Output) :
    Writes out (out ++ itemMark ordered index) [' '] [] := by
  have number : ∀ c ∈ (toString (index + 1)).toList ++ ['.'], isWhitespace c = false := by
    intro c mem
    rcases List.mem_append.mp mem with digit | dot
    · exact Code.Diagnostics.visible_of_isDigit (isDigit_of_mem_toString digit)
    · rw [List.mem_singleton.mp dot]
      decide
  have solid : ∀ mark : List Char, (∀ c ∈ mark, isWhitespace c = false) →
      Writes out (out ++ glyphs .mark mark) [] [] := fun mark solid =>
    writes_mark out mark (fun c mem => solid c (List.mem_of_mem_head? mem))
      fun c mem => solid c (List.mem_of_mem_getLast? mem)
  rw [itemMark, ← List.append_assoc]
  split
  · exact (solid _ number).trans (writes_page _ [' '])
  · exact (solid ['-'] (by simp; decide)).trans (writes_page _ [' '])

theorem writes_item (ordered : Bool) (index listDepth : Nat) (out : Output)
    (visited : ∀ place depth out, Writes out (visit place depth out) (kept (fate place)) (block place)) :
    Writes out (emitItem ordered index visit listDepth out) (' ' :: (kept (fate .item) ++ [' ']))
      (block .item) := by
  have indent : Writes out
      (out ++ glyphs .page (List.replicate (2 * listDepth) ' ') ++ itemMark ordered index)
      [' '] [] := by
    refine ((writes_page out _).trans (itemMark_writes ordered index _)).congr fun x => ?_
    refine SameGist.absorb_front x (by decide) fun c mem => ?_
    rw [List.eq_of_mem_replicate mem]
    decide
  have whole := (indent.trans (visited .item (listDepth + 1) _)).trans (writes_ensureNewline _)
  simpa [emitItem] using whole

end Writes

/-! ## The walk -/

theorem fates_list_ends (f : Forest) (ordered : Bool) (index : Nat) :
    kept (fates (.list ordered index) f) = [] ∨
      ∃ init, kept (fates (.list ordered index) f) = init ++ [' '] := by
  induction f generalizing index with
  | nil => exact .inl rfl
  | text chars next ih =>
      rw [fates, textFates, kept_append, kept_drop, List.nil_append]
      exact ih index
  | element tag children next _ ih =>
      rw [fates]
      split
      · right
        rcases ih (index + 1) with empty | ⟨init, spaced⟩
        · exact ⟨' ' :: kept (fates .item children), by simp [empty]⟩
        · exact ⟨' ' :: (kept (fates .item children) ++ ' ' :: init), by simp [spaced]⟩
      · rw [kept_append, kept_drop, List.nil_append]
        exact ih index

/-- **What is written of nodes has the gist of what is kept of them, and holds their blocks.** -/
theorem process_writes (f : Forest) (place : Place) (listDepth : Nat) (out : Output) :
    Writes out (process place f listDepth out) (kept (fates place f)) (blocks place f) := by
  induction f generalizing place listDepth out with
  | nil => cases place <;> exact .refl out
  | text chars next ih =>
      have whole := (writes_text place chars out).trans (ih place listDepth _)
      cases place <;> simpa [process, fates, blocks] using whole
  | element tag children next ihc ihn =>
      have element : ∀ out, Writes out
          (processElement tag children (fun place depth out => process place children depth out)
            listDepth out)
          (kept (elementFates tag children fun place => fates place children))
          (elementBlocks tag children fun place => blocks place children) := fun out =>
        writes_element tag listDepth out (fun place depth out => ihc place depth out)
          (fates_list_ends children)
      cases place with
      | children =>
          have whole := (element out).trans (ihn .children listDepth _)
          simpa [process, fates, blocks] using whole
      | item =>
          have spaced : Writes out
              (processElement tag children (fun place depth out => process place children depth out)
                listDepth (if tag = .ul ∨ tag = .ol then ensureNewline out else out))
              (kept (elementFates tag children fun place => fates place children))
              (elementBlocks tag children fun place => blocks place children) := by
            split
            · rename_i isList
              refine ((writes_ensureNewline out).trans (element _)).congr fun x => ?_
              obtain ⟨rest, starts⟩ : ∃ rest,
                  kept (elementFates tag children fun place => fates place children) =
                    ' ' :: rest := by
                rcases isList with rfl | rfl <;> exact ⟨_, rfl⟩
              rw [starts]
              have same : SameGist isWhitespace (x ++ ' ' :: [' ']) (x ++ [' ']) :=
                SameGist.absorb x (by decide) (by simp [isWhitespace])
              have longer := same.append rest
              simpa using longer
            · exact element out
          have whole := spaced.trans (ihn .item listDepth _)
          simpa [process, fates, blocks] using whole
      | list ordered index =>
          rw [process, fates, blocks]
          split
          · have whole := (writes_item ordered index listDepth out
              (fun place depth out => ihc place depth out)).trans
                (ihn (.list ordered (index + 1)) listDepth _)
            simpa using whole
          · rw [kept_append, kept_drop, List.nil_append]
            exact ihn _ listDepth out

end Ministr.Parser.HtmlToMd
