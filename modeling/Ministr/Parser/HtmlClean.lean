/-
# Parser.HtmlClean — what the clean-up leaves

The clean-up goes over the lines, and that is the same as going over the characters with the line
that is being read (`foldl_outputLines`).  It takes out whitespace only, and never all of the page's
between two letters, so the words stay (`pageWords_cleanup`).  Between two fences it drops blank lines
behind a blank line and empties the others (`fences_cleanup`).
-/
import Ministr.Parser.HtmlWalk

namespace Ministr.Parser.HtmlToMd

open Ministr.Theory Ministr.Content Ministr.Git

set_option autoImplicit false

/-! ## Character by character -/

/-- What is left of the lines, and the line that is being read. -/
structure Reading where
  cleaned : Cleaning
  line : Output

def Reading.start : Reading := ⟨⟨[], 0⟩, []⟩

def Reading.feed (s : Reading) (g : Glyph) : Reading :=
  if g.char = '\n' then ⟨cleanLine s.cleaned (dropReturn s.line, g), []⟩
  else ⟨s.cleaned, s.line ++ [g]⟩

def Reading.finish (s : Reading) : Cleaning :=
  if s.line.isEmpty then s.cleaned else cleanLine s.cleaned (s.line, newline)

def reading (out : Output) : Reading := out.foldl Reading.feed .start

section Feed

variable {out line : Output} {s : Reading} {g : Glyph}

theorem foldl_outputLines (line out : Output) (s : Cleaning) :
    (outputLines line out).foldl cleanLine s = (out.foldl Reading.feed ⟨s, line⟩).finish := by
  induction out generalizing line s with
  | nil =>
      rw [outputLines, List.foldl_nil, Reading.finish]
      split <;> rfl
  | cons g out ih =>
      rw [outputLines, List.foldl_cons, Reading.feed]
      split
      · rw [List.foldl_cons, ih]
      · exact ih _ _

theorem cleanup_eq (out : Output) :
    cleanup out =
      let trimmed := ((reading out).finish.result.dropWhile Glyph.white).rdropWhile Glyph.white
      if trimmed.isEmpty then trimmed else trimmed ++ [newline] := by
  rw [cleanup, foldl_outputLines]
  rfl

theorem reading_concat (out : Output) (g : Glyph) : reading (out ++ [g]) = (reading out).feed g := by
  rw [reading, List.foldl_append]
  rfl

theorem white_of_newline (isNewline : g.char = '\n') : g.white = true := by
  rw [Glyph.white, isNewline]
  decide

/-- A line without its carriage return: it lacks nothing, or the carriage return. -/
theorem dropReturn_cases (line : Output) :
    dropReturn line = line ∨ ∃ init r, line = init ++ [r] ∧ r.char = '\r' ∧ dropReturn line = init := by
  rw [dropReturn]
  split
  · rename_i last
    obtain ⟨r, isLast, isReturn⟩ := Option.map_eq_some_iff.mp last
    obtain ⟨init, rfl⟩ := List.getLast?_eq_some_iff.mp isLast
    exact .inr ⟨init, r, rfl, isReturn, List.dropLast_concat⟩
  · exact .inl rfl

theorem white_of_return (isReturn : g.char = '\r') : g.white = true := by
  rw [Glyph.white, isReturn]
  decide

theorem all_dropReturn (line : Output) :
    (dropReturn line).all Glyph.white = line.all Glyph.white := by
  rcases dropReturn_cases line with same | ⟨init, r, rfl, isReturn, dropped⟩
  · rw [same]
  · rw [dropped, List.all_append, List.all_cons, white_of_return isReturn, List.all_nil,
      Bool.and_true, Bool.and_true]

/-- The three ends of a line: blank behind a blank line, blank, and neither. -/
theorem feed_newline (s : Reading) (isNewline : g.char = '\n') :
    (s.line.all Glyph.white = true ∧ 0 < s.cleaned.consecutiveBlank ∧
      s.feed g = ⟨⟨s.cleaned.result, s.cleaned.consecutiveBlank + 1⟩, []⟩) ∨
    (s.line.all Glyph.white = true ∧ s.cleaned.consecutiveBlank = 0 ∧
      s.feed g = ⟨⟨s.cleaned.result ++ [g], 1⟩, []⟩) ∨
    (s.line.all Glyph.white = false ∧
      s.feed g = ⟨⟨s.cleaned.result ++ dropReturn s.line ++ [g], 0⟩, []⟩) := by
  rw [Reading.feed, if_pos isNewline, cleanLine, all_dropReturn]
  cases blank : s.line.all Glyph.white with
  | false => exact .inr (.inr ⟨rfl, by rw [if_neg Bool.false_ne_true]⟩)
  | true =>
      rw [if_pos rfl]
      rcases Nat.eq_zero_or_pos s.cleaned.consecutiveBlank with none | some
      · exact .inr (.inl ⟨rfl, none, by rw [none, if_pos (by decide)]⟩)
      · exact .inl ⟨rfl, some, by rw [if_neg (by omega)]⟩

end Feed

/-! ## Words -/

section Words

variable {out line : Output} {g n : Glyph}

/-- Hidden whitespace has hidden whitespace in front of it. -/
theorem hidden_back (chain : (line ++ [n]).IsChain Linked) (white : ∀ g ∈ line, g.white = true)
    (hidden : n.Hidden) : ∀ g ∈ line, g.Hidden := by
  induction line using List.reverseRecOn generalizing n with
  | nil => exact nofun
  | append_singleton line h ih =>
      have parts := List.isChain_append.mp chain
      have linked : Linked h n := parts.2.2 h (by simp) n (by simp)
      have last : h.Hidden := ⟨white h (by simp), linked.2 hidden⟩
      intro g mem
      rcases List.mem_append.mp mem with front | here
      · exact ih parts.1 (fun k mem => white k (List.mem_append_left _ mem)) last g front
      · rw [List.mem_singleton.mp here]
        exact last

/-- And behind it. -/
theorem hidden_forth (chain : (n :: line).IsChain Linked) (white : ∀ g ∈ line, g.white = true)
    (hidden : n.Hidden) : ∀ g ∈ line, g.Hidden := by
  induction line generalizing n with
  | nil => exact nofun
  | cons h line ih =>
      have parts := List.isChain_cons_cons.mp chain
      have first : h.Hidden := ⟨white h List.mem_cons_self, parts.1.1 hidden⟩
      exact List.forall_mem_cons.mpr ⟨first,
        ih parts.2 (fun k mem => white k (List.mem_cons_of_mem _ mem)) first⟩

theorem pageText_hidden (hidden : ∀ g ∈ line, g.Hidden) : pageText line = [] := by
  rw [pageText, List.filter_eq_nil_iff.mpr fun g mem => by simpa using (hidden g mem).2,
    List.map_nil]

/-- What is left has the gist of what was read.  Behind a blank line the last line feed was read, and
if the page has it, what is left is closed. -/
structure Kept (out : Output) (s : Reading) : Prop where
  gist : SameGist isWhitespace (pageText (s.cleaned.result ++ s.line)) (pageText out)
  line : s.line <:+ out
  blank : 0 < s.cleaned.consecutiveBlank → ∃ before n, out = before ++ n :: s.line ∧
    n.white = true ∧ (n.role = .page → Closed isWhitespace (pageText s.cleaned.result))

theorem pageText_single (isPage : g.role = .page) : pageText [g] = [g.char] := by
  rw [pageText, List.filter_cons_of_pos (by simpa using isPage)]
  rfl

/-- Whitespace in front of a line feed says no more than the line feed. -/
theorem spaces_gist (x : List Char) (chain : (line ++ [n]).IsChain Linked)
    (white : ∀ g ∈ line, g.white = true) (separates : n.white = true) :
    SameGist isWhitespace (x ++ pageText (line ++ [n])) (x ++ pageText [n]) := by
  rw [pageText_append]
  by_cases isPage : n.role = .page
  · rw [pageText_single isPage]
    exact SameGist.absorb_front x separates (white_of_mem_pageText white)
  · rw [pageText_hidden (hidden_back chain white ⟨separates, isPage⟩), List.nil_append]
    exact .refl _

theorem kept_reading (chain : out.IsChain Linked) : Kept out (reading out) := by
  induction out using List.reverseRecOn with
  | nil => exact ⟨.refl _, List.suffix_rfl, fun some => absurd some (Nat.lt_irrefl 0)⟩
  | append_singleton out g ih =>
      have kept := ih (List.isChain_append.mp chain).1
      rw [reading_concat]
      generalize reading out = s at kept
      have read : SameGist isWhitespace (pageText s.cleaned.result ++ pageText (s.line ++ [g]))
          (pageText (out ++ [g])) := by
        have longer := kept.gist.append (pageText [g])
        simpa using longer
      obtain ⟨before, suffix⟩ := kept.line
      have chainLine : (s.line ++ [g]).IsChain Linked := by
        rw [← suffix, List.append_assoc] at chain
        exact (List.isChain_append.mp chain).2.1
      by_cases isNewline : g.char = '\n'
      · have separates := white_of_newline isNewline
        have ends : ∀ x, g.role = .page → Closed isWhitespace (x ++ pageText [g]) := fun x isPage => by
          rw [pageText_single isPage]
          exact closed_concat x separates
        rcases feed_newline s isNewline with ⟨blank, some, fed⟩ | ⟨blank, none, fed⟩ | ⟨held, fed⟩
        · have white : ∀ h ∈ s.line, h.white = true := List.all_eq_true.mp blank
          obtain ⟨before', n, whole, nWhite, closed⟩ := kept.blank some
          -- the line feed in front of the line is the page's if this one is
          have shown : g.role = .page → n.role = .page := fun isPage => by
            by_contra notPage
            rw [whole, List.append_assoc, List.cons_append] at chain
            have behind := hidden_forth (List.isChain_append.mp chain).2.1
              (fun h mem => (List.mem_append.mp mem).elim (white h)
                fun last => List.mem_singleton.mp last ▸ separates) ⟨nWhite, notPage⟩ g (by simp)
            exact behind.2 isPage
          have same : SameGist isWhitespace (pageText s.cleaned.result ++ pageText [g])
              (pageText s.cleaned.result) := by
            by_cases isPage : g.role = .page
            · rw [pageText_single isPage]
              exact closed (shown isPage) _ (by simpa [Glyph.white] using separates)
            · have hidden : ∀ h ∈ [g], h.Hidden := fun h mem => by
                rw [List.mem_singleton.mp mem]
                exact ⟨separates, isPage⟩
              rw [pageText_hidden hidden, List.append_nil]
              exact .refl _
          rw [fed]
          refine ⟨?_, List.nil_suffix, fun _ => ⟨out, g, rfl, separates, fun isPage => ?_⟩⟩
          · rw [List.append_nil]
            exact same.symm.trans ((spaces_gist _ chainLine white separates).symm.trans read)
          · exact closed (shown isPage)
        · have white : ∀ h ∈ s.line, h.white = true := List.all_eq_true.mp blank
          rw [fed]
          refine ⟨?_, List.nil_suffix, fun _ => ⟨out, g, rfl, separates, fun isPage => ?_⟩⟩
          · rw [List.append_nil, pageText_append]
            exact (spaces_gist _ chainLine white separates).symm.trans read
          · rw [pageText_append]
            exact ends _ isPage
        · rw [fed]
          refine ⟨?_, List.nil_suffix, fun some => absurd some (Nat.lt_irrefl 0)⟩
          rw [List.append_nil, List.append_assoc, pageText_append]
          refine SameGist.trans ?_ read
          rcases dropReturn_cases s.line with same | ⟨init, r, whole, isReturn, dropped⟩
          · rw [same]
            exact .refl _
          · rw [dropped, whole, pageText_append, List.append_assoc, pageText_append,
              ← List.append_assoc, ← List.append_assoc]
            rw [whole, List.append_assoc] at chainLine
            exact (spaces_gist _ (List.isChain_append.mp chainLine).2.1
              (by simpa using white_of_return isReturn) separates).symm
      · have fed : s.feed g = ⟨s.cleaned, s.line ++ [g]⟩ := if_neg isNewline
        rw [fed]
        refine ⟨?_, ⟨before, by rw [← suffix, List.append_assoc]⟩, fun some => ?_⟩
        · rw [pageText_append]
          exact read
        · obtain ⟨before', n, whole, nWhite, closed⟩ := kept.blank some
          exact ⟨before', n, by rw [whole, List.append_assoc, List.cons_append], nWhite, closed⟩

theorem words_append_white (x : List Char) {t : List Char} (white : ∀ c ∈ t, isWhitespace c = true) :
    words isWhitespace (x ++ t) = words isWhitespace x := by
  induction t using List.reverseRecOn with
  | nil => rw [List.append_nil]
  | append_singleton t c ih =>
      rw [← List.append_assoc, words_concat _ (white c (by simp))]
      exact ih fun d mem => white d (List.mem_append_left _ mem)

theorem pageWords_concat_white (out : Output) {back : Output} (white : ∀ g ∈ back, g.white = true) :
    pageWords (out ++ back) = pageWords out := by
  rw [pageWords, pageText_append, words_append_white _ (white_of_mem_pageText white), ← pageWords]

theorem pageWords_dropWhile (out : Output) :
    pageWords (out.dropWhile Glyph.white) = pageWords out := by
  have white : ∀ g ∈ out.takeWhile Glyph.white, g.white = true := fun g mem =>
    List.mem_takeWhile_imp mem
  conv_rhs => rw [← List.takeWhile_append_dropWhile (p := Glyph.white) (l := out)]
  rw [pageWords, pageWords, pageText_append]
  exact ((SameGist.of_seps (white_of_mem_pageText white)).append _).words_eq.symm

theorem pageWords_rdropWhile (out : Output) :
    pageWords (out.rdropWhile Glyph.white) = pageWords out := by
  conv_rhs => rw [← List.rdropWhile_append_rtakeWhile (p := Glyph.white) (l := out)]
  exact (pageWords_concat_white _ fun g mem => List.mem_rtakeWhile_imp mem).symm

/-- **The clean-up keeps the words.** -/
theorem pageWords_cleanup (framed : Framed out) : pageWords (cleanup out) = pageWords out := by
  have kept := kept_reading framed.chain
  have last : newline.white = true := by decide
  have finished : pageWords (reading out).finish.result = pageWords out := by
    generalize reading out = s at kept
    have whole := kept.gist.words_eq
    rw [← pageWords, ← pageWords] at whole
    rw [← whole, Reading.finish]
    split
    · rename_i empty
      rw [List.isEmpty_iff.mp empty, List.append_nil]
    · rw [cleanLine]
      split
      · rename_i blank
        rw [pageWords_concat_white _ (List.all_eq_true.mp blank)]
        dsimp only
        split
        · exact pageWords_concat_white _ (by simpa using last)
        · rfl
      · exact pageWords_concat_white _ (by simpa using last)
  rw [cleanup_eq]
  dsimp only
  have trimmed : pageWords (((reading out).finish.result.dropWhile Glyph.white).rdropWhile
      Glyph.white) = pageWords out := by
    rw [pageWords_rdropWhile, pageWords_dropWhile, finished]
  split
  · exact trimmed
  · rw [pageWords_concat_white _ (by simpa using last), trimmed]

end Words

/-! ## Fences -/

def Glyph.Plain (g : Glyph) : Prop := g.role = .page ∨ g.role = .mark

section Fences

variable {out back : Output} {codes done : List (List Char)} {g : Glyph}

theorem fences_append (out back : Output) :
    fences (out ++ back) = back.foldl fenceStep (fences out) := by
  rw [fences, List.foldl_append, ← fences]

theorem fenceStep_plain (isPlain : g.Plain) (s : Fences) :
    fenceStep s g = ⟨s.done, s.current.map fun code => code ++ [g.char]⟩ := by
  rw [fenceStep]
  rcases isPlain with page | mark
  · rw [page]
  · rw [mark]

/-- Other characters go to the text that is open. -/
theorem foldl_plain (isPlain : ∀ g ∈ back, g.Plain) (s : Fences) :
    back.foldl fenceStep s =
      ⟨s.done, s.current.map fun code => code ++ back.map Glyph.char⟩ := by
  induction back using List.reverseRecOn with
  | nil => cases s; simp
  | append_singleton back g ih =>
      rw [List.foldl_append, ih fun h mem => isPlain h (List.mem_append_left _ mem),
        List.foldl_cons, List.foldl_nil, fenceStep_plain (isPlain g (by simp))]
      cases s.current <;> simp

/-- Outside of the blocks they change nothing. -/
theorem fences_outside (isPlain : ∀ g ∈ back, g.Plain) :
    fences (out ++ back) = ⟨done, none⟩ ↔ fences out = ⟨done, none⟩ := by
  rw [fences_append, foldl_plain isPlain]
  obtain ⟨d, current⟩ := fences out
  simp

theorem fences_front (isPlain : ∀ g ∈ back, g.Plain) : fences (back ++ out) = fences out := by
  have start : fences ([] ++ back) = ⟨[], none⟩ := (fences_outside isPlain).mpr rfl
  rw [List.nil_append] at start
  rw [fences_append, start]
  rfl

theorem foldl_opening (s : Fences) {text : List Char} (held : text ≠ []) :
    (glyphs .opening text).foldl fenceStep s = ⟨s.done, some []⟩ := by
  induction text using List.reverseRecOn with
  | nil => exact absurd rfl held
  | append_singleton text c ih =>
      rw [glyphs, List.map_append, List.foldl_append, ← glyphs]
      cases text with
      | nil => rfl
      | cons d text =>
          rw [ih (List.cons_ne_nil _ _)]
          rfl

/-! ### Lines of code -/

/-- The lines with nothing in the blank ones, and none of these behind another. -/
def squeezeLines (blanks : Nat) : List (List Char) → List (List Char)
  | [] => []
  | line :: lines =>
      if line.all isWhitespace then
        if blanks = 0 then [] :: squeezeLines (blanks + 1) lines
        else squeezeLines (blanks + 1) lines
      else line :: squeezeLines 0 lines

theorem dropReturn_glyphs (role : Role) (text : List Char) :
    dropReturn (glyphs role text) = glyphs role (dropCr text) := by
  have last : (glyphs role text).getLast?.map Glyph.char = text.getLast? := by
    rw [glyphs, List.getLast?_map, Option.map_map]
    cases text.getLast? <;> rfl
  rw [dropReturn, last, dropCr]
  split
  · rw [glyphs, glyphs, List.map_dropLast]
  · rfl

theorem all_glyphs (role : Role) (text : List Char) :
    (glyphs role text).all Glyph.white = text.all isWhitespace := by
  rw [glyphs, List.all_map]
  rfl

theorem foldl_feed_line (role : Role) {text : List Char} (whole : '\n' ∉ text) (s : Reading) :
    (glyphs role text).foldl Reading.feed s = ⟨s.cleaned, s.line ++ glyphs role text⟩ := by
  induction text generalizing s with
  | nil => cases s; simp [glyphs]
  | cons c text ih =>
      rw [List.mem_cons, not_or] at whole
      have fed : s.feed ⟨c, role⟩ = ⟨s.cleaned, s.line ++ [⟨c, role⟩]⟩ := if_neg (Ne.symm whole.1)
      rw [glyphs, List.map_cons, List.foldl_cons, ← glyphs, fed, ih whole.2]
      simp [glyphs]

theorem foldl_feed_lines {lines : List (List Char)} (whole : ∀ l ∈ lines, '\n' ∉ l)
    (result : Output) (blanks : Nat) :
    ∃ blanks', (glyphs .page (ofLines lines)).foldl Reading.feed ⟨⟨result, blanks⟩, []⟩ =
      ⟨⟨result ++ glyphs .page (ofLines (squeezeLines blanks (lines.map dropCr))), blanks'⟩, []⟩ := by
  induction lines generalizing result blanks with
  | nil => exact ⟨blanks, by simp [ofLines, glyphs, squeezeLines]⟩
  | cons line lines ih =>
      have rest := ih fun l mem => whole l (List.mem_cons_of_mem _ mem)
      have shape : glyphs .page (ofLines (line :: lines)) =
          glyphs .page line ++ ([newline] ++ glyphs .page (ofLines lines)) := by
        simp [ofLines, glyphs, newline]
      rw [shape, List.foldl_append, foldl_feed_line .page (whole line List.mem_cons_self),
        List.nil_append, List.foldl_append, List.foldl_cons, List.foldl_nil]
      have fed : Reading.feed ⟨⟨result, blanks⟩, glyphs .page line⟩ newline =
          ⟨cleanLine ⟨result, blanks⟩ (glyphs .page (dropCr line), newline), []⟩ := by
        rw [← dropReturn_glyphs]
        exact if_pos rfl
      rw [fed, cleanLine, all_glyphs, List.map_cons, squeezeLines]
      dsimp only
      by_cases blank : (dropCr line).all isWhitespace = true
      · rw [if_pos blank, if_pos blank]
        rcases Nat.eq_zero_or_pos blanks with rfl | some
        · obtain ⟨blanks', done⟩ := rest (result ++ [newline]) 1
          refine ⟨blanks', done.trans ?_⟩
          simp [ofLines, glyphs, newline]
        · obtain ⟨blanks', done⟩ := rest result (blanks + 1)
          refine ⟨blanks', ?_⟩
          rw [if_neg (by omega), if_neg (by omega)]
          exact done
      · rw [if_neg blank, if_neg blank]
        obtain ⟨blanks', done⟩ := rest (result ++ glyphs .page (dropCr line) ++ [newline]) 0
        refine ⟨blanks', done.trans ?_⟩
        simp [ofLines, glyphs, newline]

theorem exists_ofLines_append (text : List Char) :
    ∃ lines last, (∀ l ∈ lines, '\n' ∉ l) ∧ '\n' ∉ last ∧ text = ofLines lines ++ last := by
  induction text using List.reverseRecOn with
  | nil => exact ⟨[], [], nofun, nofun, rfl⟩
  | append_singleton text c ih =>
      obtain ⟨lines, last, whole, open_, rfl⟩ := ih
      by_cases isNewline : c = '\n'
      · subst isNewline
        refine ⟨lines ++ [last], [], fun l mem => ?_, nofun, by simp [ofLines]⟩
        rcases List.mem_append.mp mem with inside | here
        · exact whole l inside
        · rw [List.mem_singleton.mp here]
          exact open_
      · refine ⟨lines, last ++ [c], whole, fun mem => ?_, by rw [List.append_assoc]⟩
        rcases List.mem_append.mp mem with inside | here
        · exact open_ inside
        · exact isNewline (List.mem_singleton.mp here).symm

/-- A text that ends in a line feed is its lines. -/
theorem exists_ofLines {text : List Char} (ends : text.getLast? = some '\n') :
    ∃ lines, (∀ l ∈ lines, '\n' ∉ l) ∧ ofLines lines = text ∧ lines.map dropCr = textLines text := by
  obtain ⟨lines, last, whole, open_, rfl⟩ := exists_ofLines_append text
  have empty : last = [] := by
    rcases List.eq_nil_or_concat' last with rfl | ⟨init, c, rfl⟩
    · rfl
    · rw [← List.append_assoc, List.getLast?_concat, Option.some.injEq] at ends
      exact absurd (List.mem_append_right _ (List.mem_singleton.mpr ends.symm)) open_
  refine ⟨lines, whole, by rw [empty, List.append_nil], ?_⟩
  rw [empty, List.append_nil]
  exact (textLines_ofLines whole).symm

theorem ended_getLast (code : List Char) : (ended code).getLast? = some '\n' := by
  rw [ended]
  split
  · assumption
  · exact List.getLast?_concat

/-! ### Blocks -/

/-- What stands between the fences in the end. -/
def cleanedCode (code : List Char) : List Char :=
  '\n' :: ofLines (squeezeLines 0 (textLines (ended code)))

theorem Fenced.plain_of_white (fenced : Fenced out codes) : ∀ g ∈ out, g.white = true → g.Plain := by
  induction fenced with
  | nil => exact nofun
  | plain front isPlain ih =>
      intro h mem white
      rcases List.mem_append.mp mem with inside | here
      · exact ih h inside white
      · rw [List.mem_singleton.mp here]
        exact isPlain
  | block front solid code ih =>
      intro h mem white
      have visible : ∀ {role : Role} {text : List Char}, (∀ c ∈ text, isWhitespace c = false) →
          h ∉ glyphs role text := fun solid inside => by
        obtain ⟨c, inText, rfl⟩ := List.mem_map.mp inside
        rw [Glyph.white, solid c inText] at white
        cases white
      simp only [blockOutput, List.mem_append, List.mem_singleton] at mem
      rcases mem with inside | opening | rfl | page | closing
      · exact ih h inside white
      · exact absurd opening (visible fun c mem =>
          (List.mem_append.mp mem).elim (fence_solid c) (solid c))
      · exact .inl rfl
      · exact glyphs_plain (.inl rfl) _ h page
      · exact absurd closing (visible fence_solid)

theorem mem_reading (out : Output) :
    ∀ g ∈ (reading out).cleaned.result ++ (reading out).line, g ∈ out := by
  induction out using List.reverseRecOn with
  | nil => exact nofun
  | append_singleton out h ih =>
      rw [reading_concat]
      generalize reading out = s at ih
      have front : ∀ g ∈ s.cleaned.result, g ∈ out := fun g mem => ih g (List.mem_append_left _ mem)
      have behind : ∀ g ∈ s.line, g ∈ out := fun g mem => ih g (List.mem_append_right _ mem)
      intro g mem
      by_cases isNewline : h.char = '\n'
      · rcases feed_newline s isNewline with ⟨-, -, fed⟩ | ⟨-, -, fed⟩ | ⟨-, fed⟩
        · rw [fed, List.append_nil] at mem
          exact List.mem_append_left _ (front g mem)
        · rw [fed, List.append_nil] at mem
          exact (List.mem_append.mp mem).elim (fun inside => List.mem_append_left _ (front g inside))
            fun last => List.mem_append_right _ last
        · rw [fed, List.append_nil] at mem
          rcases List.mem_append.mp mem with inside | last
          · rcases List.mem_append.mp inside with inFront | inLine
            · exact List.mem_append_left _ (front g inFront)
            · refine List.mem_append_left _ (behind g ?_)
              rcases dropReturn_cases s.line with same | ⟨init, r, whole, -, dropped⟩
              · rwa [same] at inLine
              · rw [dropped] at inLine
                rw [whole]
                exact List.mem_append_left _ inLine
          · exact List.mem_append_right _ last
      · have fed : s.feed h = ⟨s.cleaned, s.line ++ [h]⟩ := if_neg isNewline
        rw [fed, ← List.append_assoc] at mem
        exact (List.mem_append.mp mem).elim (fun inside => List.mem_append_left _ (ih g inside))
          fun last => List.mem_append_right _ last

theorem newline_free {text : List Char} (solid : ∀ c ∈ text, isWhitespace c = false) :
    '\n' ∉ text := fun mem => by
  have white := solid _ mem
  revert white
  decide

/-- The line that opens a block is left as it is. -/
theorem feed_opening (s : Reading) {text : List Char}
    (solid : ∀ c ∈ fence ++ text, isWhitespace c = false) :
    Reading.feed ⟨s.cleaned, s.line ++ glyphs .opening (fence ++ text)⟩ newline =
      ⟨⟨s.cleaned.result ++ (s.line ++ glyphs .opening (fence ++ text)) ++ [newline], 0⟩, []⟩ := by
  have visible : ∀ g ∈ glyphs .opening (fence ++ text), g.white = false := fun g mem => by
    obtain ⟨c, inText, rfl⟩ := List.mem_map.mp mem
    exact solid c inText
  have held : glyphs .opening (fence ++ text) ≠ [] := by simp [glyphs, fence]
  have blank : (s.line ++ glyphs .opening (fence ++ text)).all Glyph.white = false := by
    obtain ⟨g, rest, isFirst⟩ := List.exists_cons_of_ne_nil held
    have first := visible g (by rw [isFirst]; exact List.mem_cons_self)
    rw [isFirst, List.all_append, List.all_cons, first, Bool.false_and, Bool.and_false]
  have same : dropReturn (s.line ++ glyphs .opening (fence ++ text)) =
      s.line ++ glyphs .opening (fence ++ text) := by
    rcases dropReturn_cases (s.line ++ glyphs .opening (fence ++ text)) with
      same | ⟨init, r, whole, isReturn, -⟩
    · exact same
    · have last : (glyphs .opening (fence ++ text)).getLast? = some r := by
        rw [← List.getLast?_append_of_ne_nil s.line held, whole, List.getLast?_concat]
      have white := visible r (List.mem_of_mem_getLast? last)
      rw [white_of_return isReturn] at white
      cases white
  rcases feed_newline ⟨s.cleaned, s.line ++ glyphs .opening (fence ++ text)⟩ (g := newline) rfl with
    ⟨all, -, -⟩ | ⟨all, -, -⟩ | ⟨-, fed⟩
  · rw [blank] at all
    cases all
  · rw [blank] at all
    cases all
  · rw [fed, same]

/-- Between blocks, what is left holds the cleaned blocks. -/
theorem fences_reading (fenced : Fenced out codes) :
    fences ((reading out).cleaned.result ++ (reading out).line) =
      ⟨codes.map cleanedCode, none⟩ := by
  induction fenced with
  | nil => rfl
  | @plain out codes front g isPlain ih =>
      have plain : ∀ h ∈ (reading out).cleaned.result ++ (reading out).line, h.white = true →
          h.Plain := fun h mem => front.plain_of_white h (mem_reading out h mem)
      rw [reading_concat]
      generalize reading out = s at ih plain
      have last : ∀ h ∈ [g], h.Plain := fun h mem => List.mem_singleton.mp mem ▸ isPlain
      by_cases isNewline : g.char = '\n'
      · have linePlain : s.line.all Glyph.white = true → ∀ h ∈ s.line, h.Plain := fun blank h mem =>
          plain h (List.mem_append_right _ mem) (List.all_eq_true.mp blank h mem)
        rcases feed_newline s isNewline with ⟨blank, -, fed⟩ | ⟨blank, -, fed⟩ | ⟨-, fed⟩
        · rw [fed, List.append_nil]
          exact (fences_outside (linePlain blank)).mp ih
        · rw [fed, List.append_nil, fences_outside last]
          exact (fences_outside (linePlain blank)).mp ih
        · rw [fed, List.append_nil, fences_outside last]
          rcases dropReturn_cases s.line with same | ⟨init, r, whole, isReturn, dropped⟩
          · rw [same]
            exact ih
          · have plainReturn : ∀ h ∈ [r], h.Plain := by
              simpa using plain r (by rw [whole]; simp) (white_of_return isReturn)
            rw [whole, ← List.append_assoc, fences_outside plainReturn] at ih
            rw [dropped]
            exact ih
      · have fed : s.feed g = ⟨s.cleaned, s.line ++ [g]⟩ := if_neg isNewline
        rw [fed, ← List.append_assoc]
        exact (fences_outside last).mpr ih
  | @block out codes front language solid code ih =>
      obtain ⟨lines, whole, isCode, isLines⟩ := exists_ofLines (ended_getLast code)
      have read : reading (out ++ blockOutput language code) =
          (blockOutput language code).foldl Reading.feed (reading out) := by
        rw [reading, List.foldl_append, ← reading]
      have solidFence : ∀ c ∈ fence ++ language, isWhitespace c = false := fun c mem =>
        (List.mem_append.mp mem).elim (fence_solid c) (solid c)
      obtain ⟨blanks, fed⟩ := foldl_feed_lines whole
        ((reading out).cleaned.result ++ ((reading out).line ++ glyphs .opening (fence ++ language)) ++
          [newline]) 0
      rw [read, blockOutput, List.foldl_append, foldl_feed_line .opening (newline_free solidFence),
        List.foldl_append, List.foldl_cons, List.foldl_nil, feed_opening _ solidFence,
        List.foldl_append, ← isCode, fed, foldl_feed_line .closing (by decide)]
      dsimp only
      rw [List.nil_append, isLines, fences_append, fences_append, fences_append, ← List.append_assoc,
        fences_append, ih, foldl_opening _ (by simp [fence]), List.foldl_cons, List.foldl_nil,
        fenceStep_plain (.inl rfl), foldl_plain (glyphs_plain (.inl rfl) _)]
      simp [glyphs, fence, fenceStep, newline, cleanedCode, Function.comp_def]

theorem mem_finish {s : Reading} :
    ∀ g ∈ s.finish.result, g ∈ s.cleaned.result ++ s.line ∨ g = newline := by
  intro g mem
  rw [Reading.finish] at mem
  split at mem
  · exact .inl (List.mem_append_left _ mem)
  · rw [cleanLine] at mem
    split at mem
    · dsimp only at mem
      split at mem
      · rcases List.mem_append.mp mem with inside | last
        · exact .inl (List.mem_append_left _ inside)
        · exact .inr (List.mem_singleton.mp last)
      · exact .inl (List.mem_append_left _ mem)
    · rcases List.mem_append.mp mem with inside | last
      · exact .inl inside
      · exact .inr (List.mem_singleton.mp last)

theorem newline_plain : ∀ g ∈ [newline], g.Plain := fun _ mem =>
  List.mem_singleton.mp mem ▸ .inl rfl

theorem fences_finish (fenced : Fenced out codes) :
    fences (reading out).finish.result = ⟨codes.map cleanedCode, none⟩ := by
  have read := fences_reading fenced
  have plain : ∀ h ∈ (reading out).cleaned.result ++ (reading out).line, h.white = true → h.Plain :=
    fun h mem => fenced.plain_of_white h (mem_reading out h mem)
  generalize reading out = s at read plain
  rw [Reading.finish]
  split
  · rename_i empty
    rwa [List.isEmpty_iff.mp empty, List.append_nil] at read
  · rw [cleanLine]
    split
    · rename_i blank
      have linePlain : ∀ h ∈ s.line, h.Plain := fun h mem =>
        plain h (List.mem_append_right _ mem) (List.all_eq_true.mp blank h mem)
      have front := (fences_outside linePlain).mp read
      dsimp only
      split
      · exact (fences_outside newline_plain).mpr front
      · exact front
    · exact (fences_outside newline_plain).mpr read

/-- **The clean-up leaves the blocks, with their lines squeezed.** -/
theorem fences_cleanup (fenced : Fenced out codes) :
    (fences (cleanup out)).done = codes.map cleanedCode := by
  have finished := fences_finish fenced
  have plain : ∀ g ∈ (reading out).finish.result, g.white = true → g.Plain := by
    intro g mem white
    rcases mem_finish g mem with inside | rfl
    · exact fenced.plain_of_white g (mem_reading out g inside) white
    · exact .inl rfl
  rw [cleanup_eq]
  generalize (reading out).finish.result = result at finished plain
  have trimmed : fences ((result.dropWhile Glyph.white).rdropWhile Glyph.white) =
      ⟨codes.map cleanedCode, none⟩ := by
    have front : fences (result.dropWhile Glyph.white) = fences result := by
      conv_rhs => rw [← List.takeWhile_append_dropWhile (p := Glyph.white) (l := result)]
      exact (fences_front fun g mem =>
        plain g ((List.takeWhile_prefix _).subset mem) (List.mem_takeWhile_imp mem)).symm
    rw [← front, ← List.rdropWhile_append_rtakeWhile (p := Glyph.white)
      (l := result.dropWhile Glyph.white), fences_outside] at finished
    · exact finished
    · intro g mem
      exact plain g ((List.dropWhile_suffix _).subset ((List.rtakeWhile_suffix _ _).subset mem))
        (List.mem_rtakeWhile_imp mem)
  dsimp only
  split
  · rw [trimmed]
  · rw [(fences_outside newline_plain).mpr trimmed]

end Fences

end Ministr.Parser.HtmlToMd
