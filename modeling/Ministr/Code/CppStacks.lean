/-
# Code.CppStacks — the stacks of the walk over C++ tokens

The walk counts the open braces, tags each of them on a stack and keeps the names of the namespaces
it is in.  Whatever the tokens are, also where braces are missing or too many, the count is the
height of the stack and there is a name for every tag of a namespace (`Stacked`).  Scanners look
ahead over braces without counting them, but what they find ends behind the token at hand, so that
no token is read twice and the walk ends (`walk_stacked`).
-/
import Ministr.Code.CppFallback

namespace Ministr.Code

open Ministr.Theory Ministr.Content Ministr.Ingestion

set_option autoImplicit false

section Stacks

variable {content : List Char} {toks : List Tok} {relativePath : String} {w w' : Walk}

/-- The count of open braces, the tags and the names agree. -/
structure Stacked (w : Walk) : Prop where
  depth : w.depth = w.braceStack.length
  namespaces : w.braceStack.count .namespaceBrace = w.namespaceStack.length

/-- The index of the token at hand. -/
def Walk.index (toks : List Tok) (w : Walk) : Nat := toks.length - w.rest.length

theorem stacked_start (toks : List Tok) : Stacked (Walk.start toks) := ⟨rfl, rfl⟩

/-! ## One round -/

theorem consumeNamespaceHeader_brace {name : Option Tok} {ts : List Tok} {found : Tok × List Tok}
    (some_ : consumeNamespaceHeader name ts = some found) :
    ∃ b after, found.2 = b :: after ∧ b.token = .lBrace := by
  fun_induction consumeNamespaceHeader name ts with
  | case1 => simp at some_
  | case2 name t ts isIdent ih => exact ih some_
  | case3 name t ts isBrace =>
      obtain ⟨_, _, rfl⟩ := Option.map_eq_some_iff.mp some_
      exact ⟨t, ts, rfl, isBrace⟩
  | case4 => simp at some_
  | case5 => simp at some_
  | case6 name t ts _ _ _ _ ih => exact ih some_

/-- A closing brace takes its tag, and with the tag of a namespace the name. -/
theorem Stacked.close (stacked : Stacked w) (rest : List Tok) :
    Stacked { w with
      rest := rest, braceStack := w.braceStack.tail, depth := w.depth - 1
      namespaceStack :=
        if w.braceStack.head? = some .namespaceBrace then w.namespaceStack.tail
        else w.namespaceStack } := by
  have depth := stacked.depth
  have namespaces := stacked.namespaces
  cases tags : w.braceStack with
  | nil =>
      rw [tags] at depth namespaces
      exact ⟨by simp [depth], namespaces⟩
  | cons tag below =>
      rw [tags] at depth namespaces
      refine ⟨by simp [depth], ?_⟩
      cases tag with
      | namespaceBrace =>
          rw [List.count_cons_self] at namespaces
          simp only [List.head?_cons, if_true, List.tail_cons, List.length_tail]
          omega
      | otherBrace =>
          rw [List.count_cons_of_ne (by decide)] at namespaces
          simpa using namespaces

theorem Stacked.enter (stacked : Stacked w) (name : Tok) {brace after : List Tok} {b : Tok}
    (opening : brace = b :: after) (isBrace : b.token = .lBrace) :
    Stacked (w.enter content name brace) := by
  subst opening
  rw [Walk.enter]
  dsimp only
  rw [if_pos isBrace]
  refine ⟨congrArg (· + 1) stacked.depth, ?_⟩
  rw [List.count_cons_self, stacked.namespaces, List.length_cons]

variable (content toks relativePath) in
theorem Stacked.next (stacked : Stacked w) (t : Tok) (ts : List Tok) :
    Stacked (w.next content toks relativePath t ts) := by
  rw [Walk.next]
  split
  · refine ⟨congrArg (· + 1) stacked.depth, ?_⟩
    rw [List.count_cons_of_ne (by decide), stacked.namespaces]
  split
  · exact stacked.close ts
  split
  · exact ⟨stacked.depth, stacked.namespaces⟩
  split
  · split
    next name brace header =>
      obtain ⟨b, after, opening, isBrace⟩ := consumeNamespaceHeader_brace header
      exact stacked.enter name opening isBrace
    · exact ⟨stacked.depth, stacked.namespaces⟩
  split
  · exact ⟨stacked.depth, stacked.namespaces⟩
  · exact ⟨stacked.depth, stacked.namespaces⟩

/-- No round opens more than one brace. -/
theorem Walk.next_depth (w : Walk) (t : Tok) (ts : List Tok) :
    (w.next content toks relativePath t ts).depth ≤ w.depth + 1 := by
  rw [Walk.next]
  split
  · exact Nat.le_refl _
  split
  · exact Nat.le_trans (Nat.sub_le _ _) (Nat.le_succ _)
  split
  · exact Nat.le_succ _
  split
  · split
    · unfold Walk.enter
      split
      · exact Nat.le_succ _
      · split
        · exact Nat.le_refl _
        · exact Nat.le_succ _
    · exact Nat.le_succ _
  split
  · exact Nat.le_succ _
  · exact Nat.le_succ _

/-! ## Every round -/

/-- What a round leaves behind the index. -/
theorem index_round (lexed : Lexed content toks) (suffix : w.rest <:+ toks)
    (round : Round content toks relativePath w w') : w.index toks < w'.index toks := by
  obtain ⟨t, ts, left, rfl⟩ := round
  rw [left] at suffix
  have shorter := (w.next_suffix relativePath lexed suffix).length_le
  have whole := suffix.length_le
  rw [Walk.index, Walk.index, left]
  simp only [List.length_cons] at whole ⊢
  omega

/-- **In every round the stacks agree; the token index grows from each to the next, and the walk
ends.**  Not more braces are open than tokens were read. -/
theorem walk_stacked (content : List Char) (toks : List Tok) (relativePath : String) :
    (∀ w, Relation.ReflTransGen (Round content toks relativePath) (Walk.start toks) w →
      Stacked w) ∧
    (Lexed content toks →
      (∀ w, Relation.ReflTransGen (Round content toks relativePath) (Walk.start toks) w →
        w.rest = toks.drop (w.index toks) ∧ w.depth ≤ w.index toks ∧
        ∀ w', Round content toks relativePath w w' → w.index toks < w'.index toks) ∧
      ∃ out, extractCppFallbackSymbols content toks relativePath = some out) := by
  refine ⟨fun w rounds => ?_, fun lexed => ⟨fun w rounds => ?_, ?_⟩⟩
  · induction rounds with
    | refl => exact stacked_start toks
    | tail _ round ih =>
        obtain ⟨t, ts, -, rfl⟩ := round
        exact ih.next content toks relativePath t ts
  · have suffix := (answer_reaches lexed List.suffix_rfl rounds).1
    refine ⟨List.suffix_iff_eq_drop.mp suffix, ?_, fun w' round => index_round lexed suffix round⟩
    induction rounds with
    | refl => exact Nat.zero_le _
    | tail before round ih =>
        have inside := (answer_reaches lexed List.suffix_rfl before).1
        have grown := index_round lexed inside round
        obtain ⟨t, ts, -, rfl⟩ := round
        exact Nat.le_trans (Walk.next_depth _ t ts) (Nat.le_trans (Nat.succ_le_succ (ih inside)) grown)
  · obtain ⟨out, answered, -⟩ := answer_total relativePath lexed (w := Walk.start toks) List.suffix_rfl
    exact ⟨out, answered⟩

/-- A brace that closes nothing, and a namespace that is never closed. -/
def unevenText : List Char := "\x7d namespace A \x7b".toList

def unevenToks : List Tok :=
  [⟨.rBrace, 0, 1⟩, ⟨.kwNamespace, 2, 11⟩, ⟨.ident, 12, 13⟩, ⟨.lBrace, 14, 15⟩]

theorem unevenToks_lexed : Lexed unevenText unevenToks where
  ordered := by decide
  nonempty := by decide
  spelled := by decide +kernel

theorem walk_stacked_uneven :
    ∃ out, extractCppFallbackSymbols unevenText unevenToks "a.cpp" = some out :=
  ((walk_stacked unevenText unevenToks "a.cpp").2 unevenToks_lexed).2

end Stacks

end Ministr.Code
