/-
# Code.CppScan — what the scanners make of the pieces of a declaration

None of the scanners knows where a declaration starts.  The lemmas here say how each of them gets
over a piece, whatever follows it: over a type (`consumeClassLike_angled`,
`tryParseFunction_angled`), up to the first `{` or `;` (`consumeClassLike_ends`), and over a
function from its name on (`tryParseFunction_function`, `consumeClassLike_function`).
-/
import Ministr.Code.CppShapes

namespace Ministr.Code

open Ministr.Theory Ministr.Content Ministr.Ingestion

set_option autoImplicit false

/-! ## The scanners, token by token -/

section Scanners

variable {t : Tok} {ts rest : List Tok}

theorem endsHeader_apart (t : Tok) (ends : endsHeader t) : ¬opensAngle t ∧ ¬closesAngle t := by
  simp only [endsHeader, opensAngle, closesAngle, Bool.or_eq_true, decide_eq_true_eq] at ends ⊢
  rcases ends with same | same <;> simp [same]

theorem matchCloseAngle_group {l c : Tok} {inner : List Tok} (opening : opensAngle l)
    (even : balanced opensAngle closesAngle 0 inner) (free : ∀ x ∈ inner, ¬endsHeader x)
    (closing : closesAngle c ∧ ¬opensAngle c) (rest : List Tok) :
    matchCloseAngle (l :: (inner ++ c :: rest)) = some rest := by
  rw [matchCloseAngle, matchClose, if_pos opening,
    matchClose_balanced even closing.1 closing.2 free]
  rfl

theorem matchCloseBrace_block (b : Block) (rest : List Tok) :
    matchCloseBrace (b.toks ++ rest) = some b.closing.1.stop := by
  have opening : opensBrace b.opening.1 := by simp [opensBrace, b.opening.2]
  have closing : closesBrace b.closing.1 := by simp [closesBrace, b.closing.2]
  have other : ¬opensBrace b.closing.1 := by simp [opensBrace, b.closing.2]
  rw [matchCloseBrace, Block.toks, List.cons_append, List.append_assoc, matchClose,
    if_pos opening]
  simp [matchClose_balanced b.even closing other]

theorem consumeClassLike_ident (isIdent : t.token = .ident) (name : Option Tok) :
    consumeClassLike name (t :: ts) = consumeClassLike (some t) ts := by
  rw [consumeClassLike]
  simp only [isIdent]

theorem consumeClassLike_semi (isSemi : t.token = .semi) (name : Option Tok) :
    consumeClassLike name (t :: ts) = none := by
  rw [consumeClassLike]
  simp only [isSemi]

theorem consumeClassLike_colon (isColon : t.token = .colon) (name : Option Tok) :
    consumeClassLike name (t :: ts) =
      consumeClassLike name (ts.dropWhile fun u => !endsHeader u) := by
  rw [consumeClassLike]
  simp only [isColon]

theorem consumeClassLike_other (other : t.token ≠ .ident ∧ t.token ≠ .lAngle ∧ t.token ≠ .colon ∧
    t.token ≠ .lBrace ∧ t.token ≠ .semi) (name : Option Tok) :
    consumeClassLike name (t :: ts) = consumeClassLike name ts := by
  obtain ⟨a, b, c, d, e⟩ := other
  rw [consumeClassLike]
  split <;> first | contradiction | rfl

theorem consumeClassLike_group {l c : Tok} {inner : List Tok} (opening : opensAngle l)
    (even : balanced opensAngle closesAngle 0 inner) (free : ∀ x ∈ inner, ¬endsHeader x)
    (closing : closesAngle c ∧ ¬opensAngle c) (name : Option Tok) (rest : List Tok) :
    consumeClassLike name (l :: (inner ++ c :: rest)) = consumeClassLike name rest := by
  have isAngle : l.token = .lAngle := by simpa [opensAngle] using opening
  have matched := matchCloseAngle_group opening even free closing rest
  rw [consumeClassLike]
  simp only [isAngle]
  split
  next none_ => exact absurd (none_.symm.trans matched) (by simp)
  next some_ => rw [Option.some.inj (some_.symm.trans matched)]

theorem consumeClassLike_block (b : Block) (name : Tok) (rest : List Tok) :
    consumeClassLike (some name) (b.toks ++ rest) = some (name, b.closing.1.stop) := by
  have matched := matchCloseBrace_block b rest
  rw [Block.toks, List.cons_append] at matched ⊢
  rw [consumeClassLike]
  simp only [b.opening.2, matched]
  rfl

theorem tryParseFunction_ident (isIdent : t.token = .ident) (lastIdent : Option (Tok × Nat)) :
    tryParseFunction lastIdent (t :: ts) = tryParseFunction (some (t, ts.length)) ts := by
  rw [tryParseFunction]
  simp only [isIdent]

theorem tryParseFunction_stop (stops : t.token = .semi ∨ t.token = .lBrace ∨ t.token = .comma ∨
    t.token = .eq) (lastIdent : Option (Tok × Nat)) :
    tryParseFunction lastIdent (t :: ts) = none := by
  rw [tryParseFunction]
  rcases stops with same | same | same | same <;> simp only [same]

theorem tryParseFunction_other (other : t.token ≠ .ident ∧ t.token ≠ .lAngle ∧
    t.token ≠ .lParen ∧ t.token ≠ .semi ∧ t.token ≠ .lBrace ∧ t.token ≠ .rBrace ∧
    t.token ≠ .comma ∧ t.token ≠ .eq) (lastIdent : Option (Tok × Nat)) :
    tryParseFunction lastIdent (t :: ts) = tryParseFunction lastIdent ts := by
  obtain ⟨a, b, c, d, e, f, g, h⟩ := other
  rw [tryParseFunction]
  split <;> first | contradiction | rfl

theorem tryParseFunction_group {l c : Tok} {inner : List Tok} (opening : opensAngle l)
    (even : balanced opensAngle closesAngle 0 inner) (free : ∀ x ∈ inner, ¬endsHeader x)
    (closing : closesAngle c ∧ ¬opensAngle c) (lastIdent : Option (Tok × Nat))
    (rest : List Tok) :
    tryParseFunction lastIdent (l :: (inner ++ c :: rest)) = tryParseFunction lastIdent rest := by
  have isAngle : l.token = .lAngle := by simpa [opensAngle] using opening
  have matched := matchCloseAngle_group opening even free closing rest
  rw [tryParseFunction]
  simp only [isAngle]
  split
  next none_ => exact absurd (none_.symm.trans matched) (by simp)
  next some_ => rw [Option.some.inj (some_.symm.trans matched)]

/-! ## The scanners, over the pieces of a declaration -/

/-- A class scanner gets over a type, and knows a name if it knew one or met one. -/
theorem consumeClassLike_angled {P : Token → Prop}
    (passes : ∀ k, P k → k ≠ .colon ∧ k ≠ .lBrace ∧ k ≠ .semi) (grouped : Angled P ts)
    (name : Option Tok) (rest : List Tok) :
    ∃ name', (name.isSome → name'.isSome) ∧
      consumeClassLike name (ts ++ rest) = consumeClassLike name' rest := by
  induction grouped generalizing name with
  | nil => exact ⟨name, id, rfl⟩
  | @single x xs other allowed _ ih =>
      obtain ⟨colon, brace, semi⟩ := passes _ allowed
      rw [List.cons_append]
      by_cases isIdent : x.token = .ident
      · obtain ⟨name', known, same⟩ := ih (some x)
        exact ⟨name', fun _ => known rfl, (consumeClassLike_ident isIdent name).trans same⟩
      · obtain ⟨name', known, same⟩ := ih name
        refine ⟨name', known, (consumeClassLike_other ?_ name).trans same⟩
        exact ⟨isIdent, by simpa [opensAngle] using other, colon, brace, semi⟩
  | group opening even free closing _ ih =>
      obtain ⟨name', known, same⟩ := ih name
      rw [List.cons_append, List.append_assoc, List.cons_append,
        consumeClassLike_group opening even free closing]
      exact ⟨name', known, same⟩

/-- A function scanner gets over what has no parenthesis, or gives up there. -/
theorem tryParseFunction_angled {P : Token → Prop}
    (passes : ∀ k, P k → k ≠ .lParen ∧ k ≠ .semi ∧ k ≠ .lBrace ∧ k ≠ .rBrace)
    (grouped : Angled P ts) (lastIdent : Option (Tok × Nat)) (rest : List Tok) :
    tryParseFunction lastIdent (ts ++ rest) = none ∨
      ∃ lastIdent', tryParseFunction lastIdent (ts ++ rest) =
        tryParseFunction lastIdent' rest := by
  induction grouped generalizing lastIdent with
  | nil => exact .inr ⟨lastIdent, rfl⟩
  | @single x xs other allowed _ ih =>
      obtain ⟨paren, semi, brace, close⟩ := passes _ allowed
      rw [List.cons_append]
      by_cases isIdent : x.token = .ident
      · rw [tryParseFunction_ident isIdent]
        exact ih _
      by_cases stops : x.token = .comma ∨ x.token = .eq
      · exact .inl (tryParseFunction_stop (.inr (.inr stops)) lastIdent)
      · rw [not_or] at stops
        rw [tryParseFunction_other ⟨isIdent, by simpa [opensAngle] using other, paren, semi, brace,
          close, stops⟩]
        exact ih lastIdent
  | group opening even free closing _ ih =>
      rw [List.cons_append, List.append_assoc, List.cons_append,
        tryParseFunction_group opening even free closing]
      exact ih lastIdent

theorem Token.inType_apart {k : Token} (typed : k.inType) :
    k ≠ .lParen ∧ k ≠ .semi ∧ k ≠ .lBrace ∧ k ≠ .rBrace ∧ k ≠ .comma ∧ k ≠ .eq ∧ k ≠ .colon := by
  cases k <;> simp_all [inType, isPlain, isKey, isClassKey]

theorem tryParseFunction_type (grouped : Angled Token.inType ts)
    (lastIdent : Option (Tok × Nat)) (rest : List Tok) :
    ∃ lastIdent', tryParseFunction lastIdent (ts ++ rest) =
      tryParseFunction lastIdent' rest := by
  induction grouped generalizing lastIdent with
  | nil => exact ⟨lastIdent, rfl⟩
  | @single x xs other allowed _ ih =>
      rw [List.cons_append]
      by_cases isIdent : x.token = .ident
      · rw [tryParseFunction_ident isIdent]
        exact ih _
      · obtain ⟨paren, semi, brace, close, comma, eq, _⟩ := Token.inType_apart allowed
        rw [tryParseFunction_other ⟨isIdent, by simpa [opensAngle] using other, paren, semi, brace,
          close, comma, eq⟩]
        exact ih lastIdent
  | group opening even free closing _ ih =>
      rw [List.cons_append, List.append_assoc, List.cons_append,
        tryParseFunction_group opening even free closing]
      exact ih lastIdent

/-- A comma at the end stops a function scanner, wherever it starts in front of it. -/
theorem tryParseFunction_comma {P : Token → Prop}
    (passes : ∀ k, P k → k ≠ .lParen ∧ k ≠ .semi ∧ k ≠ .lBrace ∧ k ≠ .rBrace)
    (grouped : Angled P ts) {c : Tok} (last : ts.getLast? = some c) (comma : c.token = .comma)
    (lastIdent : Option (Tok × Nat)) (rest : List Tok) :
    tryParseFunction lastIdent (ts ++ rest) = none := by
  induction grouped generalizing lastIdent with
  | nil => simp at last
  | @single x xs other allowed _ ih =>
      rw [List.cons_append]
      cases xs with
      | nil =>
          obtain rfl : x = c := by simpa using last
          exact tryParseFunction_stop (.inr (.inr (.inl comma))) lastIdent
      | cons y ys =>
          rw [List.getLast?_cons_cons] at last
          obtain ⟨paren, semi, brace, close⟩ := passes _ allowed
          by_cases isIdent : x.token = .ident
          · rw [tryParseFunction_ident isIdent]
            exact ih last _
          by_cases stops : x.token = .comma ∨ x.token = .eq
          · exact tryParseFunction_stop (.inr (.inr stops)) lastIdent
          · rw [not_or] at stops
            rw [tryParseFunction_other ⟨isIdent, by simpa [opensAngle] using other, paren, semi,
              brace, close, stops⟩]
            exact ih last lastIdent
  | @group o close inner xs opening even free closing _ ih =>
      have isClose : close.token = .rAngle := by simpa [closesAngle] using closing.1
      rw [List.cons_append, List.append_assoc, List.cons_append,
        tryParseFunction_group opening even free closing]
      refine ih ?_ lastIdent
      rw [← List.cons_append, List.getLast?_append_cons] at last
      cases xs with
      | nil =>
          obtain rfl : close = c := by simpa using last
          exact absurd (isClose.symm.trans comma) (by decide)
      | cons y ys => rwa [List.getLast?_cons_cons] at last

/-- The last token of a function. -/
def FunctionTail.stop : FunctionTail → Tok
  | .body block => block.closing.1
  | .declared semi => semi.1

theorem functionEnd_tail (tail : FunctionTail) (name : Tok) {quals : List Tok}
    (flat : ∀ t ∈ quals, ¬endsHeader t) (rest : List Tok) :
    functionEnd name (quals ++ (tail.toks ++ rest)) = some (name, tail.stop.stop) := by
  have passed : ∀ t ∈ quals, (!endsHeader t) = true := by simpa using flat
  rw [functionEnd, List.dropWhile_append_of_pos passed]
  cases tail with
  | body block =>
      have matched := matchCloseBrace_block block rest
      have isBrace := block.opening.2
      rw [FunctionTail.toks, Block.toks, List.cons_append] at *
      rw [List.dropWhile_cons_of_neg (by simp [endsHeader, isBrace])]
      simp only [isBrace, matched]
      rfl
  | declared semi =>
      rw [FunctionTail.toks, List.cons_append, List.dropWhile_cons_of_neg
        (by simp [endsHeader, semi.2])]
      simp only [semi.2, if_true]
      rfl

/-- At its name a function is found, whatever the scanner has seen. -/
theorem tryParseFunction_function (d : FunctionDecl) (lastIdent : Option (Tok × Nat))
    (rest : List Tok) :
    tryParseFunction lastIdent (d.name.1 :: (d.afterName ++ rest)) =
      some (d.name.1, d.tail.stop.stop) := by
  have flat : ∀ t ∈ d.quals, ¬endsHeader t := fun t mem => by
    simp [endsHeader, (d.flat t mem).1, (d.flat t mem).2.2]
  have opening : opensParen d.opening.1 := by simp [opensParen, d.opening.2]
  have closing : closesParen d.closing.1 := by simp [closesParen, d.closing.2]
  have other : ¬opensParen d.closing.1 := by simp [opensParen, d.closing.2]
  rw [tryParseFunction_ident d.name.2, FunctionDecl.afterName, List.cons_append, List.cons_append,
    tryParseFunction]
  simp only [d.opening.2, functionAt, Option.bind_some, matchCloseParen]
  rw [if_neg (by simp), List.append_assoc, List.append_assoc, List.cons_append, matchClose,
    if_pos opening, matchClose_balanced d.evenParens closing other (by simp)]
  exact functionEnd_tail d.tail d.name.1 flat rest

theorem dropWhile_ends {front back : List Tok} {s : Tok} (free : ∀ t ∈ front, ¬endsHeader t)
    (ends : endsHeader s) :
    (front ++ s :: back).dropWhile (fun u => !endsHeader u) = s :: back := by
  rw [List.dropWhile_append_of_pos (by simpa using free),
    List.dropWhile_cons_of_neg (by simpa using ends)]

/-- A class scanner comes to the first `{` or `;` behind a name. -/
theorem consumeClassLike_ends (grouped : Angled (fun _ => True) ts)
    (free : ∀ t ∈ ts, ¬endsHeader t) {s : Tok} (ends : endsHeader s) (name : Option Tok)
    (back : List Tok) :
    ∃ name', (name.isSome → name'.isSome) ∧
      consumeClassLike name (ts ++ s :: back) = consumeClassLike name' (s :: back) := by
  induction grouped generalizing name with
  | nil => exact ⟨name, id, rfl⟩
  | @single x xs other _ _ ih =>
      rw [List.forall_mem_cons] at free
      rw [List.cons_append]
      by_cases isIdent : x.token = .ident
      · obtain ⟨name', known, same⟩ := ih free.2 (some x)
        exact ⟨name', fun _ => known rfl, (consumeClassLike_ident isIdent name).trans same⟩
      by_cases isColon : x.token = .colon
      · refine ⟨name, id, ?_⟩
        rw [consumeClassLike_colon isColon, dropWhile_ends free.2 ends]
      · obtain ⟨name', known, same⟩ := ih free.2 name
        refine ⟨name', known, (consumeClassLike_other ?_ name).trans same⟩
        have apart : x.token ≠ .lBrace ∧ x.token ≠ .semi := by simpa [endsHeader] using free.1
        exact ⟨isIdent, by simpa [opensAngle] using other, isColon, apart⟩
  | group opening even inside closing _ ih =>
      rw [List.forall_mem_cons, List.forall_mem_append, List.forall_mem_cons] at free
      obtain ⟨name', known, same⟩ := ih free.2.2.2 name
      rw [List.cons_append, List.append_assoc, List.cons_append,
        consumeClassLike_group opening even inside closing]
      exact ⟨name', known, same⟩

theorem enumName_ends (free : ∀ t ∈ ts, ¬endsHeader t) {s : Tok} (ends : endsHeader s)
    (name : Tok) (back : List Tok) :
    ∃ name', enumName (some name) (ts ++ s :: back) = enumName (some name') (s :: back) := by
  induction ts generalizing name with
  | nil => exact ⟨name, rfl⟩
  | cons x xs ih =>
      rw [List.forall_mem_cons] at free
      rw [List.cons_append, enumName]
      have apart : x.token ≠ .lBrace ∧ x.token ≠ .semi := by simpa [endsHeader] using free.1
      split
      · exact ih free.2 x
      · rw [dropWhile_ends free.2 ends]
        exact ⟨name, rfl⟩
      next semi => exact absurd semi apart.2
      next brace => exact absurd brace apart.1
      · exact ih free.2 name

theorem FunctionTail.toks_cons (tail : FunctionTail) :
    ∃ s back, tail.toks = s :: back ∧ endsHeader s := by
  cases tail with
  | body block => exact ⟨_, _, rfl, by simp [endsHeader, block.opening.2]⟩
  | declared semi => exact ⟨_, _, rfl, by simp [endsHeader, semi.2]⟩

/-- The first `{` or `;` behind the name of a function. -/
theorem FunctionDecl.header (d : FunctionDecl) :
    ∃ front s back, d.afterName = front ++ s :: back ∧ (∀ t ∈ front, ¬endsHeader t) ∧
      Angled (fun _ => True) front ∧ endsHeader s ∧ (d.braceFirst ↔ s.token = .lBrace) := by
  have opening : ¬opensAngle d.opening.1 ∧ ¬endsHeader d.opening.1 := by
    simp [opensAngle, endsHeader, d.opening.2]
  suffices found : ∃ front s back, d.afterName = d.opening.1 :: front ++ s :: back ∧
      (∀ t ∈ front, ¬endsHeader t) ∧ Angled (fun _ => True) front ∧ endsHeader s by
    obtain ⟨front, s, back, whole, free, grouped, ends⟩ := found
    have all : ∀ t ∈ d.opening.1 :: front, ¬endsHeader t :=
      List.forall_mem_cons.mpr ⟨opening.2, free⟩
    refine ⟨d.opening.1 :: front, s, back, whole, all, .single opening.1 trivial grouped, ends, ?_⟩
    rw [FunctionDecl.braceFirst, whole, List.find?_append, List.find?_eq_none.mpr all,
      List.find?_cons_of_pos ends]
    simp
  have split := List.takeWhile_append_dropWhile (p := fun t => !endsHeader t)
    (l := d.params ++ d.closing.1 :: d.quals)
  have free : ∀ t ∈ (d.params ++ d.closing.1 :: d.quals).takeWhile (fun t => !endsHeader t),
      ¬endsHeader t := fun t mem => by simpa using List.mem_takeWhile_imp mem
  cases dropped : (d.params ++ d.closing.1 :: d.quals).dropWhile (fun t => !endsHeader t) with
  | nil =>
      obtain ⟨s, back, toks, ends⟩ := d.tail.toks_cons
      refine ⟨_, s, back, ?_, free, d.angles, ends⟩
      rw [dropped, List.append_nil] at split
      rw [FunctionDecl.afterName, toks, split]
  | cons s back =>
      have ends : endsHeader s := by
        have := List.head?_dropWhile_not (fun t => !endsHeader t)
          (d.params ++ d.closing.1 :: d.quals)
        simpa [dropped] using this
      refine ⟨_, s, back ++ d.tail.toks, ?_, free, d.angles, ends⟩
      rw [dropped] at split
      rw [FunctionDecl.afterName]
      nth_rewrite 1 [← split]
      simp

theorem FunctionDecl.evenAfter (d : FunctionDecl) :
    balanced opensBrace closesBrace 0 d.afterName := by
  have none_ : ∀ t ∈ d.quals, ¬opensBrace t ∧ ¬closesBrace t := fun t mem => by
    simp [opensBrace, closesBrace, (d.flat t mem).1, (d.flat t mem).2.1]
  have closing : ¬opensBrace d.closing.1 ∧ ¬closesBrace d.closing.1 := by
    simp [opensBrace, closesBrace, d.closing.2]
  have tail : balanced opensBrace closesBrace 0 d.tail.toks := by
    cases d.tail with
    | body block =>
        have opening : opensBrace block.opening.1 := by simp [opensBrace, block.opening.2]
        have other : ¬opensBrace block.closing.1 ∧ closesBrace block.closing.1 := by
          simp [opensBrace, closesBrace, block.closing.2]
        have closed : balanced opensBrace closesBrace 1 [block.closing.1] := by
          simp [balanced, other]
        rw [FunctionTail.toks, Block.toks, balanced, if_pos opening]
        exact balanced_append block.even closed
    | declared semi => simp [FunctionTail.toks, balanced, opensBrace, closesBrace, semi.2]
  have opening : ¬opensBrace d.opening.1 ∧ ¬closesBrace d.opening.1 := by
    simp [opensBrace, closesBrace, d.opening.2]
  rw [FunctionDecl.afterName, List.cons_append, balanced, if_neg opening.1, if_neg opening.2]
  have head := balanced_append d.evenBraces
    (balanced_of_free (List.forall_mem_cons.mpr ⟨closing, none_⟩))
  exact balanced_append head tail

/-- Behind the name of a function a class scanner finds a body if a `{` comes first. -/
theorem consumeClassLike_function (d : FunctionDecl) (name : Tok) (rest : List Tok) :
    if d.braceFirst then (consumeClassLike (some name) (d.afterName ++ rest)).isSome
    else consumeClassLike (some name) (d.afterName ++ rest) = none := by
  obtain ⟨front, s, back, whole, free, grouped, ends, first⟩ := d.header
  obtain ⟨name', known, same⟩ :=
    consumeClassLike_ends grouped free ends (some name) (back ++ rest)
  obtain ⟨n, rfl⟩ := Option.isSome_iff_exists.mp (known rfl)
  rw [whole, List.append_assoc, List.cons_append, same]
  split
  next brace =>
    have isBrace := first.mp brace
    have opening : opensBrace s := by simp [opensBrace, isBrace]
    obtain ⟨found, matched⟩ := matchClose_of_balanced (whole ▸ d.evenAfter)
      (fun t mem opens => free t mem (by simp_all [opensBrace, endsHeader])) opening rest
    rw [consumeClassLike]
    simp [isBrace, matchCloseBrace, matched]
  next semi =>
    have isSemi : s.token = .semi := by
      have := mt first.mpr semi
      simpa [endsHeader, this] using ends
    exact consumeClassLike_semi isSemi _

end Scanners

end Ministr.Code
