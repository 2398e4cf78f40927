/-
# Code.CppRead — which declarations are recorded as declared

Each shape is followed from its first token to its last.  A class is recorded with the kind of
its keyword, or as a `class` if a template parameter is one (`ClassDef.reads`); a forward
declaration leaves no trace (`ForwardDecl.passed`); a function is found from the first identifier
of its type or of its template (`FunctionDecl.reads`), unless a keyword in front of it has led to
a type before (`FunctionDecl.misread`).

`extract_exact_iff` puts them together over all scopes.  Up to the first declaration that is not
`Plain` the records are right, and the next one is wrong.
-/
import Ministr.Code.CppTemplates

namespace Ministr.Code

open Ministr.Theory Ministr.Content Ministr.Ingestion

set_option autoImplicit false

/-! ## Classes -/

section Classes

variable {content : List Char}

theorem isClassKey_apart {k : Token} (key : k.isClassKey) :
    (k ≠ .ident ∧ k ≠ .lAngle ∧ k ≠ .colon ∧ k ≠ .lBrace ∧ k ≠ .semi) ∧
      k ≠ .lParen ∧ k ≠ .rBrace ∧ k ≠ .comma ∧ k ≠ .eq ∧ k ≠ .kwNamespace := by
  cases k <;> simp_all [Token.isClassKey]

/-- Behind the keyword of a class its name is the last identifier. -/
theorem ClassHead.scanned (h : ClassHead) (name : Option Tok) (rest : List Tok) :
    consumeClassLike name ((h.api.map Subtype.val).toList ++ h.name.1 :: rest) =
      consumeClassLike (some h.name.1) rest := by
  cases h.api with
  | none => exact consumeClassLike_ident h.name.2 name
  | some api =>
      show consumeClassLike name (api.1 :: h.name.1 :: rest) = _
      rw [consumeClassLike_ident api.2, consumeClassLike_ident h.name.2]

theorem ClassHead.scanned_front (h : ClassHead) (name : Option Tok) (rest : List Tok) :
    consumeClassLike name (h.front ++ rest) = consumeClassLike (some h.name.1) rest := by
  rw [ClassHead.front, List.append_assoc, List.cons_append,
    consumeClassLike_other (isClassKey_apart h.classKey).1]
  exact h.scanned name rest

/-- The head of a class is no head of a function. -/
theorem ClassHead.not_function (h : ClassHead) (lastIdent : Option (Tok × Nat))
    (rest : List Tok) :
    ∃ lastIdent', tryParseFunction lastIdent (h.front ++ rest) =
      tryParseFunction lastIdent' rest := by
  obtain ⟨⟨ident, angle, _, brace, semi⟩, paren, close, comma, eq, _⟩ := isClassKey_apart h.classKey
  rw [ClassHead.front, List.append_assoc, List.cons_append,
    tryParseFunction_other ⟨ident, angle, paren, semi, brace, close, comma, eq⟩]
  cases h.api with
  | none =>
      show ∃ _, tryParseFunction lastIdent (h.name.1 :: rest) = _
      rw [tryParseFunction_ident h.name.2]
      exact ⟨_, rfl⟩
  | some api =>
      show ∃ _, tryParseFunction lastIdent (api.1 :: h.name.1 :: rest) = _
      rw [tryParseFunction_ident api.2, tryParseFunction_ident h.name.2]
      exact ⟨_, rfl⟩

theorem Token.inBases_apart {k : Token} (base : k.inBases) :
    (k ≠ .lParen ∧ k ≠ .semi ∧ k ≠ .lBrace ∧ k ≠ .rBrace) := by
  cases k <;> simp_all [inBases, isPlain]

theorem angled_free {P : Token → Prop} {ts : List Tok} (grouped : Angled P ts)
    (single : ∀ k, P k → k ≠ .semi ∧ k ≠ .lBrace) : ∀ t ∈ ts, ¬endsHeader t := by
  refine grouped.free (fun t allowed => ?_) fun t bracket => ?_
  · simp [endsHeader, single _ allowed]
  · rcases bracket with opens | closes
    · simp_all [endsHeader, opensAngle]
    · simp_all [endsHeader, closesAngle]

namespace ClassDef

variable (d : ClassDef)

theorem scanned_tail (rest : List Tok) :
    consumeClassLike (some d.name.1) (d.tail ++ (d.block.toks ++ rest)) =
      some (d.name.1, d.block.closing.1.stop) := by
  have bases : consumeClassLike (some d.name.1) (d.baseToks ++ (d.block.toks ++ rest)) =
      some (d.name.1, d.block.closing.1.stop) := by
    rw [baseToks]
    split
    · exact consumeClassLike_block d.block d.name.1 rest
    next colon ts _ =>
      have free := angled_free ts.2 fun k base =>
        ⟨(Token.inBases_apart base).2.1, (Token.inBases_apart base).2.2.1⟩
      have ends : endsHeader d.block.opening.1 := by simp [endsHeader, d.block.opening.2]
      have whole := consumeClassLike_block d.block d.name.1 rest
      rw [List.cons_append, consumeClassLike_colon colon.2]
      rw [Block.toks, List.cons_append] at whole ⊢
      rwa [dropWhile_ends free ends]
  rw [tail, List.append_assoc]
  cases d.final with
  | none => exact bases
  | some final =>
      show consumeClassLike (some d.name.1) (final.1 :: _) = _
      rwa [consumeClassLike_other (by simp [final.2])]

theorem not_function (lastIdent : Option (Tok × Nat)) (rest : List Tok) :
    tryParseFunction lastIdent (d.front ++ (d.tail ++ (d.block.toks ++ rest))) = none := by
  obtain ⟨last, same⟩ := d.toClassHead.not_function lastIdent (d.tail ++ (d.block.toks ++ rest))
  have body : ∀ last, tryParseFunction last (d.block.toks ++ rest) = none := fun last =>
    tryParseFunction_stop (.inr (.inl d.block.opening.2)) last
  have bases : ∀ last, tryParseFunction last (d.baseToks ++ (d.block.toks ++ rest)) = none := by
    intro last
    rw [baseToks]
    split
    · exact body last
    next colon ts _ =>
      rw [List.cons_append, tryParseFunction_other (by simp [colon.2])]
      rcases tryParseFunction_angled (fun k base => Token.inBases_apart base) ts.2 last
        (d.block.toks ++ rest) with nothing | ⟨last', same⟩
      · exact nothing
      · rw [same, body]
  rw [same, tail, List.append_assoc]
  cases d.final with
  | none => exact bases last
  | some final =>
      show tryParseFunction last (final.1 :: _) = _
      rw [tryParseFunction_other (by simp [final.2])]
      exact bases last

/-- The class is found at its keyword. -/
theorem reads_key (spelled : ∀ s ∈ d.key.token.literal, d.key.text content = s) (rest : List Tok) :
    Reads content (d.front ++ d.tail ++ d.block.toks) rest (d.name.1.text content)
      d.key.token.classKind d.block.closing.1.stop := by
  have apart := isClassKey_apart d.classKey
  refine ⟨[], d.key, (d.api.map Subtype.val).toList ++ [d.name.1] ++ d.tail ++ d.block.toks,
    ⟨d.name.1.text content, classKind (d.key.text content), signatureForBlock content d.key.start
      d.name.1.stop (classKind (d.key.text content)), d.block.closing.1.stop⟩, rfl, trivial,
    ⟨apart.1.2.2.2.1, apart.2.2.1, apart.2.2.2.2.2⟩, ?_, rfl, classKind_text d.classKey spelled, rfl⟩
  have scanned : consumeClassLike none
      ((d.api.map Subtype.val).toList ++ [d.name.1] ++ d.tail ++ d.block.toks ++ rest) =
        some (d.name.1, d.block.closing.1.stop) := by
    simp only [List.append_assoc, List.cons_append, List.nil_append]
    rw [d.toClassHead.scanned, d.scanned_tail]
  rw [recognise_classKey d.classKey, scanned]
  rfl

/-- The kind that a class is recorded with. -/
def foundKind : String := if templateClass d.template then "class" else d.key.token.classKind

theorem reads (spelled : ∀ t ∈ d.toks, ∀ s ∈ t.token.literal, t.text content = s)
    (rest : List Tok) :
    Reads content d.toks rest (d.name.1.text content) d.foundKind d.block.closing.1.stop := by
  have whole : d.toks = templateToks d.template ++ (d.front ++ d.tail ++ d.block.toks) ++ [d.semi.1] := by
    simp [toks, ClassHead.toks]
  have key := d.reads_key (spelled d.key (by simp [whole, ClassHead.front])) ([d.semi.1] ++ rest)
  rw [whole]
  refine Reads.extend ?_
  cases template : d.template with
  | none =>
      have kind : d.foundKind = d.key.token.classKind := by
        simp [foundKind, template, templateClass]
      rwa [kind]
  | some p =>
      have front : ∀ t ∈ p.toks, ∀ s ∈ t.token.literal, t.text content = s := fun t mem =>
        spelled t (by simp [whole, template, templateToks, mem])
      show Reads content (p.toks ++ _) _ _ _ _
      by_cases has : p.hasClass
      · have kind : d.foundKind = "class" := by simp [foundKind, template, templateClass, has]
        have scanned : ∀ name, consumeClassLike name
            (d.front ++ d.tail ++ d.block.toks ++ ([d.semi.1] ++ rest)) =
              some (d.name.1, d.block.closing.1.stop) := by
          intro name
          simp only [List.append_assoc]
          rw [d.toClassHead.scanned_front, d.scanned_tail]
        obtain ⟨found, rfl, reads⟩ := p.class_reads
          (Q := fun found => found = (d.name.1, d.block.closing.1.stop)) has front
          fun name => ⟨_, scanned name, rfl⟩
        rw [kind]
        exact reads.extend
      · have kind : d.foundKind = d.key.token.classKind := by
          simp [foundKind, template, templateClass, has]
        rw [kind]
        refine Reads.append (p.passed (fun contra => absurd contra has) fun last => ?_) key
        simpa using d.not_function last ([d.semi.1] ++ rest)

end ClassDef

theorem ForwardDecl.passed (d : ForwardDecl) (rest : List Tok) :
    Passed content d.toks rest := by
  have apart := isClassKey_apart d.classKey
  have noClass : ∀ name, consumeClassLike name (d.front ++ d.semi.1 :: rest) = none := fun name => by
    rw [d.toClassHead.scanned_front, consumeClassLike_semi d.semi.2]
  have noFunction : ∀ last, tryParseFunction last (d.front ++ d.semi.1 :: rest) = none := fun last => by
    obtain ⟨last', same⟩ := d.toClassHead.not_function last (d.semi.1 :: rest)
    rw [same, tryParseFunction_stop (.inl d.semi.2)]
  have walked : ∀ {t : Tok}, t.token = .ident → t.Walked := fun same => by
    simp [Tok.Walked, same]
  have name : Passed content [d.name.1, d.semi.1] rest := by
    refine ⟨⟨walked d.name.2, ?_⟩, ⟨?_, recognise_other ?_ ?_⟩, trivial⟩
    · show recognise content d.name.1 (d.semi.1 :: rest) = none
      rw [recognise_ident d.name.2 (by simp [d.semi.2]), tryParseFunction_ident d.name.2,
        tryParseFunction_stop (.inl d.semi.2)]
      rfl
    all_goals simp [Tok.Walked, d.semi.2, Token.isKey, Token.isClassKey]
  have api : Passed content (d.api.map Subtype.val).toList (d.name.1 :: d.semi.1 :: rest) := by
    cases d.api with
    | none => trivial
    | some a =>
        refine ⟨⟨walked a.2, ?_⟩, trivial⟩
        show recognise content a.1 (d.name.1 :: d.semi.1 :: rest) = none
        rw [recognise_ident a.2 (by simp [d.name.2]), tryParseFunction_ident a.2,
          tryParseFunction_ident d.name.2, tryParseFunction_stop (.inl d.semi.2)]
        rfl
  have head : Passed content (d.front ++ [d.semi.1]) rest := by
    have own : Passed content ((d.api.map Subtype.val).toList ++ [d.name.1, d.semi.1]) rest :=
      passed_append api name
    have whole : d.front ++ [d.semi.1] =
        d.key :: ((d.api.map Subtype.val).toList ++ [d.name.1, d.semi.1]) := by
      simp [ClassHead.front]
    rw [whole]
    refine ⟨⟨⟨apart.1.2.2.2.1, apart.2.2.1, apart.2.2.2.2.2⟩, ?_⟩, own⟩
    rw [recognise_classKey d.classKey, List.append_assoc]
    show Option.map _ (consumeClassLike none (_ ++ d.name.1 :: d.semi.1 :: rest)) = none
    rw [d.toClassHead.scanned, consumeClassLike_semi d.semi.2]
    rfl
  rw [ForwardDecl.toks, ClassHead.toks, List.append_assoc]
  refine passed_append ?_ head
  cases d.template with
  | none => trivial
  | some p =>
      refine p.passed (fun _ name => ?_) fun last => ?_
      · simpa using noClass name
      · simpa using noFunction last

namespace EnumDecl

variable (d : EnumDecl)

/-- The last token that belongs to an enum. -/
def last : Tok :=
  match d.block with
  | none => d.semi.1
  | some block => block.closing.1

theorem scanned (rest : List Tok) :
    enumName (some d.name.1) (d.underlyingToks ++ (d.blockToks ++ d.semi.1 :: rest)) =
      some (d.name.1, d.last.stop) := by
  have ended : enumName (some d.name.1) (d.blockToks ++ d.semi.1 :: rest) =
      some (d.name.1, d.last.stop) := by
    cases body : d.block with
    | none =>
        simp only [blockToks, last, body]
        rw [List.nil_append, enumName]
        simp only [d.semi.2]
        rfl
    | some block =>
        have matched := matchCloseBrace_block block (d.semi.1 :: rest)
        simp only [blockToks, last, body]
        rw [Block.toks, List.cons_append] at matched ⊢
        rw [enumName]
        simp only [block.opening.2, matched]
        rfl
  rw [underlyingToks]
  split
  · exact ended
  next colon ts _ =>
    rw [List.cons_append, enumName]
    simp only [colon.2]
    have ends : ∃ s back, d.blockToks ++ d.semi.1 :: rest = s :: back ∧ endsHeader s := by
      rw [blockToks]
      split
      · exact ⟨_, _, rfl, by simp [endsHeader, d.semi.2]⟩
      next block _ => exact ⟨_, _, rfl, by simp [endsHeader, block.opening.2]⟩
    obtain ⟨s, back, same, isEnd⟩ := ends
    rw [same] at ended ⊢
    rwa [dropWhile_ends ts.2 isEnd]

theorem scanned_name (rest : List Tok) :
    enumName none ((d.api.map Subtype.val).toList ++ d.name.1 :: rest) =
      enumName (some d.name.1) rest := by
  cases d.api with
  | none =>
      show enumName none (d.name.1 :: rest) = _
      rw [enumName]
      simp only [d.name.2]
  | some api =>
      show enumName none (api.1 :: d.name.1 :: rest) = _
      rw [enumName]
      simp only [api.2]
      rw [enumName]
      simp only [d.name.2]

theorem reads (rest : List Tok) :
    Reads content d.toks rest (d.name.1.text content) "enum" d.last.stop := by
  refine ⟨[], d.key.1, _, ⟨d.name.1.text content, "enum", signatureForBlock content d.key.1.start
    d.name.1.stop "enum", d.last.stop⟩, rfl, trivial, by simp [Tok.Walked, d.key.2], ?_, rfl, rfl, rfl⟩
  have scanned : enumName none ((d.api.map Subtype.val).toList ++
      d.name.1 :: (d.underlyingToks ++ (d.blockToks ++ d.semi.1 :: rest))) =
        some (d.name.1, d.last.stop) := by
    rw [d.scanned_name, d.scanned]
  have header : consumeEnumHeader ((d.scopeKey.map Subtype.val).toList ++
      ((d.api.map Subtype.val).toList ++
        d.name.1 :: (d.underlyingToks ++ (d.blockToks ++ d.semi.1 :: rest)))) =
          some (d.name.1, d.last.stop) := by
    cases d.scopeKey with
    | some scope =>
        show consumeEnumHeader (scope.1 :: _) = _
        rw [consumeEnumHeader, if_pos scope.2]
        exact scanned
    | none =>
        show consumeEnumHeader ((d.api.map Subtype.val).toList ++ d.name.1 :: _) = _
        cases api : d.api with
        | none =>
            rw [api] at scanned
            show consumeEnumHeader (d.name.1 :: _) = _
            rw [consumeEnumHeader, if_neg (by simp [d.name.2])]
            exact scanned
        | some a =>
            rw [api] at scanned
            show consumeEnumHeader (a.1 :: d.name.1 :: _) = _
            rw [consumeEnumHeader, if_neg (by simp [a.2])]
            exact scanned
  rw [recognise_enum d.key.2]
  simp only [List.append_assoc, List.cons_append, List.nil_append] at header ⊢
  rw [header]
  rfl

end EnumDecl

end Classes

/-! ## Functions -/

section Functions

variable {content : List Char}

/-- The kinds of types. -/
def typeKinds : List String := ["class", "struct", "union", "enum"]

theorem leading_inType {t : Tok} (leading : t.token.isPlain ∨ t.token.isKey) :
    ¬opensAngle t ∧ t.token.inType := by
  refine ⟨?_, ?_⟩
  · cases kind : t.token <;> simp_all [opensAngle, Token.isPlain, Token.isKey, Token.isClassKey]
  · rcases leading with plain | key
    · exact .inl plain
    · exact .inr (.inl key)

theorem TypeName.angled_from (ty : TypeName) (lead : List Tok)
    (leading : ∀ t ∈ lead, t.token.isPlain ∨ t.token.isKey) :
    Angled Token.inType (lead ++ ty.first.1 :: ty.more) := by
  refine .append (.of_forall fun t mem => leading_inType (leading t mem)) (.single ?_ ?_ ty.typed)
  · simp [opensAngle, ty.first.2]
  · exact .inr (.inr ty.first.2)

namespace FunctionDecl

variable (d : FunctionDecl) (rest : List Tok)

/-- The function is found from any place in its type. -/
theorem function_from {us : List Tok} (grouped : Angled Token.inType us)
    (lastIdent : Option (Tok × Nat)) :
    tryParseFunction lastIdent (us ++ d.name.1 :: (d.afterName ++ rest)) =
      some (d.name.1, d.tail.stop.stop) := by
  obtain ⟨last, same⟩ := tryParseFunction_type grouped lastIdent
    (d.name.1 :: (d.afterName ++ rest))
  rw [same, tryParseFunction_function]

/-- From any place in the type a class is found exactly if a `{` comes first. -/
theorem class_from {us : List Tok} (grouped : Angled Token.inType us) (name : Option Tok) :
    if d.braceFirst then
      (consumeClassLike name (us ++ d.name.1 :: (d.afterName ++ rest))).isSome
    else consumeClassLike name (us ++ d.name.1 :: (d.afterName ++ rest)) = none := by
  obtain ⟨name', _, same⟩ := consumeClassLike_angled
    (fun k typed => ⟨(Token.inType_apart typed).2.2.2.2.2.2, (Token.inType_apart typed).2.2.1,
      (Token.inType_apart typed).2.1⟩) grouped name (d.name.1 :: (d.afterName ++ rest))
  rw [same, consumeClassLike_ident d.name.2]
  exact consumeClassLike_function d d.name.1 rest

theorem enum_from {lead : List Tok} (leading : ∀ t ∈ lead, t.token.isPlain ∨ t.token.isKey) :
    (consumeEnumHeader (lead ++ d.type.first.1 :: (d.type.more ++
      d.name.1 :: (d.afterName ++ rest)))).isSome := by
  have named : (enumName (some d.type.first.1)
      (d.type.more ++ d.name.1 :: (d.afterName ++ rest))).isSome := by
    obtain ⟨front, s, back, whole, free, _, ends, _⟩ := d.header
    have typeFree := angled_free d.type.typed fun k typed =>
      ⟨(Token.inType_apart typed).2.1, (Token.inType_apart typed).2.2.1⟩
    have nameFree : ¬endsHeader d.name.1 := by simp [endsHeader, d.name.2]
    have all : ∀ t ∈ d.type.more ++ d.name.1 :: front, ¬endsHeader t := by
      rw [List.forall_mem_append, List.forall_mem_cons]
      exact ⟨typeFree, nameFree, free⟩
    obtain ⟨name, same⟩ := enumName_ends all ends d.type.first.1 (back ++ rest)
    have split : d.type.more ++ d.name.1 :: (d.afterName ++ rest) =
        d.type.more ++ d.name.1 :: front ++ s :: (back ++ rest) := by simp [whole]
    rw [split, same, enumName]
    by_cases isBrace : s.token = .lBrace
    · obtain ⟨found, matched⟩ := matchClose_of_balanced (whole ▸ d.evenAfter)
        (fun t mem opens => free t mem (by simp_all [opensBrace, endsHeader]))
        (by simp [opensBrace, isBrace]) rest
      simp [isBrace, matchCloseBrace, matched]
    · have isSemi : s.token = .semi := by simpa [endsHeader, isBrace] using ends
      simp [isSemi]
  have skipped : ∀ us : List Tok, (∀ t ∈ us, t.token.isPlain ∨ t.token.isKey) →
      (enumName none (us ++ d.type.first.1 :: (d.type.more ++
        d.name.1 :: (d.afterName ++ rest)))).isSome := by
    intro us all
    induction us with
    | nil =>
        rw [List.nil_append, enumName]
        simpa [d.type.first.2] using named
    | cons u us ih =>
        rw [List.forall_mem_cons] at all
        rw [List.cons_append, enumName]
        split
        next same => simp [same, Token.isPlain, Token.isKey, Token.isClassKey] at all
        next same => simp [same, Token.isPlain, Token.isKey, Token.isClassKey] at all
        next same => simp [same, Token.isPlain, Token.isKey, Token.isClassKey] at all
        next same => simp [same, Token.isPlain, Token.isKey, Token.isClassKey] at all
        · exact ih all.2
  cases lead with
  | nil =>
      rw [List.nil_append, consumeEnumHeader, if_neg (by simp [d.type.first.2])]
      exact skipped [] (by simp)
  | cons t ts =>
      rw [List.cons_append, consumeEnumHeader]
      split
      · exact skipped ts fun u mem => leading u (List.mem_cons_of_mem t mem)
      · exact skipped (t :: ts) leading

/-- What follows the template of a function. -/
def afterTemplate : List Tok := d.type.toks ++ d.name.1 :: (d.afterName ++ rest)

theorem found_after (lastIdent : Option (Tok × Nat)) :
    tryParseFunction lastIdent (d.afterTemplate rest) = some (d.name.1, d.tail.stop.stop) :=
  d.function_from rest (d.type.angled_from d.type.lead d.type.leading) lastIdent

theorem class_after (name : Option Tok) :
    if d.braceFirst then (consumeClassLike name (d.afterTemplate rest)).isSome
    else consumeClassLike name (d.afterTemplate rest) = none :=
  d.class_from rest (d.type.angled_from d.type.lead d.type.leading) name

/-- The function is found at the first identifier of its type. -/
theorem reads_first :
    Reads content [d.type.first.1] (d.type.more ++ d.name.1 :: (d.afterName ++ rest))
      (d.name.1.text content) "function" d.tail.stop.stop := by
  refine ⟨[], d.type.first.1, [], ⟨d.name.1.text content, "function", signatureForFunction content
    d.type.first.1.start d.name.1.stop, d.tail.stop.stop⟩, rfl, trivial,
    by simp [Tok.Walked, d.type.first.2], ?_, rfl, rfl, rfl⟩
  have head : (d.type.more ++ d.name.1 :: (d.afterName ++ rest)).head?.map (·.token) ≠
      some .lParen := by
    have typed := d.type.typed
    generalize d.type.more = more at typed
    cases typed with
    | nil => simp [d.name.2]
    | single _ allowed _ => simpa using (Token.inType_apart allowed).1
    | group opening _ _ _ _ =>
        have isAngle := of_decide_eq_true opening
        simp [isAngle]
  rw [List.nil_append, recognise_ident d.type.first.2 head, tryParseFunction_ident d.type.first.2,
    d.function_from rest d.type.typed]
  rfl

/-- At a leading keyword that is met, or at one of the template, a type is found. -/
def Fires (t : Tok) : Prop := t.token.isClassKey ∧ d.braceFirst ∨ t.token = .kwEnum

theorem recognise_lead {front back : List Tok} {t : Tok} (whole : d.type.lead = front ++ t :: back)
    (quiet : ¬d.Fires t) :
    t.Walked ∧ recognise content t
      (back ++ d.type.first.1 :: (d.type.more ++ d.name.1 :: (d.afterName ++ rest))) = none := by
  have leading := d.type.leading t (by simp [whole])
  have walked : t.Walked ∧ t.token ≠ .ident := by
    cases kind : t.token <;>
      simp_all [Tok.Walked, Token.isPlain, Token.isKey, Token.isClassKey]
  refine ⟨walked.1, ?_⟩
  rw [Fires, not_or, not_and] at quiet
  by_cases key : t.token.isClassKey
  · have scanned := d.class_from rest (d.type.angled_from back fun u mem =>
      d.type.leading u (by simp [whole, mem])) none
    rw [if_neg (quiet.1 key), List.append_assoc, List.cons_append] at scanned
    rw [recognise_classKey key, scanned]
    rfl
  · exact recognise_other (by simp [Token.isKey, key, quiet.2]) walked.2

theorem fires_lead {front back : List Tok} {t : Tok} (whole : d.type.lead = front ++ t :: back)
    (fires : d.Fires t) (spelled : ∀ s ∈ t.token.literal, t.text content = s) :
    ∃ f, recognise content t
      (back ++ d.type.first.1 :: (d.type.more ++ d.name.1 :: (d.afterName ++ rest))) = some f ∧
        f.kind ∈ typeKinds := by
  have leading : ∀ u ∈ back, u.token.isPlain ∨ u.token.isKey := fun u mem =>
    d.type.leading u (by simp [whole, mem])
  rcases fires with ⟨key, brace⟩ | isEnum
  · have scanned := d.class_from rest (d.type.angled_from back leading) none
    rw [if_pos brace, List.append_assoc, List.cons_append] at scanned
    obtain ⟨found, scanned⟩ := Option.isSome_iff_exists.mp scanned
    refine ⟨_, by rw [recognise_classKey key, scanned]; rfl, ?_⟩
    show classKind (t.text content) ∈ typeKinds
    rw [classKind_text key spelled]
    cases t.token <;> decide
  · obtain ⟨found, scanned⟩ := Option.isSome_iff_exists.mp (d.enum_from rest leading)
    exact ⟨_, by rw [recognise_enum isEnum, scanned]; rfl, by simp [typeKinds]⟩

theorem toks_eq : d.toks = templateToks d.template ++ (d.type.lead ++ ([d.type.first.1] ++
    (d.type.more ++ d.name.1 :: d.afterName))) := by
  simp [toks, TypeName.toks]

/-- From an identifier of the last template parameter the function is found. -/
theorem not_passed {p : Template} (ended : p.last.ended)
    (passed : Passed content p.toks (d.afterTemplate rest)) : False := by
  obtain ⟨front, t, back, whole, isIdent, typed⟩ := p.last.exists_ident ended
  have split : p.toks = ([p.keyword.1, p.opening.1] ++ othersToks p.others ++ front) ++
      t :: (back ++ [p.closing.1]) := by
    simp [Template.toks, Template.paramToks, whole, othersToks]
  have head : (back ++ [p.closing.1] ++ d.afterTemplate rest).head?.map (·.token) ≠
      some .lParen := by
    cases back with
    | nil => simp [p.closing.2]
    | cons u us =>
        have := p.last.inParams u (by simp [whole])
        simpa using (Token.inParams_apart this).1.1
  have found : recognise content t (back ++ [p.closing.1] ++ d.afterTemplate rest) =
      some ⟨d.name.1.text content, "function", signatureForFunction content t.start d.name.1.stop,
        d.tail.stop.stop⟩ := by
    obtain ⟨last, same⟩ := tryParseFunction_type typed
      (some (t, (back ++ [p.closing.1] ++ d.afterTemplate rest).length))
      (p.closing.1 :: d.afterTemplate rest)
    rw [recognise_ident isIdent head, tryParseFunction_ident isIdent]
    rw [List.append_assoc, List.singleton_append] at same ⊢
    rw [same, tryParseFunction_other (by simp [p.closing.2]), d.found_after]
    rfl
  exact passed.not_recognised split found

/-- Where no keyword in front of it is taken for a type, the function is found. -/
theorem reads (noEnum : ¬d.enumKeyMet) (noClass : d.classKeyMet → ¬d.braceFirst) :
    Reads content d.toks rest (d.name.1.text content) "function" d.tail.stop.stop := by
  have fromLead : d.leadMet → Reads content
      (d.type.lead ++ ([d.type.first.1] ++ (d.type.more ++ d.name.1 :: d.afterName))) rest
      (d.name.1.text content) "function" d.tail.stop.stop := by
    intro met
    refine Reads.append (passed_of_forall fun front t back whole => ?_) (Reads.extend ?_)
    · have quiet : ¬d.Fires t := by
        have mem : t ∈ d.type.lead := by simp [whole]
        rintro (⟨key, brace⟩ | isEnum)
        · refine noClass ?_ brace
          simp only [classKeyMet, met, Bool.true_and, Bool.or_eq_true, List.any_eq_true]
          exact .inr ⟨t, mem, key⟩
        · refine noEnum ?_
          simp only [enumKeyMet, met, Bool.true_and, List.any_eq_true]
          exact ⟨t, mem, by simpa using isEnum⟩
      simpa using d.recognise_lead rest whole quiet
    · simpa using d.reads_first rest
  rw [toks_eq]
  cases template : d.template with
  | none => exact fromLead (by simp [leadMet, template])
  | some p =>
      have classes : p.hasClass → ∀ name, consumeClassLike name (d.afterTemplate rest) = none := by
        intro has name
        have scanned := d.class_after rest name
        rwa [if_neg (noClass (by simp [classKeyMet, template, templateClass, has]))] at scanned
      have after : d.afterTemplate rest = d.type.lead ++ ([d.type.first.1] ++
          (d.type.more ++ d.name.1 :: d.afterName)) ++ rest := by
        simp [afterTemplate, TypeName.toks]
      show Reads content (p.toks ++ _) _ _ _ _
      have found : Passed content p.toks (d.afterTemplate rest) ∨ Reads content p.toks
          (d.afterTemplate rest) (d.name.1.text content) "function" d.tail.stop.stop :=
        p.reads classes (d.found_after rest)
      rcases found with passed | reads
      · by_cases ended : p.last.ended
        · exact absurd passed (d.not_passed rest ended)
        · rw [after] at passed
          exact Reads.append passed (fromLead (by simp [leadMet, template, ended]))
      · rw [after] at reads
        exact reads.extend

/-- Otherwise something else is. -/
theorem misread (spelled : ∀ t ∈ d.toks, ∀ s ∈ t.token.literal, t.text content = s)
    (bad : ¬(¬d.enumKeyMet ∧ (d.classKeyMet → ¬d.braceFirst))) :
    ∃ name kind stop, kind ∈ typeKinds ∧ Reads content d.toks rest name kind stop := by
  have fromLead : (∃ t ∈ d.type.lead, d.Fires t) → ∃ name kind stop, kind ∈ typeKinds ∧
      Reads content (d.type.lead ++ ([d.type.first.1] ++ (d.type.more ++
        d.name.1 :: d.afterName))) rest name kind stop := by
    rintro ⟨t, mem, fires⟩
    classical
    obtain ⟨u, first⟩ := Option.isSome_iff_exists.mp (List.find?_isSome.mpr
      ⟨t, mem, decide_eq_true fires⟩ : (d.type.lead.find? fun t => decide (d.Fires t)).isSome)
    obtain ⟨firesFirst, front, back, whole, quiet⟩ := List.find?_eq_some_iff_append.mp first
    obtain ⟨f, found, other⟩ := d.fires_lead rest whole (of_decide_eq_true firesFirst)
      (spelled u (by simp [toks_eq, whole]))
    refine ⟨f.name, f.kind, f.stop, other, ?_⟩
    rw [whole, List.append_assoc]
    refine Reads.append (passed_of_forall fun front' v back' split => ?_) (Reads.extend ?_)
    · have calm : ¬d.Fires v := by simpa using quiet v (by simp [split])
      have at_ : d.type.lead = front' ++ v :: (back' ++ u :: back) := by rw [whole, split]; simp
      simpa using d.recognise_lead rest at_ calm
    · refine ⟨[], u, back, f, rfl, trivial, ?_, by simpa using found, rfl, rfl, rfl⟩
      have leading := d.type.leading u (by simp [whole])
      cases kind : u.token <;> simp_all [Tok.Walked, Token.isPlain, Token.isKey, Token.isClassKey]
  rw [toks_eq]
  by_cases byClass : templateClass d.template ∧ d.braceFirst
  · cases template : d.template with
    | none => simp [template, templateClass] at byClass
    | some p =>
        have has : p.hasClass := by simpa [template, templateClass] using byClass.1
        have own : ∀ t ∈ p.toks, ∀ s ∈ t.token.literal, t.text content = s := fun t mem =>
          spelled t (by simp [toks_eq, template, templateToks, mem])
        have classes : ∀ name, ∃ found,
            consumeClassLike name (d.afterTemplate rest) = some found ∧ True := by
          intro name
          have scanned := d.class_after rest name
          rw [if_pos byClass.2] at scanned
          simpa using Option.isSome_iff_exists.mp scanned
        obtain ⟨found, _, reads⟩ := p.class_reads has own classes
        refine ⟨found.1.text content, "class", found.2, by decide, Reads.extend ?_⟩
        simpa [afterTemplate, TypeName.toks, templateToks] using reads
  · have met : d.leadMet ∧ ∃ t ∈ d.type.lead, d.Fires t := by
      by_cases byEnum : d.enumKeyMet
      · simp only [enumKeyMet, Bool.and_eq_true, List.any_eq_true, decide_eq_true_eq] at byEnum
        obtain ⟨met, t, mem, isEnum⟩ := byEnum
        exact ⟨met, t, mem, .inr isEnum⟩
      · have both : d.classKeyMet ∧ d.braceFirst := by simpa [byEnum] using bad
        have noParam : templateClass d.template = false := by
          simpa [both.2] using byClass
        have key := both.1
        simp only [classKeyMet, noParam, Bool.false_or, Bool.and_eq_true, List.any_eq_true] at key
        obtain ⟨met, t, mem, isKey⟩ := key
        exact ⟨met, t, mem, .inl ⟨isKey, both.2⟩⟩
    obtain ⟨name, kind, stop, other, reads⟩ := fromLead met.2
    refine ⟨name, kind, stop, other, Reads.append ?_ reads⟩
    cases template : d.template with
    | none => trivial
    | some p =>
        have open_ : ¬p.last.ended := by simpa [leadMet, template] using met.1
        have has : p.hasClass := by
          have isClass : p.last.isClass := by
            simp only [TemplateParam.ended, Bool.or_eq_true, Bool.not_eq_true', not_or] at open_
            simpa using open_.1.1
          simp [Template.hasClass, Template.params, isClass]
        refine p.passed_of_not_ended open_ fun name => ?_
        have noBrace : ¬d.braceFirst := fun brace =>
          byClass ⟨by simpa [template, templateClass] using has, brace⟩
        have scanned := d.class_after rest name
        rw [if_neg noBrace] at scanned
        simpa [afterTemplate, TypeName.toks] using scanned

end FunctionDecl

end Functions

/-! ## Whole files -/

section Files

variable {content : List Char} {toks : List Tok} {relativePath : String}

theorem modulePathFromRelative_ne_empty (relativePath : String) :
    modulePathFromRelative relativePath ≠ "" := by
  rw [modulePathFromRelative, pathStem]
  split
  next name last =>
    split
    · decide
    · exact fileStem_ne_empty (ne_empty_of_mem_pathPieces (List.mem_of_getLast? last))
  · decide

/-- The module path is the module of the file and the namespaces. -/
theorem qualifiedModule_eq (namespaces : List String) (relativePath : String) :
    qualifiedModule namespaces (modulePathFromRelative relativePath) =
      "::".intercalate (modulePathFromRelative relativePath :: namespaces) := by
  have named := modulePathFromRelative_ne_empty relativePath
  rw [qualifiedModule]
  cases namespaces with
  | nil => simp
  | cons n ns => simp [named, String.intercalate_cons_cons, String.append_assoc]

/-- The path that the symbols of a scope are recorded with. -/
def Walk.path (relativePath : String) (w : Walk) : List String :=
  modulePathFromRelative relativePath :: w.namespaceStack.reverse

variable (content toks relativePath)

/-- Rounds that record what is `due`. -/
def Goes (w : Walk) (due : List Declared) (w' : Walk) : Prop :=
  Relation.ReflTransGen (Round content toks relativePath) w w' ∧
    ∃ records, w'.out = w.out ++ records ∧ records.map declared = due

/-- The scope that a walk is in stays. -/
def SameScope (w w' : Walk) : Prop :=
  w'.depth = w.depth ∧ w'.braceStack = w.braceStack ∧ w'.namespaceStack = w.namespaceStack

/-- Rounds that record something else than what is `due`. -/
def Strays (w : Walk) (due : List Declared) : Prop :=
  ∃ before d after e w', due = before ++ d :: after ∧ e ≠ d ∧ e.kind ∈ typeKinds ∧
    Goes content toks relativePath w (before ++ [e]) w'

variable {content toks relativePath}

theorem SameScope.trans {w w' w'' : Walk} (first : SameScope w w') (second : SameScope w' w'') :
    SameScope w w'' :=
  ⟨second.1.trans first.1, second.2.1.trans first.2.1, second.2.2.trans first.2.2⟩

theorem SameScope.le {w w' : Walk} (same : SameScope w w')
    (scope : w.depth ≤ w.namespaceStack.length) : w'.depth ≤ w'.namespaceStack.length := by
  rw [same.1, same.2.2]
  exact scope

theorem SameScope.path {w w' : Walk} (same : SameScope w w') (relativePath : String) :
    w'.path relativePath = w.path relativePath := by
  rw [Walk.path, Walk.path, same.2.2]

theorem Goes.trans {w w' w'' : Walk} {due due' : List Declared}
    (first : Goes content toks relativePath w due w')
    (second : Goes content toks relativePath w' due' w'') :
    Goes content toks relativePath w (due ++ due') w'' := by
  obtain ⟨reached, records, out, said⟩ := first
  obtain ⟨reached', records', out', said'⟩ := second
  refine ⟨reached.trans reached', records ++ records', ?_, ?_⟩
  · rw [out', out, List.append_assoc]
  · rw [List.map_append, said, said']

theorem Strays.after {w w' : Walk} {due due' : List Declared}
    (first : Goes content toks relativePath w due w')
    (second : Strays content toks relativePath w' due') :
    Strays content toks relativePath w (due ++ due') := by
  obtain ⟨before, d, after, e, w'', rfl, other, kind, goes⟩ := second
  refine ⟨due ++ before, d, after, e, w'', by simp, other, kind, ?_⟩
  have := first.trans goes
  rwa [← List.append_assoc] at this

theorem Strays.more {w : Walk} {due : List Declared}
    (strays : Strays content toks relativePath w due) (more : List Declared) :
    Strays content toks relativePath w (due ++ more) := by
  obtain ⟨before, d, after, e, w', rfl, rest⟩ := strays
  exact ⟨before, d, after ++ more, e, w', by simp, rest⟩

theorem Passed.goes (toks : List Tok) (relativePath : String) {ts rest : List Tok} (passed : Passed content ts rest) {w : Walk}
    (scope : w.depth ≤ w.namespaceStack.length) (left : w.rest = ts ++ rest) :
    ∃ w', Goes content toks relativePath w [] w' ∧ SameScope w w' ∧ w'.rest = rest :=
  ⟨_, ⟨passed.reaches scope left, [], by simp, rfl⟩, ⟨rfl, rfl, rfl⟩, rfl⟩

/-- The walk behind a symbol that ends with the token `c`. -/
theorem Reads.goes (relativePath : String) {ts rest before front back : List Tok} {c : Tok}
    {name kind : String} (reads : Reads content ts rest name kind c.stop) (lexed : Lexed content toks)
    (whole : toks = before ++ (front ++ c :: back)) {w : Walk}
    (scope : w.depth ≤ w.namespaceStack.length) (left : w.rest = ts ++ rest) :
    ∃ w', Goes content toks relativePath w
        [⟨name, kind, "::".intercalate (w.path relativePath)⟩] w' ∧
      SameScope w w' ∧ w'.rest = back := by
  obtain ⟨record, said, reached⟩ := reads.reaches toks relativePath scope left
  rw [whole, ← List.append_assoc] at lexed
  have behind := advancePastByte_eq lexed
  rw [List.append_assoc, ← whole] at behind
  refine ⟨_, ⟨reached, [record], rfl, ?_⟩, ⟨rfl, rfl, rfl⟩, behind⟩
  rw [List.map_singleton, said, qualifiedModule_eq]
  rfl

theorem semi_passed (semi : Sym .semi) (rest : List Tok) : Passed content [semi.1] rest := by
  refine ⟨⟨?_, recognise_other ?_ ?_⟩, trivial⟩ <;>
    simp [Tok.Walked, semi.2, Token.isKey, Token.isClassKey]

section Each

variable (relativePath) (lexed : Lexed content toks) {before rest : List Tok} {w : Walk}
  (scope : w.depth ≤ w.namespaceStack.length)

include lexed scope

theorem ClassDef.goes (d : ClassDef) (whole : toks = before ++ (d.toks ++ rest))
    (left : w.rest = d.toks ++ rest) :
    ∃ w', Goes content toks relativePath w
        [⟨d.name.1.text content, d.foundKind, "::".intercalate (w.path relativePath)⟩] w' ∧
      SameScope w w' ∧ w'.rest = rest := by
  have spelled : ∀ t ∈ d.toks, ∀ s ∈ t.token.literal, t.text content = s := fun t mem =>
    lexed.spelled t (by simp [whole, mem])
  have split : d.toks ++ rest = (d.toClassHead.toks ++ d.tail ++ d.block.opening.1 ::
      d.block.body) ++ d.block.closing.1 :: ([d.semi.1] ++ rest) := by
    simp [ClassDef.toks, Block.toks]
  obtain ⟨w₁, goes, same, left₁⟩ :=
    (d.reads spelled rest).goes relativePath lexed (split ▸ whole) scope left
  obtain ⟨w₂, goes', same', left₂⟩ :=
    (semi_passed d.semi rest).goes toks relativePath (same.le scope) left₁
  refine ⟨w₂, ?_, same.trans same', left₂⟩
  simpa using goes.trans goes'

theorem EnumDecl.goes (d : EnumDecl) (whole : toks = before ++ (d.toks ++ rest))
    (left : w.rest = d.toks ++ rest) :
    ∃ w', Goes content toks relativePath w
        [⟨d.name.1.text content, "enum", "::".intercalate (w.path relativePath)⟩] w' ∧
      SameScope w w' ∧ w'.rest = rest := by
  cases body : d.block with
  | none =>
      have split : d.toks ++ rest = (d.key.1 :: ((d.scopeKey.map Subtype.val).toList ++
          (d.api.map Subtype.val).toList ++ d.name.1 :: d.underlyingToks)) ++ d.last :: rest := by
        simp [EnumDecl.toks, EnumDecl.blockToks, EnumDecl.last, body]
      exact (d.reads rest).goes relativePath lexed (split ▸ whole) scope left
  | some block =>
      have split : d.toks ++ rest = (d.key.1 :: ((d.scopeKey.map Subtype.val).toList ++
          (d.api.map Subtype.val).toList ++ d.name.1 :: (d.underlyingToks ++
            block.opening.1 :: block.body))) ++ d.last :: ([d.semi.1] ++ rest) := by
        simp [EnumDecl.toks, EnumDecl.blockToks, EnumDecl.last, body, Block.toks]
      obtain ⟨w₁, goes, same, left₁⟩ :=
        (d.reads rest).goes relativePath lexed (split ▸ whole) scope left
      obtain ⟨w₂, goes', same', left₂⟩ :=
        (semi_passed d.semi rest).goes toks relativePath (same.le scope) left₁
      refine ⟨w₂, ?_, same.trans same', left₂⟩
      simpa using goes.trans goes'

theorem FunctionDecl.goes (d : FunctionDecl)
    (plain : ¬d.enumKeyMet ∧ (d.classKeyMet → ¬d.braceFirst))
    (whole : toks = before ++ (d.toks ++ rest)) (left : w.rest = d.toks ++ rest) :
    ∃ w', Goes content toks relativePath w
        [⟨d.name.1.text content, "function", "::".intercalate (w.path relativePath)⟩] w' ∧
      SameScope w w' ∧ w'.rest = rest := by
  have split : ∃ front, d.toks ++ rest = front ++ d.tail.stop :: rest := by
    cases tail : d.tail with
    | body block =>
        exact ⟨templateToks d.template ++ d.type.toks ++ d.name.1 :: d.opening.1 :: (d.params ++
          d.closing.1 :: d.quals ++ block.opening.1 :: block.body), by
          simp [FunctionDecl.toks, FunctionDecl.afterName, FunctionTail.toks, FunctionTail.stop,
            Block.toks, tail]⟩
    | declared semi =>
        exact ⟨templateToks d.template ++ d.type.toks ++ d.name.1 :: d.opening.1 :: (d.params ++
          d.closing.1 :: d.quals), by
          simp [FunctionDecl.toks, FunctionDecl.afterName, FunctionTail.toks, FunctionTail.stop,
            tail]⟩
  obtain ⟨front, split⟩ := split
  exact (d.reads rest plain.1 plain.2).goes relativePath lexed (split ▸ whole) scope left

theorem FunctionDecl.strays (d : FunctionDecl)
    (bad : ¬(¬d.enumKeyMet ∧ (d.classKeyMet → ¬d.braceFirst)))
    (whole : toks = before ++ (d.toks ++ rest)) (left : w.rest = d.toks ++ rest) (path : String) :
    Strays content toks relativePath w [⟨d.name.1.text content, "function", path⟩] := by
  have spelled : ∀ t ∈ d.toks, ∀ s ∈ t.token.literal, t.text content = s := fun t mem =>
    lexed.spelled t (by simp [whole, mem])
  obtain ⟨name, kind, stop, known, reads⟩ := d.misread rest spelled bad
  obtain ⟨record, said, reached⟩ := reads.reaches toks relativePath scope left
  refine ⟨[], _, [], declared record, _, rfl, ?_, by rw [said]; exact known, reached, [record],
    rfl, rfl⟩
  rw [said]
  intro same
  have isFunction : kind = "function" := (Declared.mk.inj same).2.1
  rw [isFunction] at known
  exact absurd known (by decide)

end Each

/-- What the walk makes of declarations: what is due if they are `plain`, else something else. -/
def Outcome (content : List Char) (toks : List Tok) (relativePath : String) (w : Walk)
    (due : List Declared) (rest : List Tok) (plain : Prop) : Prop :=
  (plain → ∃ w', Goes content toks relativePath w due w' ∧ SameScope w w' ∧ w'.rest = rest) ∧
    (¬plain → Strays content toks relativePath w due)

theorem Outcome.after {w w' : Walk} {due due' : List Declared} {rest : List Tok} {plain : Prop}
    (second : Outcome content toks relativePath w' due' rest plain)
    (first : Goes content toks relativePath w due w') (same : SameScope w w') :
    Outcome content toks relativePath w (due ++ due') rest plain := by
  refine ⟨fun isPlain => ?_, fun bad => Strays.after first (second.2 bad)⟩
  obtain ⟨w'', goes, same', left⟩ := second.1 isPlain
  exact ⟨w'', first.trans goes, same.trans same', left⟩

theorem Outcome.and_of {w : Walk} {due : List Declared} {rest : List Tok} {good plain : Prop}
    (holds : good) (second : Outcome content toks relativePath w due rest plain) :
    Outcome content toks relativePath w due rest (good ∧ plain) :=
  ⟨fun both => second.1 both.2, fun bad => second.2 fun isPlain => bad ⟨holds, isPlain⟩⟩

theorem Outcome.of_strays {w : Walk} {due : List Declared} {rest : List Tok} {good plain : Prop}
    (fails : ¬good) (strays : Strays content toks relativePath w due) :
    Outcome content toks relativePath w due rest (good ∧ plain) :=
  ⟨fun both => absurd both.1 fails, fun _ => strays⟩

theorem Token.eq_kwClass {k : Token} (key : k.isClassKey) (kind : k.classKind = "class") :
    k = .kwClass := by
  cases k <;> simp_all [isClassKey, classKind]

/-- The walk inside a namespace that it came to. -/
def Walk.inside (w : Walk) (name : String) (rest : List Tok) : Walk where
  rest := rest
  depth := w.depth + 1
  braceStack := .namespaceBrace :: w.braceStack
  namespaceStack := name :: w.namespaceStack
  out := w.out

theorem Walk.inside_path (w : Walk) (name : String) (rest : List Tok) :
    (w.inside name rest).path relativePath = w.path relativePath ++ [name] := by
  simp [Walk.path, Walk.inside]

theorem enters {w : Walk} {keyword : Sym .kwNamespace} {name : Sym .ident} {opening : Sym .lBrace}
    {rest : List Tok} (scope : w.depth ≤ w.namespaceStack.length)
    (left : w.rest = [keyword.1, name.1, opening.1] ++ rest) :
    Goes content toks relativePath w [] (w.inside (name.1.text content) rest) := by
  refine ⟨.single ⟨keyword.1, name.1 :: opening.1 :: rest, left, ?_⟩, [], by simp [Walk.inside], rfl⟩
  have header : consumeNamespaceHeader none (name.1 :: opening.1 :: rest) =
      some (name.1, opening.1 :: rest) := by
    simp [consumeNamespaceHeader, name.2, opening.2]
  rw [Walk.next, if_neg (by simp [keyword.2]), if_neg (by simp [keyword.2]), if_neg (by omega),
    if_pos keyword.2, header]
  simp [Walk.enter, Walk.inside, opening.2]

/-- At the end of a namespace the walk is back in the scope around it. -/
theorem leaves {w w' : Walk} {name : String} {before rest : List Tok} {closing : Sym .rBrace}
    (same : SameScope (w.inside name before) w') (left : w'.rest = closing.1 :: rest) :
    ∃ w'', Goes content toks relativePath w' [] w'' ∧ SameScope w w'' ∧ w''.rest = rest := by
  obtain ⟨depth, braces, namespaces⟩ := same
  have top : w'.braceStack.head? = some .namespaceBrace := by simp [braces, Walk.inside]
  refine ⟨_, ⟨.single ⟨closing.1, rest, left, rfl⟩, [], ?_, rfl⟩, ?_, ?_⟩
  all_goals rw [Walk.next, if_neg (by simp [closing.2]), if_pos closing.2, if_pos top]
  · simp
  · exact ⟨by simp [depth, Walk.inside], by simp [braces, Walk.inside],
      by simp [namespaces, Walk.inside]⟩

theorem Decls.walked (relativePath : String) (lexed : Lexed content toks) (ds : Decls)
    {before rest : List Tok} (whole : toks = before ++ (ds.toks ++ rest)) {w : Walk}
    (scope : w.depth ≤ w.namespaceStack.length) (left : w.rest = ds.toks ++ rest) :
    Outcome content toks relativePath w (ds.declares content (w.path relativePath)) rest
      ds.Plain := by
  induction ds generalizing before rest w with
  | nil =>
      refine ⟨fun _ => ⟨w, ⟨.refl, [], by simp, rfl⟩, ⟨rfl, rfl, rfl⟩, left⟩, fun bad => ?_⟩
      exact absurd trivial bad
  | classDef d ds ih =>
      rw [Decls.toks, List.append_assoc] at whole left
      obtain ⟨w₁, goes, same, left₁⟩ := d.goes relativePath lexed scope whole left
      rw [← List.append_assoc] at whole
      have behind := ih whole (same.le scope) left₁
      rw [same.path] at behind
      by_cases good : templateClass d.template → d.key.token = .kwClass
      · have kind : d.foundKind = d.key.token.classKind := by
          rw [ClassDef.foundKind]
          split
          next has => rw [good has]; rfl
          · rfl
        rw [kind] at goes
        exact .and_of good (behind.after goes same)
      · rw [Classical.not_imp] at good
        refine .of_strays (by simpa using good) ?_
        have kind : d.foundKind = "class" := by rw [ClassDef.foundKind, if_pos good.1]
        rw [kind] at goes
        refine ⟨[], _, _, _, w₁, rfl, ?_, (by decide : "class" ∈ typeKinds), goes⟩
        intro same
        exact good.2 (Token.eq_kwClass d.classKey (Declared.mk.inj same).2.1.symm)
  | forward d ds ih =>
      rw [Decls.toks, List.append_assoc] at whole left
      obtain ⟨w₁, goes, same, left₁⟩ :=
        (d.passed (ds.toks ++ rest)).goes toks relativePath scope left
      rw [← List.append_assoc] at whole
      have behind := ih whole (same.le scope) left₁
      rw [same.path] at behind
      exact behind.after goes same
  | enumDecl d ds ih =>
      rw [Decls.toks, List.append_assoc] at whole left
      obtain ⟨w₁, goes, same, left₁⟩ := d.goes relativePath lexed scope whole left
      rw [← List.append_assoc] at whole
      have behind := ih whole (same.le scope) left₁
      rw [same.path] at behind
      exact behind.after goes same
  | function d ds ih =>
      rw [Decls.toks, List.append_assoc] at whole left
      by_cases good : ¬d.enumKeyMet ∧ (d.classKeyMet → ¬d.braceFirst)
      · obtain ⟨w₁, goes, same, left₁⟩ := d.goes relativePath lexed scope good whole left
        rw [← List.append_assoc] at whole
        have behind := ih whole (same.le scope) left₁
        rw [same.path] at behind
        exact .and_of good (behind.after goes same)
      · have strays := d.strays relativePath lexed scope good whole left
          ("::".intercalate (w.path relativePath))
        exact .of_strays good (strays.more _)
  | nested keyword name opening inner closing ds ihInner ih =>
      have split : (Decls.nested keyword name opening inner closing ds).toks ++ rest =
          [keyword.1, name.1, opening.1] ++ (inner.toks ++ closing.1 :: (ds.toks ++ rest)) := by
        simp [Decls.toks]
      rw [split] at whole left
      obtain ⟨v, atInner⟩ : ∃ v, v = w.inside (name.1.text content)
        (inner.toks ++ closing.1 :: (ds.toks ++ rest)) := ⟨_, rfl⟩
      have entered : Goes content toks relativePath w [] v := atInner ▸ enters scope left
      have deeper : v.depth ≤ v.namespaceStack.length := by
        rw [atInner]
        exact Nat.succ_le_succ scope
      have within := ihInner (whole.trans (List.append_assoc _ _ _).symm) deeper (by rw [atInner]; rfl)
      rw [atInner, Walk.inside_path, ← atInner] at within
      by_cases good : inner.Plain
      · obtain ⟨w₁, goes, same₁, left₁⟩ := within.1 good
        obtain ⟨w₂, left_, same, left₂⟩ := leaves (atInner ▸ same₁) left₁
        have split' : before ++ ([keyword.1, name.1, opening.1] ++
            (inner.toks ++ closing.1 :: (ds.toks ++ rest))) =
              (before ++ [keyword.1, name.1, opening.1] ++ inner.toks ++ [closing.1]) ++
                (ds.toks ++ rest) := by simp
        have behind := ih (whole.trans split') (same.le scope) left₂
        rw [same.path] at behind
        have around := (entered.trans goes).trans left_
        rw [List.nil_append, List.append_nil] at around
        exact .and_of good (behind.after around same)
      · exact .of_strays good ((Strays.after entered (within.2 good)).more _)

end Files

/-! ## The contract -/

section Contract

/-- A file, with the tree of its declarations. -/
structure TranslationUnit where
  content : List Char
  decls : Decls
  lexed : Lexed content decls.toks

def TranslationUnit.toks (u : TranslationUnit) : List Tok := u.decls.toks

/-- The records of classes, enums and functions are exactly those that the file declares. -/
def Exact (u : TranslationUnit) (relativePath : String) (symbols : List SymbolRecord) : Prop :=
  (symbols.filter fun r => r.kind ≠ "macro").map declared =
    u.decls.declares u.content [modulePathFromRelative relativePath]

theorem Decls.declares_kind (ds : Decls) (content : List Char) (path : List String) :
    ∀ d ∈ ds.declares content path, d.kind ≠ "macro" := by
  induction ds generalizing path with
  | nil => simp [Decls.declares]
  | classDef d ds ih =>
      refine List.forall_mem_cons.mpr ⟨?_, ih path⟩
      show d.key.token.classKind ≠ "macro"
      cases d.key.token <;> decide
  | forward d ds ih => exact ih path
  | enumDecl d ds ih => exact List.forall_mem_cons.mpr ⟨by simp, ih path⟩
  | function d ds ih => exact List.forall_mem_cons.mpr ⟨by simp, ih path⟩
  | nested _ name _ inner _ ds ihInner ih =>
      exact List.forall_mem_append.mpr ⟨ihInner _, ih path⟩

theorem filter_records {records : List SymbolRecord} {due : List Declared}
    (said : records.map declared = due) (kinds : ∀ d ∈ due, d.kind ≠ "macro") :
    (records.filter fun r => r.kind ≠ "macro") = records := by
  refine List.filter_eq_self.mpr fun r mem => decide_eq_true ?_
  exact kinds (declared r) (said ▸ List.mem_map_of_mem mem)

/-- **What is recorded.**  The walk over a file of these declarations ends, and it records exactly
the classes, enums and functions that are declared, in order and each with its name, kind and
path, if and only if the declarations are `Plain`: no template parameter that `class` introduces
stands in front of a struct or a union, where a `class`, `struct` or `union` is met in front of a
function a `;` comes before any `{`, and no `enum` is met there. -/
theorem extract_exact_iff (u : TranslationUnit) (relativePath : String) :
    (∃ symbols, extractCppFallbackSymbols u.content u.toks relativePath = some symbols ∧
      Exact u relativePath symbols) ↔ u.decls.Plain := by
  have whole : u.toks = [] ++ (u.decls.toks ++ []) := by simp [TranslationUnit.toks]
  have walked : Outcome u.content u.toks relativePath (Walk.start u.toks)
      (u.decls.declares u.content [modulePathFromRelative relativePath]) [] u.decls.Plain :=
    u.decls.walked relativePath u.lexed whole (Nat.le_refl 0) whole
  have answered : ∀ {w}, Relation.ReflTransGen (Round u.content u.toks relativePath)
      (Walk.start u.toks) w → w.rest <:+ u.toks ∧
        extractCppFallbackSymbols u.content u.toks relativePath =
          w.answer u.content u.toks relativePath :=
    fun reached => answer_reaches u.lexed List.suffix_rfl reached
  have kinds := u.decls.declares_kind u.content [modulePathFromRelative relativePath]
  constructor
  · rintro ⟨symbols, extracted, exact_⟩
    by_contra bad
    obtain ⟨before, d, after, e, w, due, other, known, reached, records, out, said⟩ :=
      walked.2 bad
    obtain ⟨inside, same⟩ := answered reached
    obtain ⟨all, answer, more, rfl⟩ := answer_total relativePath u.lexed inside
    obtain rfl := Option.some.inj (extracted.symm.trans (same.trans answer))
    have recorded : w.out.map declared = before ++ [e] := by
      rw [out, ← said]
      rfl
    have kept : (w.out.filter fun r => r.kind ≠ "macro") = w.out := by
      refine filter_records recorded fun r mem => ?_
      rcases List.mem_append.mp mem with front | last
      · exact kinds r (by rw [due]; exact List.mem_append_left _ front)
      · rw [List.mem_singleton.mp last]
        intro isMacro
        rw [isMacro] at known
        exact absurd known (by decide)
    rw [Exact, List.filter_append, kept, List.map_append, recorded, due, List.append_assoc] at exact_
    exact other (List.cons.inj (List.append_cancel_left exact_)).1
  · intro plain
    obtain ⟨w, ⟨reached, records, out, said⟩, _, left⟩ := walked.1 plain
    obtain ⟨_, same⟩ := answered reached
    have recorded : w.out.map declared =
        u.decls.declares u.content [modulePathFromRelative relativePath] := by
      rw [out, ← said]
      rfl
    refine ⟨w.out, same.trans (walk_done left _), ?_⟩
    rw [Exact, filter_records recorded kinds, recorded]

/-- `template<class T> struct Foo {};` -/
def structTemplate : TranslationUnit where
  content := "template<class T> struct Foo \x7b\x7d;".toList
  decls := .classDef
    { template := some
        { keyword := ⟨⟨.kwTemplate, 0, 8⟩, rfl⟩, opening := ⟨⟨.lAngle, 8, 9⟩, rfl⟩, others := []
          last := ⟨⟨.kwClass, 9, 14⟩, .inl rfl, [], some ⟨⟨.ident, 15, 16⟩, rfl⟩, none⟩
          closing := ⟨⟨.rAngle, 16, 17⟩, rfl⟩ }
      key := ⟨.kwStruct, 18, 24⟩, classKey := rfl, api := none, name := ⟨⟨.ident, 25, 28⟩, rfl⟩
      final := none, bases := none
      block := ⟨⟨⟨.lBrace, 29, 30⟩, rfl⟩, [], ⟨⟨.rBrace, 30, 31⟩, rfl⟩, rfl⟩
      semi := ⟨⟨.semi, 31, 32⟩, rfl⟩ } .nil
  lexed := ⟨by decide, by decide, by decide⟩

/-- The struct is recorded as a class. -/
theorem structTemplate_class :
    (extractCppFallbackSymbols structTemplate.content structTemplate.toks "foo.h").map
        (List.map declared) = some [⟨"Foo", "class", "foo"⟩] ∧
      structTemplate.decls.declares structTemplate.content [modulePathFromRelative "foo.h"] =
        [⟨"Foo", "struct", "foo"⟩] ∧
      ¬∃ symbols, extractCppFallbackSymbols structTemplate.content structTemplate.toks "foo.h" =
        some symbols ∧ Exact structTemplate "foo.h" symbols := by
  have recorded : (extractCppFallbackSymbols structTemplate.content structTemplate.toks
      "foo.h").map (List.map declared) = some [⟨"Foo", "class", "foo"⟩] := by
    decide +kernel
  have due : structTemplate.decls.declares structTemplate.content
      [modulePathFromRelative "foo.h"] = [⟨"Foo", "struct", "foo"⟩] := by
    decide
  refine ⟨recorded, due, ?_⟩
  rintro ⟨symbols, extracted, exact_⟩
  rw [extracted] at recorded
  have only : symbols.map declared = [⟨"Foo", "class", "foo"⟩] := Option.some.inj recorded
  rw [Exact, filter_records only (by simp), only, due] at exact_
  exact absurd exact_ (by decide)

end Contract

end Ministr.Code
