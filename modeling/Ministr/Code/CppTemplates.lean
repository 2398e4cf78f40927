/-
# Code.CppTemplates — what the walk sees of a template

At a token of a scope the walk either passes on or records a symbol.  `Passed` and `Reads` say so
for a piece of a declaration, with the tokens that follow it in place, so that pieces compose.

Nothing in a `template<...>` is recognised by itself.  But an identifier of it may lead a function
scanner to the function behind (`Template.reads`), and a parameter that `class` introduces leads a
class scanner to the next `{` (`Template.class_reads`).
-/
import Ministr.Code.CppScan

namespace Ministr.Code

open Ministr.Theory Ministr.Content Ministr.Ingestion

set_option autoImplicit false

/-! ## Tokens that the walk passes -/

section Passing

variable {content : List Char}

/-- Tokens at which the depth and the namespaces stay. -/
def Tok.Walked (t : Tok) : Prop :=
  t.token ≠ .lBrace ∧ t.token ≠ .rBrace ∧ t.token ≠ .kwNamespace

/-- Nothing is recognised at a token of `ts`, in front of `rest`. -/
def Passed (content : List Char) : List Tok → List Tok → Prop
  | [], _ => True
  | t :: ts, rest =>
    (t.Walked ∧ recognise content t (ts ++ rest) = none) ∧ Passed content ts rest

/-- The first symbol that is recognised at a token of `ts`. -/
def Reads (content : List Char) (ts rest : List Tok) (name kind : String) (stop : Nat) : Prop :=
  ∃ front t back f, ts = front ++ t :: back ∧ Passed content front (t :: back ++ rest) ∧
    t.Walked ∧ recognise content t (back ++ rest) = some f ∧ f.name = name ∧ f.kind = kind ∧
    f.stop = stop

theorem passed_append {ts us rest : List Tok} (first : Passed content ts (us ++ rest))
    (second : Passed content us rest) : Passed content (ts ++ us) rest := by
  induction ts with
  | nil => exact second
  | cons t ts ih =>
      rw [List.cons_append, Passed, List.append_assoc]
      exact ⟨first.1, ih first.2⟩

theorem passed_of_forall {ts rest : List Tok}
    (all : ∀ front t back, ts = front ++ t :: back →
      t.Walked ∧ recognise content t (back ++ rest) = none) :
    Passed content ts rest := by
  induction ts with
  | nil => trivial
  | cons t ts ih =>
      exact ⟨all [] t ts rfl, ih fun front u back whole => all (t :: front) u back (by rw [whole]; rfl)⟩

/-- If nothing else than the one symbol is recognised at any token, then it is, or nothing. -/
theorem passed_or_reads {ts rest : List Tok} {name kind : String} {stop : Nat}
    (all : ∀ front t back, ts = front ++ t :: back →
      t.Walked ∧ (recognise content t (back ++ rest) = none ∨
        ∃ f, recognise content t (back ++ rest) = some f ∧ f.name = name ∧ f.kind = kind ∧
          f.stop = stop)) :
    Passed content ts rest ∨ Reads content ts rest name kind stop := by
  induction ts with
  | nil => exact .inl trivial
  | cons t ts ih =>
      obtain ⟨walked, nothing | ⟨f, found, said⟩⟩ := all [] t ts rfl
      · rcases ih fun front u back whole => all (t :: front) u back (by rw [whole]; rfl) with
          passed | ⟨front, u, back, f, rfl, passed, said⟩
        · exact .inl ⟨⟨walked, nothing⟩, passed⟩
        · refine .inr ⟨t :: front, u, back, f, rfl, ⟨⟨walked, ?_⟩, passed⟩, said⟩
          simpa using nothing
      · exact .inr ⟨[], t, ts, f, rfl, trivial, walked, found, said⟩

theorem Reads.append {ts us rest : List Tok} {name kind : String} {stop : Nat}
    (first : Passed content ts (us ++ rest)) (second : Reads content us rest name kind stop) :
    Reads content (ts ++ us) rest name kind stop := by
  obtain ⟨front, t, back, f, rfl, passed, said⟩ := second
  refine ⟨ts ++ front, t, back, f, by simp, passed_append ?_ passed, said⟩
  simpa using first

theorem Reads.extend {ts us rest : List Tok} {name kind : String} {stop : Nat}
    (reads : Reads content ts (us ++ rest) name kind stop) :
    Reads content (ts ++ us) rest name kind stop := by
  obtain ⟨front, t, back, f, rfl, passed, said⟩ := reads
  refine ⟨front, t, back ++ us, f, by simp, ?_, ?_⟩
  · simpa using passed
  · simpa using said

theorem Passed.not_recognised {ts rest front back : List Tok} {t : Tok} {f : Found}
    (passed : Passed content ts rest) (whole : ts = front ++ t :: back)
    (found : recognise content t (back ++ rest) = some f) : False := by
  induction ts generalizing front with
  | nil => simp at whole
  | cons u us ih =>
      cases front with
      | nil =>
          obtain ⟨rfl, rfl⟩ := List.cons.inj whole
          exact absurd (passed.1.2.symm.trans found) (by simp)
      | cons v front => exact ih passed.2 (List.cons.inj whole).2

/-! ## The walk, over such tokens -/

variable {toks : List Tok} {relativePath : String}

theorem Passed.reaches {ts rest : List Tok} (passed : Passed content ts rest) {w : Walk}
    (scope : w.depth ≤ w.namespaceStack.length) (left : w.rest = ts ++ rest) :
    Relation.ReflTransGen (Round content toks relativePath) w { w with rest := rest } := by
  induction ts generalizing w with
  | nil =>
      obtain rfl : w.rest = rest := left
      exact .refl
  | cons t ts ih =>
      obtain ⟨⟨⟨brace, close, nested⟩, nothing⟩, others⟩ := passed
      refine .head (b := { w with rest := ts ++ rest }) ⟨t, ts ++ rest, left, ?_⟩
        (ih others (w := { w with rest := ts ++ rest }) scope rfl)
      rw [Walk.next, if_neg brace, if_neg close, if_neg (by omega), if_neg nested, nothing]

theorem Reads.reaches (toks : List Tok) (relativePath : String) {ts rest : List Tok} {name kind : String} {stop : Nat}
    (reads : Reads content ts rest name kind stop) {w : Walk}
    (scope : w.depth ≤ w.namespaceStack.length) (left : w.rest = ts ++ rest) :
    ∃ record, declared record = ⟨name, kind,
        qualifiedModule w.namespaceStack.reverse (modulePathFromRelative relativePath)⟩ ∧
      Relation.ReflTransGen (Round content toks relativePath) w
        { w with rest := advancePastByte toks stop, out := w.out ++ [record] } := by
  obtain ⟨front, t, back, f, rfl, passed, ⟨brace, close, nested⟩, found, rfl, rfl, rfl⟩ := reads
  refine ⟨w.record content relativePath t f, rfl, ?_⟩
  refine (passed.reaches scope (by simpa using left)).tail ⟨t, back ++ rest, rfl, ?_⟩
  rw [Walk.next, if_neg brace, if_neg close, if_neg (by simpa using scope), if_neg nested, found]
  rfl

end Passing

/-! ## What is recognised at a token -/

section Recognising

variable {content : List Char} {t : Tok} {ts rest : List Tok}

theorem recognise_other (noKey : ¬t.token.isKey) (noIdent : t.token ≠ .ident) :
    recognise content t ts = none := by
  rw [recognise]
  split <;> simp_all [Token.isKey, Token.isClassKey]

theorem recognise_classKey (key : t.token.isClassKey) :
    recognise content t ts = (consumeClassLike none ts).map fun found =>
      ⟨found.1.text content, classKind (t.text content),
        signatureForBlock content t.start found.1.stop (classKind (t.text content)), found.2⟩ := by
  rw [recognise]
  split <;> first | rfl | simp_all [Token.isClassKey]

theorem recognise_enum (key : t.token = .kwEnum) :
    recognise content t ts = (consumeEnumHeader ts).map fun found =>
      ⟨found.1.text content, "enum",
        signatureForBlock content t.start found.1.stop "enum", found.2⟩ := by
  rw [recognise]
  split <;> first | rfl | simp_all

theorem recognise_ident (isIdent : t.token = .ident) (noCall : ts.head?.map (·.token) ≠ some .lParen) :
    recognise content t ts = (tryParseFunction none (t :: ts)).map fun found =>
      ⟨found.1.text content, "function", signatureForFunction content t.start found.1.stop,
        found.2⟩ := by
  have noMacro : (if t.text content ∈ ueMacros then consumeMacroCall ts else none) = none := by
    split
    · rw [consumeMacroCall, if_neg noCall]
    · rfl
  rw [recognise]
  simp only [isIdent, noMacro]

theorem classKind_text (key : t.token.isClassKey)
    (spelled : ∀ s ∈ t.token.literal, t.text content = s) :
    classKind (t.text content) = t.token.classKind := by
  cases kind : t.token <;> simp_all [Token.isClassKey, Token.literal, Token.classKind, classKind]

end Recognising

/-! ## Template parameters -/

section Params

variable {content : List Char} {ts : List Tok}

/-- Tokens between the angle brackets of a `template`. -/
def Token.inParams (k : Token) : Prop := k = .kwClass ∨ k.inDefault

theorem Token.inParams_apart {k : Token} (param : k.inParams) :
    (k ≠ .lParen ∧ k ≠ .semi ∧ k ≠ .lBrace ∧ k ≠ .rBrace) ∧ k ≠ .colon ∧ k ≠ .kwNamespace ∧
      (k.isKey → k = .kwClass) := by
  cases k <;> simp_all [inParams, inDefault, isPlain, isKey, isClassKey]

theorem angled_params {P : Token → Prop} (grouped : Angled P ts)
    (all : ∀ t ∈ ts, t.token.inParams) : Angled Token.inParams ts := by
  refine grouped_of_settles endsHeader_apart grouped.settles fun t mem => ⟨?_, fun _ => all t mem⟩
  obtain ⟨⟨_, semi, brace, _⟩, _⟩ := Token.inParams_apart (all t mem)
  simp [endsHeader, semi, brace]

theorem angled_suffix {front back : List Tok} (grouped : Angled Token.inParams (front ++ back))
    (all : ∀ t ∈ front ++ back, t.token.inParams) : Angled Token.inParams back := by
  refine grouped.suffix endsHeader_apart fun t mem => ⟨?_, fun _ => all t mem⟩
  obtain ⟨⟨_, semi, brace, _⟩, _⟩ := Token.inParams_apart (all t mem)
  simp [endsHeader, semi, brace]

namespace TemplateParam

variable (p : TemplateParam)

theorem kinds : ∀ t ∈ p.toks, t = p.intro ∨ t.token.inDefault := by
  intro t mem
  rw [toks, List.mem_cons, List.mem_append, List.mem_append] at mem
  rcases mem with same | (dot | named) | default
  · exact .inl same
  · obtain ⟨d, _, rfl⟩ := List.mem_map.mp dot
    exact .inr (.inl (by rw [d.2]; rfl))
  · obtain ⟨n, _, rfl⟩ := Option.map_eq_some_iff.mp (Option.mem_toList.mp named)
    exact .inr (.inr (.inl n.2))
  · refine .inr ?_
    rw [defaultToks] at default
    split at default
    · simp at default
    next eq ty _ =>
      rcases List.mem_cons.mp default with rfl | inType
      · exact .inr (.inr (.inr (.inr (.inr eq.2))))
      · exact ty.2 t inType

theorem inParams : ∀ t ∈ p.toks, t.token.inParams := by
  intro t mem
  rcases p.kinds t mem with rfl | default
  · rcases p.introduces with isClass | isIdent
    · exact .inl isClass
    · exact .inr (.inr (.inl isIdent))
  · exact .inr default

theorem angled_default : Angled (fun _ => True) p.defaultToks := by
  rw [defaultToks]
  split
  · exact .nil
  next eq ty _ =>
    have lead : Angled (fun _ => True) ty.1.lead := .of_forall fun t mem => by
      refine ⟨?_, trivial⟩
      rcases ty.1.leading t mem with plain | key
      · cases kind : t.token <;> simp_all [opensAngle, Token.isPlain]
      · cases kind : t.token <;> simp_all [opensAngle, Token.isKey, Token.isClassKey]
    have first : ¬opensAngle ty.1.first.1 := by simp [opensAngle, ty.1.first.2]
    exact .single (by simp [opensAngle, eq.2]) trivial
      (lead.append (.single first trivial (ty.1.typed.imp fun _ _ => trivial)))

theorem angled : Angled Token.inParams p.toks := by
  refine angled_params (P := fun _ => True) ?_ p.inParams
  have intro_ : ¬opensAngle p.intro := by
    rcases p.introduces with same | same <;> simp [opensAngle, same]
  refine .single intro_ trivial (.append (.append ?_ ?_) p.angled_default)
  · exact .of_forall fun t mem => by
      obtain ⟨d, _, rfl⟩ := List.mem_map.mp mem
      exact ⟨by simp [opensAngle, d.2], trivial⟩
  · exact .of_forall fun t mem => by
      obtain ⟨n, _, rfl⟩ := Option.map_eq_some_iff.mp (Option.mem_toList.mp mem)
      exact ⟨by simp [opensAngle, n.2], trivial⟩

/-- A parameter that is `ended` has an identifier behind which no scanner gives up. -/
theorem exists_ident (ended : p.ended) :
    ∃ front t back, p.toks = front ++ t :: back ∧ t.token = .ident ∧ Angled Token.inType back := by
  cases default : p.default with
  | some d =>
      obtain ⟨eq, ty⟩ := d
      refine ⟨p.intro :: (p.dots.map Subtype.val ++ (p.name.map Subtype.val).toList ++
        eq.1 :: ty.1.lead), ty.1.first.1, ty.1.more, ?_, ty.1.first.2, ty.1.typed⟩
      simp [toks, defaultToks, default, TypeName.toks]
  | none =>
      cases name : p.name with
      | some n =>
          refine ⟨p.intro :: p.dots.map Subtype.val, n.1, [], ?_, n.2, .nil⟩
          simp [toks, defaultToks, default, name]
      | none =>
          have isIdent : p.intro.token = .ident := by
            rcases p.introduces with isClass | isIdent
            · simp [TemplateParam.ended, isClass, TemplateParam.isClass, name, default] at ended
            · exact isIdent
          refine ⟨[], p.intro, p.dots.map Subtype.val, ?_, isIdent, .of_forall fun t mem => ?_⟩
          · simp [toks, defaultToks, default, name]
          · obtain ⟨d, _, rfl⟩ := List.mem_map.mp mem
            exact ⟨by simp [opensAngle, d.2], .inl (by rw [d.2]; rfl)⟩

end TemplateParam

/-- Parameters with the commas behind them. -/
def othersToks (os : List (TemplateParam × Sym .comma)) : List Tok :=
  os.flatMap fun o => o.1.toks ++ [o.2.1]

theorem others_inParams (os : List (TemplateParam × Sym .comma)) :
    ∀ t ∈ othersToks os, t.token.inParams := by
  intro t mem
  obtain ⟨o, _, inside⟩ := List.mem_flatMap.mp mem
  rcases List.mem_append.mp inside with own | comma
  · exact o.1.inParams t own
  · rw [List.mem_singleton.mp comma]
    exact .inr (.inr (.inr (.inr (.inr (.inl o.2.2)))))

theorem others_angled (os : List (TemplateParam × Sym .comma)) :
    Angled Token.inParams (othersToks os) := by
  induction os with
  | nil => exact .nil
  | cons o os ih =>
      have comma : Angled Token.inParams [o.2.1] :=
        .of_forall fun t mem => by
          rw [List.mem_singleton.mp mem]
          exact ⟨by simp [opensAngle, o.2.2], .inr (.inr (.inr (.inr (.inr (.inl o.2.2)))))⟩
      rw [othersToks, List.flatMap_cons]
      exact (o.1.angled.append comma).append ih

theorem others_getLast (os : List (TemplateParam × Sym .comma)) {c : Tok}
    (last : (othersToks os).getLast? = some c) : c.token = .comma := by
  induction os using List.reverseRecOn with
  | nil => simp [othersToks] at last
  | append_singleton os o _ =>
      rw [othersToks, List.flatMap_append, List.flatMap_singleton, ← List.append_assoc,
        List.getLast?_concat] at last
      rw [← Option.some.inj last]
      exact o.2.2

/-- In front of a comma nothing but a `class` can be recognised. -/
theorem others_passed {os : List (TemplateParam × Sym .comma)} {rest : List Tok}
    (classes : ∀ front t back, othersToks os = front ++ t :: back → t.token = .kwClass →
      consumeClassLike none (back ++ rest) = none) :
    Passed content (othersToks os) rest := by
  refine passed_of_forall fun front t back whole => ?_
  have inside := others_inParams os
  have param := inside t (by simp [whole])
  obtain ⟨⟨paren, semi, brace, close⟩, colon, nested, key⟩ := Token.inParams_apart param
  refine ⟨⟨brace, close, nested⟩, ?_⟩
  by_cases isClass : t.token = .kwClass
  · rw [recognise_classKey (by rw [isClass]; rfl), classes front t back whole isClass]
    rfl
  by_cases isIdent : t.token = .ident
  · rw [List.append_cons] at whole
    have grouped := angled_suffix (whole ▸ others_angled os) (whole ▸ inside)
    cases back with
    | nil =>
        have := others_getLast os (c := t) (by simp [whole])
        exact absurd (isIdent.symm.trans this) (by decide)
    | cons u us =>
        have commaLast : ∃ c, (u :: us).getLast? = some c ∧ c.token = .comma := by
          obtain ⟨c, last⟩ := Option.isSome_iff_exists.mp
            (List.getLast?_isSome.mpr (List.cons_ne_nil u us))
          refine ⟨c, last, others_getLast os ?_⟩
          rw [whole, List.getLast?_append, last]
          rfl
        obtain ⟨c, last, comma⟩ := commaLast
        have head : u.token ≠ .lParen :=
          (Token.inParams_apart (inside u (by simp [whole]))).1.1
        rw [recognise_ident isIdent (by simpa using head), tryParseFunction_ident isIdent,
          tryParseFunction_comma (fun k param => (Token.inParams_apart param).1) grouped last comma]
        rfl
  · exact recognise_other (fun isKey => isClass (key isKey)) isIdent

/-- A class scanner that starts among the parameters gets over them. -/
theorem params_class (close : Sym .rAngle) {front back : List Tok} {t : Tok}
    (grouped : Angled Token.inParams ts) (all : ∀ t ∈ ts, t.token.inParams)
    (whole : ts = front ++ t :: back) (after : List Tok) :
    ∃ name, consumeClassLike none (back ++ close.1 :: after) = consumeClassLike name after := by
  rw [List.append_cons] at whole
  obtain ⟨name, _, same⟩ := consumeClassLike_angled
    (fun k param => ⟨(Token.inParams_apart param).2.1, (Token.inParams_apart param).1.2.2.1,
      (Token.inParams_apart param).1.2.1⟩) (angled_suffix (whole ▸ grouped) (whole ▸ all)) none
    (close.1 :: after)
  refine ⟨name, same.trans ?_⟩
  exact consumeClassLike_other (by simp [close.2]) name

/-- What an identifier among the parameters leads to: nothing, or what a function scanner finds
behind them. -/
theorem params_token (content : List Char) (close : Sym .rAngle) {front back after : List Tok}
    {t : Tok} {verdict : Option (Tok × Nat)} (grouped : Angled Token.inParams ts)
    (all : ∀ t ∈ ts, t.token.inParams) (whole : ts = front ++ t :: back)
    (classes : t.token = .kwClass → ∀ name, consumeClassLike name after = none)
    (idents : ∀ lastIdent, tryParseFunction lastIdent after = verdict) :
    t.Walked ∧ (recognise content t (back ++ close.1 :: after) = none ∨
      ∃ found, verdict = some found ∧ ∃ f, recognise content t (back ++ close.1 :: after) = some f ∧
        f.name = found.1.text content ∧ f.kind = "function" ∧ f.stop = found.2) := by
  have param := all t (by simp [whole])
  obtain ⟨⟨paren, semi, brace, closeBrace⟩, colon, nested, key⟩ := Token.inParams_apart param
  refine ⟨⟨brace, closeBrace, nested⟩, ?_⟩
  by_cases isClass : t.token = .kwClass
  · obtain ⟨name, same⟩ := params_class close grouped all whole after
    rw [recognise_classKey (by rw [isClass]; rfl), same, classes isClass]
    exact .inl rfl
  rw [List.append_cons] at whole
  have behind := angled_suffix (whole ▸ grouped) (whole ▸ all)
  by_cases isIdent : t.token = .ident
  · have head : (back ++ close.1 :: after).head?.map (·.token) ≠ some .lParen := by
      cases back with
      | nil => simp [close.2]
      | cons u us => simpa using (Token.inParams_apart (all u (by simp [whole]))).1.1
    rw [recognise_ident isIdent head, tryParseFunction_ident isIdent]
    rcases tryParseFunction_angled (fun k param => (Token.inParams_apart param).1) behind
      (some (t, (back ++ close.1 :: after).length)) (close.1 :: after) with nothing | ⟨last, same⟩
    · exact .inl (by rw [nothing]; rfl)
    · rw [same, tryParseFunction_other (by simp [close.2]), idents last]
      cases verdict with
      | none => exact .inl rfl
      | some found => exact .inr ⟨found, rfl, _, rfl, rfl, rfl, rfl⟩
  · exact .inl (recognise_other (fun isKey => isClass (key isKey)) isIdent)

namespace Template

variable (p : Template)

theorem inParams : ∀ t ∈ p.paramToks, t.token.inParams :=
  List.forall_mem_append.mpr ⟨others_inParams p.others, p.last.inParams⟩

theorem angled : Angled Token.inParams p.paramToks := (others_angled p.others).append p.last.angled

theorem hasClass_of_mem {t : Tok} (mem : t ∈ p.paramToks) (isClass : t.token = .kwClass) :
    p.hasClass := by
  have own : ∀ q : TemplateParam, t ∈ q.toks → q.isClass := by
    intro q inside
    rcases q.kinds t inside with rfl | default
    · simpa [TemplateParam.isClass] using isClass
    · rw [isClass] at default
      simp [Token.inDefault, Token.isPlain] at default
  rw [hasClass, List.any_eq_true]
  rcases List.mem_append.mp mem with other | last
  · obtain ⟨o, inside, part⟩ := List.mem_flatMap.mp other
    rcases List.mem_append.mp part with param | comma
    · exact ⟨o.1, by simp [params, List.mem_map_of_mem inside], own o.1 param⟩
    · rw [List.mem_singleton.mp comma, o.2.2] at isClass
      exact absurd isClass (by decide)
  · exact ⟨p.last, by simp [params], own p.last last⟩

theorem front_passed (rest : List Tok) : Passed content [p.keyword.1, p.opening.1] rest := by
  refine ⟨⟨?_, recognise_other ?_ ?_⟩, ⟨?_, recognise_other ?_ ?_⟩, trivial⟩ <;>
    simp [Tok.Walked, p.keyword.2, p.opening.2, Token.isKey, Token.isClassKey]

theorem close_passed (rest : List Tok) : Passed content [p.closing.1] rest := by
  refine ⟨⟨?_, recognise_other ?_ ?_⟩, trivial⟩ <;>
    simp [Tok.Walked, p.closing.2, Token.isKey, Token.isClassKey]

/-- Where neither a class nor a function can be found, the template is passed. -/
theorem passed {after : List Tok} (classes : p.hasClass → ∀ name, consumeClassLike name after = none)
    (idents : ∀ lastIdent, tryParseFunction lastIdent after = none) :
    Passed content p.toks after := by
  show Passed content ([p.keyword.1, p.opening.1] ++ (p.paramToks ++ [p.closing.1])) after
  refine passed_append (p.front_passed _)
    (passed_append (passed_of_forall fun front t back whole => ?_) (p.close_passed after))
  have mem : t ∈ p.paramToks := by simp [whole]
  obtain ⟨walked, nothing | ⟨found, impossible, _⟩⟩ := params_token content p.closing
    p.angled p.inParams whole
    (fun isClass => classes (p.hasClass_of_mem mem isClass)) idents
  · exact ⟨walked, nothing⟩
  · simp at impossible

/-- Where a function is found behind the template, it may be found from a parameter as well. -/
theorem reads {after : List Tok} {found : Tok × Nat}
    (classes : p.hasClass → ∀ name, consumeClassLike name after = none)
    (idents : ∀ lastIdent, tryParseFunction lastIdent after = some found) :
    Passed content p.toks after ∨
      Reads content p.toks after (found.1.text content) "function" found.2 := by
  have params : Passed content p.paramToks (p.closing.1 :: after) ∨
      Reads content p.paramToks (p.closing.1 :: after) (found.1.text content) "function"
        found.2 := by
    refine passed_or_reads fun front t back whole => ?_
    have mem : t ∈ p.paramToks := by simp [whole]
    obtain ⟨walked, nothing | ⟨_, same, said⟩⟩ := params_token content p.closing p.angled
      p.inParams whole (fun isClass => classes (p.hasClass_of_mem mem isClass)) idents
    · exact ⟨walked, .inl nothing⟩
    · obtain rfl := Option.some.inj same
      exact ⟨walked, .inr said⟩
  show Passed content ([p.keyword.1, p.opening.1] ++ (p.paramToks ++ [p.closing.1])) after ∨
    Reads content ([p.keyword.1, p.opening.1] ++ (p.paramToks ++ [p.closing.1])) after
      (found.1.text content) "function" found.2
  rcases params with passed | reads
  · exact .inl (passed_append (p.front_passed _) (passed_append passed (p.close_passed after)))
  · exact .inr (Reads.append (p.front_passed _) reads.extend)

/-- The first parameter that `class` introduces. -/
theorem class_param (has : p.hasClass) :
    ∃ os cls back, p.paramToks = othersToks os ++ cls :: back ∧ cls.token = .kwClass ∧
      ∀ t ∈ othersToks os, t.token ≠ .kwClass := by
  have first : ∀ others : List (TemplateParam × Sym .comma),
      (others.map Prod.fst ++ [p.last]).any TemplateParam.isClass →
      ∃ os cls back, othersToks others ++ p.last.toks = othersToks os ++ cls :: back ∧
        cls.token = .kwClass ∧ ∀ t ∈ othersToks os, t.token ≠ .kwClass := by
    intro others
    induction others with
    | nil =>
        intro isClass
        exact ⟨[], p.last.intro, _, rfl, by simpa [TemplateParam.isClass] using isClass, by simp [othersToks]⟩
    | cons o others ih =>
        intro some_
        by_cases isClass : o.1.isClass
        · exact ⟨[], o.1.intro, _, rfl, by simpa [TemplateParam.isClass] using isClass,
            by simp [othersToks]⟩
        · obtain ⟨os, cls, back, whole, class_, none_⟩ := ih (by simpa [isClass] using some_)
          refine ⟨o :: os, cls, back, ?_, class_, ?_⟩
          · simpa [othersToks] using whole
          · intro t mem same
            rw [othersToks, List.flatMap_cons, List.mem_append, List.mem_append] at mem
            rcases mem with (own | comma) | other
            · rcases o.1.kinds t own with rfl | default
              · simp [TemplateParam.isClass, same] at isClass
              · simp [Token.inDefault, Token.isPlain, same] at default
            · rw [List.mem_singleton.mp comma, o.2.2] at same
              exact absurd same (by decide)
            · exact none_ t other same
  exact first p.others has

/-- A class scanner that finds a class behind the template finds it from a `class` parameter. -/
theorem class_reads {after : List Tok} {Q : Tok × Nat → Prop} (has : p.hasClass)
    (spelled : ∀ t ∈ p.toks, ∀ s ∈ t.token.literal, t.text content = s)
    (classes : ∀ name, ∃ found, consumeClassLike name after = some found ∧ Q found) :
    ∃ found, Q found ∧ Reads content p.toks after (found.1.text content) "class" found.2 := by
  obtain ⟨os, cls, back, whole, isClass, none_⟩ := p.class_param has
  have mem : cls ∈ p.toks := by simp [toks, whole]
  have text := spelled cls mem "class" (by simp [isClass, Token.literal])
  obtain ⟨name, same⟩ := params_class p.closing p.angled p.inParams whole after
  obtain ⟨found, answer, good⟩ := classes name
  refine ⟨found, good, ?_⟩
  have scanned : consumeClassLike none (back ++ p.closing.1 :: after) = some found := by
    rw [same, answer]
  have reads : Reads content (cls :: (back ++ [p.closing.1])) after (found.1.text content) "class"
      found.2 := by
    refine ⟨[], cls, back ++ [p.closing.1], ⟨found.1.text content, classKind (cls.text content),
      signatureForBlock content cls.start found.1.stop (classKind (cls.text content)), found.2⟩,
      rfl, trivial, ?_, ?_, rfl, ?_, rfl⟩
    · simp [Tok.Walked, isClass]
    · rw [List.append_assoc, List.singleton_append, recognise_classKey (by rw [isClass]; rfl),
        scanned]
      rfl
    · rw [text]
      rfl
  have toks_eq : p.toks =
      [p.keyword.1, p.opening.1] ++ (othersToks os ++ (cls :: (back ++ [p.closing.1]))) := by
    simp [toks, whole]
  rw [toks_eq]
  refine Reads.append (p.front_passed _) (Reads.append (others_passed ?_) reads)
  intro front t back split same
  exact absurd same (none_ t (by simp [split]))

/-- With an unnamed `class` at the end no identifier of the template leads anywhere. -/
theorem passed_of_not_ended {after : List Tok} (open_ : ¬p.last.ended)
    (classes : ∀ name, consumeClassLike name after = none) : Passed content p.toks after := by
  have shape : p.last.intro.token = .kwClass ∧ p.last.name = none ∧ p.last.default = none := by
    simpa [TemplateParam.ended, TemplateParam.isClass, and_assoc] using open_
  have lastToks : p.last.toks = p.last.intro :: p.last.dots.map Subtype.val := by
    simp [TemplateParam.toks, TemplateParam.defaultToks, shape]
  have last : Passed content p.last.toks (p.closing.1 :: after) := by
    refine passed_of_forall fun front t back whole => ?_
    have mem : t ∈ p.last.toks := by simp [whole]
    have split : p.paramToks = (othersToks p.others ++ front) ++ t :: back := by
      rw [paramToks, whole, List.append_assoc]
      rfl
    rw [lastToks, List.mem_cons] at mem
    rcases mem with rfl | dot
    · obtain ⟨name, same⟩ := params_class p.closing p.angled p.inParams split after
      refine ⟨by simp [Tok.Walked, shape], ?_⟩
      rw [recognise_classKey (by rw [shape.1]; rfl), same, classes]
      rfl
    · obtain ⟨d, _, rfl⟩ := List.mem_map.mp dot
      exact ⟨by simp [Tok.Walked, d.2],
        recognise_other (by simp [d.2, Token.isKey, Token.isClassKey]) (by simp [d.2])⟩
  have others : Passed content (othersToks p.others) (p.last.toks ++ (p.closing.1 :: after)) := by
    refine others_passed fun front t back whole _ => ?_
    have split : p.paramToks = front ++ t :: (back ++ p.last.toks) := by
      show othersToks p.others ++ p.last.toks = _
      rw [whole, List.append_assoc, List.cons_append]
    obtain ⟨name, same⟩ := params_class p.closing p.angled p.inParams split after
    rw [← List.append_assoc, same, classes]
  show Passed content ([p.keyword.1, p.opening.1] ++ (p.paramToks ++ [p.closing.1])) after
  exact passed_append (p.front_passed _)
    (passed_append (passed_append others last) (p.close_passed after))

end Template

end Params

end Ministr.Code
