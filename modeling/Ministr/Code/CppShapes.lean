/-
# Code.CppShapes — the declarations that the extractor is made for

A translation unit is written here as the tree of its declarations, with every token in its place:
classes with a body, forward declarations, enums, functions, and namespaces around them.  Texts in
which brackets only have to match (bodies, parameters, template arguments) are token lists.

`template` is no keyword of the walk.  It passes it, and then looks at the parameters one by one:
a `class` among them is taken for the head of a class, whatever is declared.
-/
import Ministr.Code.CppFallback

namespace Ministr.Code

open Ministr.Theory Ministr.Content Ministr.Ingestion

set_option autoImplicit false

/-! ## Kinds of tokens -/

namespace Token

def isClassKey : Token → Bool
  | .kwClass | .kwStruct | .kwUnion => true
  | _ => false

/-- `class`, `struct`, `union` and `enum`, at which the walk looks for a type. -/
def isKey (k : Token) : Bool := k.isClassKey || k = .kwEnum

/-- Tokens that mean nothing to the walk and to the scanners. -/
def isPlain : Token → Bool
  | .kwClass | .kwStruct | .kwUnion | .kwEnum | .kwNamespace | .ident | .lParen | .rParen
  | .lBrace | .rBrace | .lAngle | .rAngle | .semi | .colon | .comma | .eq => false
  | _ => true

/-- Tokens of a type outside of its template arguments. -/
def inType (k : Token) : Prop := k.isPlain ∨ k.isKey ∨ k = .ident

/-- Tokens of a type that is the default of a template parameter, at any place. -/
def inDefault (k : Token) : Prop :=
  k.isPlain ∨ k = .ident ∨ k = .lAngle ∨ k = .rAngle ∨ k = .comma ∨ k = .eq

/-- Tokens of a list of base classes outside of template arguments. -/
def inBases (k : Token) : Prop := k.isPlain ∨ k = .ident ∨ k = .comma

end Token

/-- A token of one kind. -/
abbrev Sym (k : Token) := { t : Tok // t.token = k }

/-- Tokens with `P`, and groups in angle brackets. -/
abbrev Angled (P : Token → Prop) (ts : List Tok) : Prop :=
  Grouped opensAngle closesAngle endsHeader (fun t => P t.token) ts

/-! ## Declarations -/

/-- The text in a pair of braces. -/
structure Block where
  opening : Sym .lBrace
  body : List Tok
  closing : Sym .rBrace
  even : balanced opensBrace closesBrace 0 body

def Block.toks (b : Block) : List Tok := b.opening.1 :: (b.body ++ [b.closing.1])

/-- A type: specifiers such as `const` or `struct`, a first identifier, and what follows. -/
structure TypeName where
  lead : List Tok
  first : Sym .ident
  more : List Tok
  leading : ∀ t ∈ lead, t.token.isPlain ∨ t.token.isKey
  typed : Angled Token.inType more

def TypeName.toks (ty : TypeName) : List Tok := ty.lead ++ ty.first.1 :: ty.more

/-- `class T`, `typename... Ts`, `class T = int`.  To the lexer `typename` is an identifier. -/
structure TemplateParam where
  intro : Tok
  introduces : intro.token = .kwClass ∨ intro.token = .ident
  dots : List (Sym .other)
  name : Option (Sym .ident)
  default : Option (Sym .eq × { ty : TypeName // ∀ t ∈ ty.toks, t.token.inDefault })

namespace TemplateParam

def defaultToks (p : TemplateParam) : List Tok :=
  match p.default with
  | none => []
  | some (eq, ty) => eq.1 :: ty.1.toks

def toks (p : TemplateParam) : List Tok :=
  p.intro :: (p.dots.map Subtype.val ++ (p.name.map Subtype.val).toList ++ p.defaultToks)

def isClass (p : TemplateParam) : Bool := p.intro.token = .kwClass

/-- An identifier stands between the last `,` or `=` and the end. -/
def ended (p : TemplateParam) : Bool := !p.isClass || p.name.isSome || p.default.isSome

end TemplateParam

/-- `template<...>` with at least one parameter. -/
structure Template where
  keyword : Sym .kwTemplate
  opening : Sym .lAngle
  others : List (TemplateParam × Sym .comma)
  last : TemplateParam
  closing : Sym .rAngle

namespace Template

def params (p : Template) : List TemplateParam := p.others.map Prod.fst ++ [p.last]

def paramToks (p : Template) : List Tok :=
  (p.others.flatMap fun o => o.1.toks ++ [o.2.1]) ++ p.last.toks

def toks (p : Template) : List Tok :=
  p.keyword.1 :: p.opening.1 :: (p.paramToks ++ [p.closing.1])

def hasClass (p : Template) : Bool := p.params.any TemplateParam.isClass

end Template

def templateToks : Option Template → List Tok
  | none => []
  | some p => p.toks

/-- Some template parameter is introduced by `class`. -/
def templateClass : Option Template → Bool
  | none => false
  | some p => p.hasClass

/-- The head of a class: `class API Name`. -/
structure ClassHead where
  template : Option Template
  key : Tok
  classKey : key.token.isClassKey
  api : Option (Sym .ident)
  name : Sym .ident

namespace ClassHead

def front (h : ClassHead) : List Tok := h.key :: (h.api.map Subtype.val).toList ++ [h.name.1]

def toks (h : ClassHead) : List Tok := templateToks h.template ++ h.front

end ClassHead

/-- A class, struct or union with a body. -/
structure ClassDef extends ClassHead where
  final : Option (Sym .kwFinal)
  bases : Option (Sym .colon × { ts : List Tok // Angled Token.inBases ts })
  block : Block
  semi : Sym .semi

namespace ClassDef

def baseToks (d : ClassDef) : List Tok :=
  match d.bases with
  | none => []
  | some (colon, ts) => colon.1 :: ts.1

/-- What stands between the name and the body. -/
def tail (d : ClassDef) : List Tok := (d.final.map Subtype.val).toList ++ d.baseToks

def toks (d : ClassDef) : List Tok :=
  d.toClassHead.toks ++ d.tail ++ d.block.toks ++ [d.semi.1]

end ClassDef

/-- `class Name;`. -/
structure ForwardDecl extends ClassHead where
  semi : Sym .semi

def ForwardDecl.toks (d : ForwardDecl) : List Tok := d.toClassHead.toks ++ [d.semi.1]

/-- An enum, with or without a body. -/
structure EnumDecl where
  key : Sym .kwEnum
  scopeKey : Option { t : Tok // t.token = .kwClass ∨ t.token = .kwStruct }
  api : Option (Sym .ident)
  name : Sym .ident
  underlying : Option (Sym .colon × { ts : List Tok // ∀ t ∈ ts, ¬endsHeader t })
  block : Option Block
  semi : Sym .semi

namespace EnumDecl

def underlyingToks (d : EnumDecl) : List Tok :=
  match d.underlying with
  | none => []
  | some (colon, ts) => colon.1 :: ts.1

def blockToks (d : EnumDecl) : List Tok :=
  match d.block with
  | none => []
  | some block => block.toks

def toks (d : EnumDecl) : List Tok :=
  d.key.1 :: ((d.scopeKey.map Subtype.val).toList ++ (d.api.map Subtype.val).toList ++
    d.name.1 :: (d.underlyingToks ++ d.blockToks ++ [d.semi.1]))

end EnumDecl

/-- The end of a function: its body, or a `;`. -/
inductive FunctionTail where
  | body (block : Block)
  | declared (semi : Sym .semi)

def FunctionTail.toks : FunctionTail → List Tok
  | .body block => block.toks
  | .declared semi => [semi.1]

/-- A function: its type, name and parameters, and the qualifiers behind them. -/
structure FunctionDecl where
  template : Option Template
  type : TypeName
  name : Sym .ident
  opening : Sym .lParen
  params : List Tok
  closing : Sym .rParen
  quals : List Tok
  tail : FunctionTail
  evenParens : balanced opensParen closesParen 0 params
  evenBraces : balanced opensBrace closesBrace 0 params
  flat : ∀ t ∈ quals, t.token ≠ .lBrace ∧ t.token ≠ .rBrace ∧ t.token ≠ .semi
  angles : Angled (fun _ => True)
    ((params ++ closing.1 :: quals).takeWhile fun t => !endsHeader t)

namespace FunctionDecl

/-- What follows the name. -/
def afterName (d : FunctionDecl) : List Tok :=
  d.opening.1 :: (d.params ++ d.closing.1 :: d.quals) ++ d.tail.toks

def toks (d : FunctionDecl) : List Tok :=
  templateToks d.template ++ d.type.toks ++ d.name.1 :: d.afterName

/-- The walk meets the specifiers in front of the type: no identifier stands behind the last
comma of the template parameters. -/
def leadMet (d : FunctionDecl) : Bool :=
  match d.template with
  | none => true
  | some p => !p.last.ended

/-- A `{` comes behind the name, with no `;` in front of it. -/
def braceFirst (d : FunctionDecl) : Bool :=
  (d.afterName.find? endsHeader).any fun t => t.token = .lBrace

/-- A `class`, `struct` or `union` is met in front of the name. -/
def classKeyMet (d : FunctionDecl) : Bool :=
  templateClass d.template || d.leadMet && d.type.lead.any fun t => t.token.isClassKey

def enumKeyMet (d : FunctionDecl) : Bool :=
  d.leadMet && d.type.lead.any fun t => t.token = .kwEnum

end FunctionDecl

/-- The declarations of a scope. -/
inductive Decls where
  | nil
  | classDef (d : ClassDef) (rest : Decls)
  | forward (d : ForwardDecl) (rest : Decls)
  | enumDecl (d : EnumDecl) (rest : Decls)
  | function (d : FunctionDecl) (rest : Decls)
  | nested (keyword : Sym .kwNamespace) (name : Sym .ident) (opening : Sym .lBrace)
      (inner : Decls) (closing : Sym .rBrace) (rest : Decls)

namespace Decls

def toks : Decls → List Tok
  | .nil => []
  | .classDef d rest => d.toks ++ rest.toks
  | .forward d rest => d.toks ++ rest.toks
  | .enumDecl d rest => d.toks ++ rest.toks
  | .function d rest => d.toks ++ rest.toks
  | .nested keyword name opening inner closing rest =>
    keyword.1 :: name.1 :: opening.1 :: (inner.toks ++ closing.1 :: rest.toks)

end Decls

/-! ## What is declared, and when it is found -/

/-- What a record says of a declaration. -/
structure Declared where
  name : String
  kind : String
  modulePath : String
  deriving DecidableEq, Repr

def declared (r : SymbolRecord) : Declared := ⟨r.name, r.kind, r.modulePath⟩

/-- The kind of a class: the keyword it is declared with. -/
def Token.classKind : Token → String
  | .kwStruct => "struct"
  | .kwUnion => "union"
  | _ => "class"

namespace Decls

/-- What the declarations of a scope declare, in order; `path` is the module of the file and the
namespaces around the scope. -/
def declares (content : List Char) : List String → Decls → List Declared
  | _, .nil => []
  | path, .classDef d rest =>
    ⟨d.name.1.text content, d.key.token.classKind, "::".intercalate path⟩ ::
      rest.declares content path
  | path, .forward _ rest => rest.declares content path
  | path, .enumDecl d rest =>
    ⟨d.name.1.text content, "enum", "::".intercalate path⟩ :: rest.declares content path
  | path, .function d rest =>
    ⟨d.name.1.text content, "function", "::".intercalate path⟩ :: rest.declares content path
  | path, .nested _ name _ inner _ rest =>
    inner.declares content (path ++ [name.1.text content]) ++ rest.declares content path

/-- A template with a `class` parameter declares no struct or union, and no keyword in front of a
function is taken for the declaration. -/
def Plain : Decls → Prop
  | .nil => True
  | .classDef d rest => (templateClass d.template → d.key.token = .kwClass) ∧ rest.Plain
  | .forward _ rest => rest.Plain
  | .enumDecl _ rest => rest.Plain
  | .function d rest => (¬d.enumKeyMet ∧ (d.classKeyMet → ¬d.braceFirst)) ∧ rest.Plain
  | .nested _ _ _ inner _ rest => inner.Plain ∧ rest.Plain

end Decls

end Ministr.Code
