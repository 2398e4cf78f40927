/-
# Bridge.HttpLiterals — the literals that a scanner finds

A literal is looked for in double quotes over the whole text and then in single ones, so the first
literal that is written is not always the first that is found (`simple_literal`).  What the scanners
of calls find in a text is said here in terms of the text alone (`firstCall_eq_some`,
`fetchCall_eq_some`).
-/
import Ministr.Bridge.HttpRoute

namespace Ministr.Bridge.HttpRoute

open Ministr.Theory Ministr.Content Ministr.Git

set_option autoImplicit false

/-! ## Quotes -/

inductive Quote where
  | double
  | single
  deriving DecidableEq, Repr

def Quote.char : Quote → Char
  | .double => '"'
  | .single => '\''

/-- A text without quotes. -/
structure Unquoted where
  chars : List Char
  double : '"' ∉ chars
  single : '\'' ∉ chars

def literal (q : Quote) (text : List Char) : List Char := q.char :: (text ++ [q.char])

/-- A part of a text without quotes. -/
def Unquoted.part (u : Unquoted) (part : List Char) (inside : part <:+: u.chars) : Unquoted where
  chars := part
  double := fun mem => u.double (inside.subset mem)
  single := fun mem => u.single (inside.subset mem)

def Unquoted.nothing : Unquoted := ⟨[], nofun, nofun⟩

def parenthesis : Unquoted := ⟨[')'], by decide, by decide⟩

section Quoted

variable {q : Quote} {c : Char} {front text back s : List Char}

theorem Unquoted.free (u : Unquoted) (q : Quote) : q.char ∉ u.chars := by
  cases q with
  | double => exact u.double
  | single => exact u.single

theorem Unquoted.count (u : Unquoted) (q : Quote) : u.chars.count q.char = 0 :=
  List.count_eq_zero.mpr (u.free q)

theorem Quote.ascii (q : Quote) : q.char.toNat < 128 := by
  cases q <;> decide

theorem Quote.toLower (q : Quote) : q.char.toLower = q.char := by
  cases q <;> rfl

theorem Quote.utf8Size (q : Quote) : q.char.utf8Size = 1 := by
  cases q <;> rfl

theorem quoted_literal (free : c ∉ front) (inside : c ∉ text) (back : List Char) :
    quoted c (front ++ c :: (text ++ c :: back)) = some text := by
  have first : cutFirst [c] (front ++ c :: (text ++ c :: back)) =
      some (front, text ++ c :: back) := cutFirst_single.mpr ⟨rfl, free⟩
  have second : cutFirst [c] (text ++ c :: back) = some (text, back) :=
    cutFirst_single.mpr ⟨rfl, inside⟩
  rw [quoted, first, Option.bind_some, second, Option.map_some]

theorem quoted_eq_none_iff : quoted c s = none ↔ s.count c ≤ 1 := by
  rw [quoted, Option.bind_eq_none_iff]
  cases first : cutFirst [c] s with
  | none =>
      rw [cutFirst_single_eq_none] at first
      simp [List.count_eq_zero.mpr first]
  | some cut =>
      obtain ⟨whole, free⟩ := cutFirst_single.mp first
      simp only [Option.some.injEq, forall_eq', Option.map_eq_none_iff, cutFirst_single_eq_none]
      rw [whole, List.count_append, List.count_cons_self, List.count_eq_zero.mpr free,
        ← List.count_eq_zero]
      omega

theorem quoted_append_of_free (free : c ∉ front) (text : List Char) :
    quoted c (front ++ text) = quoted c text := by
  rw [quoted, quoted, cutFirst_append_of_free free, Option.bind_map]
  rfl

theorem quoted_concat_of_free (free : c ∉ back) (text : List Char) :
    quoted c (text ++ back) = quoted c text := by
  cases found : quoted c text with
  | none =>
      rw [quoted_eq_none_iff] at found ⊢
      rwa [List.count_append, List.count_eq_zero.mpr free, Nat.add_zero]
  | some inner =>
      obtain ⟨opening, first, second⟩ := Option.bind_eq_some_iff.mp found
      obtain ⟨closing, closed, rfl⟩ := Option.map_eq_some_iff.mp second
      obtain ⟨rfl, free'⟩ := cutFirst_single.mp first
      obtain ⟨behind, free''⟩ := cutFirst_single.mp closed
      rw [behind, List.append_assoc, List.cons_append, List.append_assoc, List.cons_append]
      exact quoted_literal free' free'' _

theorem quoted_trim (solid : isWhitespace c = false) (s : List Char) :
    quoted c (trim s) = quoted c s := by
  have free : ∀ l : List Char, c ∉ l.takeWhile isWhitespace := fun l mem => by
    rw [List.mem_takeWhile_imp mem] at solid
    cases solid
  have start : quoted c (trimStart s) = quoted c s := by
    conv_rhs => rw [← List.takeWhile_append_dropWhile (p := isWhitespace) (l := s)]
    exact (quoted_append_of_free (free s) _).symm
  rw [← start, trim]
  generalize trimStart s = t
  have split : t = (trimStart t.reverse).reverse ++ (t.reverse.takeWhile isWhitespace).reverse := by
    rw [← List.reverse_append, trimStart, List.takeWhile_append_dropWhile, List.reverse_reverse]
  conv_rhs => rw [split]
  exact (quoted_concat_of_free (by simpa using free t.reverse) _).symm

end Quoted

/-! ## The first literal -/

section Simple

variable {s : List Char}

theorem simple_eq (s : List Char) :
    extractFirstStringLiteralSimple s = (quoted '"' s).or (quoted '\'' s) := by
  rw [extractFirstStringLiteralSimple, quoted_trim (by decide), quoted_trim (by decide)]

/-- There are not two quotes of a kind. -/
def Open (s : List Char) : Prop := ∀ q : Quote, s.count q.char ≤ 1

theorem simple_eq_none_iff : extractFirstStringLiteralSimple s = none ↔ Open s := by
  rw [simple_eq, Option.or_eq_none_iff, quoted_eq_none_iff, quoted_eq_none_iff]
  constructor
  · rintro ⟨double, single⟩ q
    cases q with
    | double => exact double
    | single => exact single
  · exact fun few => ⟨few .double, few .single⟩

theorem Open.suffix {front back : List Char} (few : Open (front ++ back)) : Open back := fun q => by
  have whole := few q
  rw [List.count_append] at whole
  omega

theorem Unquoted.open (u : Unquoted) : Open u.chars := fun q => by
  rw [u.count]
  exact Nat.zero_le 1

theorem char_apart {q r : Quote} (apart : q ≠ r) : q.char ≠ r.char := by
  revert apart
  cases q <;> cases r <;> decide

/-- One quote more than none at all. -/
theorem open_single (front back : Unquoted) (q : Quote) :
    Open (front.chars ++ q.char :: back.chars) := fun r => by
  rw [List.count_append, List.count_cons, front.count, back.count]
  split <;> omega

/-- The literal in front is read unless another, in double quotes, follows. -/
theorem simple_literal (front text : Unquoted) (q : Quote) (back : List Char) :
    extractFirstStringLiteralSimple (front.chars ++ (literal q text.chars ++ back)) =
      if q = .double then some text.chars else (quoted '"' back).or (some text.chars) := by
  have own : quoted q.char (front.chars ++ (literal q text.chars ++ back)) = some text.chars := by
    rw [literal, List.cons_append, List.append_assoc]
    exact quoted_literal (front.free q) (text.free q) back
  rw [simple_eq]
  cases q with
  | double => rw [show quoted '"' _ = some text.chars from own, Option.some_or, if_pos rfl]
  | single =>
      have free : '"' ∉ front.chars ++ literal .single text.chars := by
        simp [literal, Quote.char, front.double, text.double]
      rw [show quoted '\'' _ = some text.chars from own, ← List.append_assoc,
        quoted_append_of_free free, if_neg (by decide)]

/-- A literal that is alone is read. -/
theorem simple_alone (front text back : Unquoted) (q : Quote) :
    extractFirstStringLiteralSimple (front.chars ++ (literal q text.chars ++ back.chars)) =
      some text.chars := by
  have nothing : quoted '"' back.chars = none :=
    quoted_eq_none_iff.mpr (Nat.le_of_eq (back.count .double) |>.trans (Nat.zero_le 1))
  rw [simple_literal, nothing, Option.none_or, ite_self]

/-- A quote that is left over in front takes the literal, if it is of its kind. -/
theorem simple_after_quote (front between text back : Unquoted) (q r : Quote) :
    extractFirstStringLiteralSimple (front.chars ++ q.char ::
        (between.chars ++ (literal r text.chars ++ back.chars))) =
      some (if q = r then between.chars else text.chars) := by
  by_cases same : q = r
  · subst same
    have nothing : q = .single → quoted '"' (text.chars ++ q.char :: back.chars) = none := by
      rintro rfl
      exact quoted_eq_none_iff.mpr (open_single text back .single .double)
    have shape : front.chars ++ q.char :: (between.chars ++ (literal q text.chars ++ back.chars)) =
        front.chars ++ (literal q between.chars ++ (text.chars ++ q.char :: back.chars)) := by
      simp [literal]
    rw [shape, simple_literal, if_pos rfl]
    cases q with
    | double => rw [if_pos rfl]
    | single => rw [if_neg (by decide), nothing rfl, Option.none_or]
  · have free : r.char ∉ front.chars ++ q.char :: between.chars := by
      simp [front.free r, between.free r, (char_apart same).symm]
    have own : quoted r.char (front.chars ++ q.char ::
        (between.chars ++ (literal r text.chars ++ back.chars))) = some text.chars := by
      have shape : front.chars ++ q.char :: (between.chars ++ (literal r text.chars ++ back.chars)) =
          (front.chars ++ q.char :: between.chars) ++
            r.char :: (text.chars ++ r.char :: back.chars) := by
        simp [literal]
      rw [shape]
      exact quoted_literal free (text.free r) back.chars
    have other : quoted q.char (front.chars ++ q.char ::
        (between.chars ++ (literal r text.chars ++ back.chars))) = none := by
      rw [quoted_eq_none_iff]
      simp [literal, front.count, between.count, text.count, back.count,
        (char_apart same).symm]
    rw [simple_eq, if_neg same]
    cases q with
    | double =>
        cases r with
        | double => exact absurd rfl same
        | single => rw [show quoted '"' _ = none from other, Option.none_or]; exact own
    | single =>
        cases r with
        | double => rw [show quoted '"' _ = some text.chars from own, Option.some_or]
        | single => exact absurd rfl same

/-- Of two literals the first is read, unless only the second is in double quotes. -/
theorem simple_two (front text between other back : Unquoted) (q r : Quote) :
    extractFirstStringLiteralSimple (front.chars ++ (literal q text.chars ++
        (between.chars ++ (literal r other.chars ++ back.chars)))) =
      some (if q = .double ∨ r = .single then text.chars else other.chars) := by
  rw [simple_literal]
  cases q with
  | double => simp
  | single =>
      rw [if_neg (by decide), quoted_append_of_free between.double]
      cases r with
      | single =>
          have nothing : '"' ∉ literal .single other.chars ++ back.chars := by
            simp [literal, Quote.char, other.double, back.double]
          rw [quoted_eq_none_iff.mpr (Nat.le_of_eq (List.count_eq_zero.mpr nothing) |>.trans
            (Nat.zero_le 1))]
          rfl
      | double =>
          have found : quoted '"' (literal .double other.chars ++ back.chars) = some other.chars := by
            have own := @quoted_literal '"' [] other.chars (by decide) other.double back.chars
            simpa [literal, Quote.char] using own
          rw [found]
          rfl

theorem read_quotes {q r : Quote} {text other : List Char} :
    (if q = .double ∨ r = .single then text else other) = text ↔
      q = .double ∨ r = .single ∨ text = other := by
  rw [← or_assoc]
  split
  · rename_i plain
    exact iff_of_true rfl (.inl plain)
  · rename_i mixed
    exact ⟨fun same => .inr same.symm, fun alike => (alike.resolve_left mixed).symm⟩

end Simple

/-! ## Patterns -/

section Patterns

variable {pattern head behind : List Char} {q : Quote}

/-- A pattern without quotes that does not stand in front of a quote stands behind it or nowhere. -/
theorem callPath_skip (held : pattern ≠ []) (plain : q.char ∉ pattern)
    (missing : cutFirst pattern head = none) :
    callPath pattern (head ++ q.char :: behind) = callPath pattern behind := by
  rw [callPath, callPath, cutFirst_append_cons held plain, missing, Option.bind_map]
  rfl

/-- One that stands in front of a quote is read from there. -/
theorem callPath_within (held : pattern ≠ []) (plain : q.char ∉ pattern)
    {cut : List Char × List Char} (found : cutFirst pattern head = some cut) :
    callPath pattern (head ++ q.char :: behind) =
      extractFirstStringLiteralSimple (cut.2 ++ q.char :: behind) := by
  rw [callPath, cutFirst_append_cons held plain, found, Option.bind_some]

theorem callPath_here (pattern back : List Char) :
    callPath pattern (pattern ++ back) = extractFirstStringLiteralSimple back := by
  rw [callPath, cutFirst_here, Option.bind_some]

theorem callPath_open (few : Open behind) : callPath pattern behind = none := by
  rw [callPath, Option.bind_eq_none_iff]
  intro cut found
  obtain ⟨whole, -⟩ := cutFirst_eq_some.mp found
  rw [whole, ← List.append_assoc] at few
  exact simple_eq_none_iff.mpr few.suffix

theorem firstCall_congr {patterns : List (List Char × List Char)} {s t : List Char}
    (same : ∀ f ∈ patterns, callPath f.1 s = callPath f.1 t) :
    firstCall patterns s = firstCall patterns t := by
  induction patterns with
  | nil => rfl
  | cons f patterns ih =>
      have later := ih fun g mem => same g (List.mem_cons_of_mem _ mem)
      rw [firstCall, firstCall] at later
      rw [firstCall, firstCall, List.findSome?_cons, List.findSome?_cons,
        same f List.mem_cons_self, later]

/-- The patterns that are tried before the one in front, and then that one. -/
theorem firstCall_own {patterns : List (List Char × List Char)} {own : List Char × List Char}
    (mem : own ∈ patterns) (plain : ∀ f ∈ patterns, f.1 ≠ [] ∧ q.char ∉ f.1)
    (apart : ∀ f ∈ patterns, f ≠ own → cutFirst f.1 own.1 = none) {path : List Char}
    (read : extractFirstStringLiteralSimple (q.char :: behind) = some path) :
    firstCall patterns (own.1 ++ q.char :: behind) =
      (firstCall (patterns.takeWhile fun f => f ≠ own) behind).or (some (own.2, path)) := by
  obtain ⟨front, back, rfl, free⟩ := List.eq_append_cons_of_mem mem
  have differ : ∀ f ∈ front, f ≠ own := fun f here same => free (same ▸ here)
  have earlier : (front ++ own :: back).takeWhile (fun f => f ≠ own) = front := by
    rw [List.takeWhile_append_of_pos (by simpa using differ), List.takeWhile_cons_of_neg (by simp),
      List.append_nil]
  have skipped : firstCall front (own.1 ++ q.char :: behind) = firstCall front behind := by
    refine firstCall_congr fun f here => ?_
    have known : f ∈ front ++ own :: back := List.mem_append_left _ here
    exact callPath_skip (plain f known).1 (plain f known).2 (apart f known (differ f here))
  rw [earlier, ← skipped, firstCall, List.findSome?_append, List.findSome?_cons, callPath_here, read]
  rfl

theorem firstCall_eq_none {patterns : List (List Char × List Char)} {text : List Char} :
    firstCall patterns text = none ↔ ∀ f ∈ patterns, callPath f.1 text = none := by
  simp only [firstCall, List.findSome?_eq_none_iff, Option.map_eq_none_iff]

/-- The patterns hold a dot, and no quotes. -/
theorem patterns_shape {f : List Char × List Char} (mem : f ∈ serverPatterns ++ axiosPatterns) :
    '.' ∈ f.1 ∧ ∀ q : Quote, q.char ∉ f.1 := by
  have all : ((serverPatterns ++ axiosPatterns).all fun f =>
      f.1.contains '.' && !f.1.contains '"' && !f.1.contains '\'') = true := by decide
  have shape := List.all_eq_true.mp all f mem
  simp only [Bool.and_eq_true, Bool.not_eq_true', List.contains_eq_mem,
    decide_eq_false_iff_not, decide_eq_true_eq] at shape
  refine ⟨shape.1.1, fun q => ?_⟩
  cases q with
  | double => exact shape.1.2
  | single => exact shape.2

theorem pattern_missing {f : List Char × List Char} (mem : f ∈ serverPatterns ++ axiosPatterns)
    {text : List Char} (free : '.' ∉ text) : cutFirst f.1 text = none :=
  cutFirst_eq_none.mpr fun inside => free (inside.subset (patterns_shape mem).1)

theorem pattern_held {f : List Char × List Char} (mem : f ∈ serverPatterns ++ axiosPatterns) :
    f.1 ≠ [] := List.ne_nil_of_mem (patterns_shape mem).1

/-- A pattern is a receiver and a method. -/
theorem pattern_parts {f : List Char × List Char} (mem : f ∈ serverPatterns ++ axiosPatterns) :
    ∃ receiver ∈ jsRouteReceivers ++ ["axios".toList], ∃ method ∈ httpMethods,
      f = (receiver ++ '.' :: (method ++ ['(']), method) := by
  rcases List.mem_append.mp mem with server | axios
  · obtain ⟨receiver, isReceiver, listed⟩ := List.mem_flatMap.mp server
    obtain ⟨method, isMethod, rfl⟩ := List.mem_map.mp listed
    exact ⟨receiver, List.mem_append_left _ isReceiver, method, isMethod, rfl⟩
  · obtain ⟨method, isMethod, rfl⟩ := List.mem_map.mp axios
    exact ⟨"axios".toList, by simp, method, isMethod, rfl⟩

/-- Each pattern is found in no other. -/
theorem patterns_apart :
    ∀ f ∈ serverPatterns ++ axiosPatterns, ∀ g ∈ serverPatterns ++ axiosPatterns, f ≠ g →
      cutFirst f.1 g.1 = none := by
  have receivers : ∀ r ∈ jsRouteReceivers ++ ["axios".toList], '.' ∉ r ∧
      ∀ r' ∈ jsRouteReceivers ++ ["axios".toList], r <:+ r' → r = r' := by decide
  have methods : ∀ m ∈ httpMethods, '.' ∉ m ∧ '(' ∉ m := by decide
  intro f memF g memG differ
  obtain ⟨r, isR, m, isM, rfl⟩ := pattern_parts memF
  obtain ⟨r', isR', m', isM', rfl⟩ := pattern_parts memG
  refine cutFirst_eq_none.mpr ?_
  rintro ⟨before, behind, whole⟩
  -- the dot is the only one, and so is the bracket
  have dots : r' ++ '.' :: (m' ++ ['(']) = (before ++ r) ++ '.' :: (m ++ '(' :: behind) := by
    refine Eq.trans whole.symm ?_
    simp
  have free : '.' ∉ m' ++ ['('] := by simp [(methods m' isM').1]
  obtain ⟨same, -, rest⟩ := (List.append_cons_inj_of_notMem (receivers r' isR').1 free).mp dots
  have method := ((List.append_cons_inj_of_notMem (methods m' isM').2 List.not_mem_nil).mp rest).1
  have receiver := (receivers r isR).2 r' isR' ⟨before, same.symm⟩
  exact differ (by rw [receiver, method])

end Patterns

/-! ## Methods -/

/-- A method, as a call names it. -/
structure Method where
  chars : List Char
  known : chars ∈ httpMethods

/-- A method as a literal names it, in any mix of cases. -/
structure MethodText where
  chars : List Char
  known : chars.map Char.toLower ∈ httpMethods

def MethodText.lower (m : MethodText) : List Char := m.chars.map Char.toLower

def Method.get : Method := ⟨['g', 'e', 't'], by decide⟩

section Methods

variable (final : List Char → List Char → Bool)

theorem httpMethods_lower {m : List Char} (known : m ∈ httpMethods) : ∀ c ∈ m, c.isLower = true := by
  have all : (httpMethods.all fun m => m.all Char.isLower) = true := by decide
  exact List.all_eq_true.mp (List.all_eq_true.mp all m known)

theorem MethodText.isLower (m : MethodText) {c : Char} (mem : c ∈ m.chars) :
    c.toLower.isLower = true :=
  httpMethods_lower m.known _ (List.mem_map_of_mem mem)

theorem MethodText.ascii (m : MethodText) : ∀ c ∈ m.chars, c.toNat < 128 := by
  intro c mem
  have small := toNat_lt_of_isLower (m.isLower mem)
  rw [toNat_toLower] at small
  split at small <;> omega

theorem MethodText.visible (m : MethodText) {c : Char} (mem : c ∈ m.chars) :
    isWhitespace c = false := by
  have all := forall_ascii (p := fun c => !c.toLower.isLower || !isWhitespace c) (by decide)
    (m.ascii c mem)
  simpa [m.isLower mem] using all

theorem MethodText.toLowercase (m : MethodText) : Theory.toLowercase final m.chars = m.lower :=
  lowercaseFrom_ascii final m.ascii []

theorem MethodText.apart (m : MethodText) {c : Char} (other : c.toLower.isLower = false) :
    c ∉ m.chars := fun mem => by
  rw [m.isLower mem] at other
  cases other

def MethodText.unquoted (m : MethodText) : Unquoted where
  chars := m.chars
  double := m.apart (by decide)
  single := m.apart (by decide)

theorem methodOrGet_none : methodOrGet final none = Method.get.chars :=
  lowercaseFrom_ascii final (by simp [defaultMethod]) []

theorem methodOrGet_some (m : MethodText) : methodOrGet final (some m.chars) = m.lower :=
  m.toLowercase final

end Methods

/-! ## What a call finds in its arguments -/

/-- The text between the first two quotes of a kind. -/
def Between (c : Char) (s lit : List Char) : Prop :=
  ∃ front back, s = front ++ c :: (lit ++ c :: back) ∧ c ∉ front ∧ c ∉ lit

/-- Double quotes go first. -/
def FirstLiteral (s lit : List Char) : Prop :=
  Between '"' s lit ∨ s.count '"' ≤ 1 ∧ Between '\'' s lit

/-- The literal behind the first place of the pattern. -/
def CallRead (pattern text lit : List Char) : Prop :=
  ∃ front back, text = front ++ (pattern ++ back) ∧
    (∀ k < front.length, ¬ pattern <+: text.drop k) ∧ FirstLiteral back lit

def Unread (pattern text : List Char) : Prop := ∀ lit, ¬ CallRead pattern text lit

/-- The first of the patterns that has a literal. -/
def FirstRead (patterns : List (List Char × List Char)) (text method lit : List Char) : Prop :=
  ∃ before f after, patterns = before ++ f :: after ∧ f.2 = method ∧ CallRead f.1 text lit ∧
    ∀ g ∈ before, Unread g.1 text

/-- The method that is cut out of the arguments of `fetch`, if the cut is in range. -/
def MethodRead (final : List Char → List Char → Bool) (after method : List Char) : Prop :=
  (∀ before here rest, after = before ++ (here ++ rest) →
      ¬ FirstWord methodWord before here rest) ∧ method = Method.get.chars ∨
    ∃ before here rest front back, after = before ++ (here ++ rest) ∧
      FirstWord methodWord before here rest ∧ after = front ++ back ∧
      byteLength front = loweredLength before ∧
      (Open back ∧ method = Method.get.chars ∨
        ∃ lit, FirstLiteral back lit ∧ toLowercase final lit = method)

/-- A `fetch` in the arguments. -/
def FetchRead (final : List Char → List Char → Bool) (text method lit : List Char) : Prop :=
  ∃ front after, text = front ++ (fetchPattern ++ after) ∧
    (∀ k < front.length, ¬ fetchPattern <+: text.drop k) ∧ FirstLiteral after lit ∧
    MethodRead final after method

section Found

variable (final : List Char → List Char → Bool) {c : Char} {pattern s text lit method : List Char}
  {patterns : List (List Char × List Char)}

theorem slice_eq_ok {text rest : List Char} {o : Nat} :
    slice text o = .ok rest ↔ ∃ front, text = front ++ rest ∧ byteLength front = o := by
  rw [← sliceFrom_eq_some, slice]
  cases sliceFrom text o <;> simp

theorem quoted_eq_some : quoted c s = some lit ↔ Between c s lit := by
  constructor
  · intro found
    obtain ⟨opening, first, second⟩ := Option.bind_eq_some_iff.mp found
    obtain ⟨closing, closed, rfl⟩ := Option.map_eq_some_iff.mp second
    obtain ⟨rfl, free⟩ := cutFirst_single.mp first
    obtain ⟨behind, free'⟩ := cutFirst_single.mp closed
    exact ⟨opening.1, closing.2, by rw [← behind], free, free'⟩
  · rintro ⟨front, back, rfl, free, inside⟩
    exact quoted_literal free inside back

theorem simple_eq_some : extractFirstStringLiteralSimple s = some lit ↔ FirstLiteral s lit := by
  rw [simple_eq, Option.or_eq_some_iff, quoted_eq_none_iff, quoted_eq_some, quoted_eq_some,
    FirstLiteral]

theorem callPath_eq_some : callPath pattern text = some lit ↔ CallRead pattern text lit := by
  rw [callPath, Option.bind_eq_some_iff]
  constructor
  · rintro ⟨cut, found, read⟩
    obtain ⟨whole, first⟩ := cutFirst_eq_some.mp found
    exact ⟨cut.1, cut.2, whole, first, simple_eq_some.mp read⟩
  · rintro ⟨front, back, whole, first, read⟩
    exact ⟨(front, back), cutFirst_eq_some.mpr ⟨whole, first⟩, simple_eq_some.mpr read⟩

theorem callPath_eq_none : callPath pattern text = none ↔ Unread pattern text := by
  rw [Option.eq_none_iff_forall_ne_some]
  exact forall_congr' fun lit => not_congr callPath_eq_some

theorem firstCall_unread : firstCall patterns text = none ↔ ∀ f ∈ patterns, Unread f.1 text := by
  rw [firstCall_eq_none]
  exact forall₂_congr fun f _ => callPath_eq_none

theorem firstCall_eq_some :
    firstCall patterns text = some (method, lit) ↔ FirstRead patterns text method lit := by
  rw [firstCall, List.findSome?_eq_some_iff]
  constructor
  · rintro ⟨before, f, after, whole, found, free⟩
    obtain ⟨path, read, same⟩ := Option.map_eq_some_iff.mp found
    obtain ⟨rfl, rfl⟩ := Prod.mk.inj same
    exact ⟨before, f, after, whole, rfl, callPath_eq_some.mp read, fun g mem =>
      callPath_eq_none.mp (Option.map_eq_none_iff.mp (free g mem))⟩
  · rintro ⟨before, f, after, whole, rfl, read, free⟩
    exact ⟨before, f, after, whole, by rw [callPath_eq_some.mpr read, Option.map_some],
      fun g mem => Option.map_eq_none_iff.mpr (callPath_eq_none.mpr (free g mem))⟩

theorem extractFetchMethod_iff {after : List Char} :
    (extractFetchMethod final after).map (methodOrGet final) = .ok method ↔
      MethodRead final after method := by
  rw [extractFetchMethod, scanFrom]
  cases found : cutFirst methodWord (after.map Char.toLower) with
  | none =>
      have missing : findLowered final methodWord after = none := by
        rw [findLowered_eq final methodWord_plain (by decide), found, Option.map_none]
      have free : ∀ before here rest, after = before ++ (here ++ rest) →
          ¬ FirstWord methodWord before here rest := by
        rintro before here rest rfl first
        rw [findLowered_firstWord final methodWord_plain (by decide) first] at missing
        cases missing
      rw [missing]
      constructor
      · intro same
        exact .inl ⟨free, (Except.ok.inj same).symm.trans (methodOrGet_none final)⟩
      · rintro (⟨-, rfl⟩ | ⟨before, here, rest, -, -, whole, first, -⟩)
        · exact congrArg Except.ok (methodOrGet_none final)
        · exact absurd first (free before here rest whole)
  | some cut =>
      obtain ⟨before, here, rest, whole, -, first⟩ := exists_firstWord found
      have index : findLowered final methodWord after = some (loweredLength before) := by
        rw [whole, findLowered_firstWord final methodWord_plain (by decide) first]
      rw [index]
      constructor
      · intro same
        cases sliced : slice after (loweredLength before) with
        | error panic =>
            simp only [sliced, Except.map] at same
            cases same
        | ok back =>
            obtain ⟨front, cut, size⟩ := slice_eq_ok.mp sliced
            refine .inr ⟨before, here, rest, front, back, whole, first, cut, size, ?_⟩
            simp only [sliced, Except.map, Except.ok.injEq] at same
            cases read : extractFirstStringLiteralSimple back with
            | none =>
                rw [read, methodOrGet_none] at same
                exact .inl ⟨simple_eq_none_iff.mp read, same.symm⟩
            | some lit =>
                rw [read] at same
                exact .inr ⟨lit, simple_eq_some.mp read, same⟩
      · rintro (⟨free, -⟩ | ⟨before', here', rest', front, back, whole', first', cut, size, read⟩)
        · exact absurd first (free before here rest whole)
        · obtain ⟨rfl, -, -⟩ := firstWord_unique first first' (whole.symm.trans whole')
          simp only [slice_eq_ok.mpr ⟨front, cut, size⟩, Except.map, Except.ok.injEq]
          rcases read with ⟨few, rfl⟩ | ⟨lit, isFirst, rfl⟩
          · rw [simple_eq_none_iff.mpr few, methodOrGet_none]
          · rw [simple_eq_some.mpr isFirst]
            rfl

theorem fetchCall_eq_none : fetchCall final text = .ok none ↔ Unread fetchPattern text := by
  rw [← callPath_eq_none, fetchCall, fetchArguments, callPath]
  cases cutFirst fetchPattern text with
  | none => simp
  | some cut =>
      rw [Option.bind_some, Option.bind_some]
      cases extractFirstStringLiteralSimple cut.2 with
      | none => simp
      | some path =>
          simp only [Option.map_some]
          cases extractFetchMethod final cut.2 <;> simp [Except.map]

theorem fetchCall_eq_some :
    fetchCall final text = .ok (some (method, lit)) ↔ FetchRead final text method lit := by
  rw [fetchCall, fetchArguments]
  constructor
  · intro called
    cases found : cutFirst fetchPattern text with
    | none => simp [found] at called
    | some cut =>
        obtain ⟨whole, first⟩ := cutFirst_eq_some.mp found
        cases read : extractFirstStringLiteralSimple cut.2 with
        | none => simp [found, read] at called
        | some path =>
            simp only [found, read, Option.bind_some, Option.map_some] at called
            cases scanned : extractFetchMethod final cut.2 with
            | error panic => simp [scanned, Except.map] at called
            | ok named =>
                simp only [scanned, Except.map, Except.ok.injEq, Option.some.injEq,
                  Prod.mk.injEq] at called
                obtain ⟨rfl, rfl⟩ := called
                refine ⟨cut.1, cut.2, whole, first, simple_eq_some.mp read, ?_⟩
                rw [← extractFetchMethod_iff, scanned]
                rfl
  · rintro ⟨front, after, whole, first, read, isMethod⟩
    rw [cutFirst_eq_some.mpr ⟨whole, first⟩]
    simp only [Option.bind_some, simple_eq_some.mpr read, Option.map_some]
    rw [← extractFetchMethod_iff] at isMethod
    cases scanned : extractFetchMethod final after with
    | error panic => simp [scanned, Except.map] at isMethod
    | ok named =>
        simp only [scanned, Except.map, Except.ok.injEq] at isMethod ⊢
        rw [isMethod]

end Found

end Ministr.Bridge.HttpRoute
