/-
# Theory.LexicalPath — where a path leads, read off its text

A path starts at a root, or at a place that is not known, and its parts are followed one by one.
A `..` undoes the last name.  At a root there is nothing to undo and it says nothing; from an
unknown place it climbs.  So a path leads to a place: how far up, and then which names down.  A
place has one text (`Place.text`), that text leads back to it (`place_text`), and two places have
the same text only if they are the same, but for a share with nothing below it, which is written
as the root (`text_eq_iff`).
-/
import Ministr.Theory.UnixPath

namespace Ministr.Theory.LexicalPath

open Ministr.Theory.UnixPath (Name mem_of_mem_splitOn slashFree_of_mem_splitOn)

set_option autoImplicit false

/-- Where a path starts: at a share, at the root, or somewhere. -/
inductive Root where
  | unc
  | absolute
  | relative
  deriving DecidableEq, Repr

def Root.mark : Root → List Char
  | .unc => ['/', '/']
  | .absolute => ['/']
  | .relative => []

def rootOf (text : List Char) : Root :=
  if ['/', '/'] <+: text then .unc else if ['/'] <+: text then .absolute else .relative

/-- A part of a path that leads down. -/
structure IsName (part : List Char) : Prop where
  nonempty : part ≠ []
  notDot : part ≠ ['.']
  notParent : part ≠ ['.', '.']
  slashFree : '/' ∉ part

theorem isName_iff {part : List Char} :
    IsName part ↔ part ≠ [] ∧ part ≠ ['.'] ∧ part ≠ ['.', '.'] ∧ '/' ∉ part :=
  ⟨fun name => ⟨name.nonempty, name.notDot, name.notParent, name.slashFree⟩,
    fun ⟨nonempty, notDot, notParent, slashFree⟩ => ⟨nonempty, notDot, notParent, slashFree⟩⟩

instance (part : List Char) : Decidable (IsName part) := decidable_of_iff' _ isName_iff

/-- How far up from the start, and which names down from there.  Nothing is above a root. -/
@[ext] structure Place where
  root : Root
  up : Nat
  names : List Name
  areNames : ∀ name ∈ names, IsName name
  rooted : root ≠ .relative → up = 0

namespace Place

def start (root : Root) : Place where
  root := root
  up := 0
  names := []
  areNames := by simp
  rooted := fun _ => rfl

variable (p : Place)

def down (name : Name) (isName : IsName name) : Place where
  root := p.root
  up := p.up
  names := p.names ++ [name]
  areNames := by
    intro other mem
    rcases List.mem_append.mp mem with before | last
    · exact p.areNames other before
    · rw [List.mem_singleton.mp last]
      exact isName
  rooted := p.rooted

def parent : Place :=
  if p.names = [] then
    if relative : p.root = .relative then
      { p with up := p.up + 1, rooted := fun other => absurd relative other }
    else p
  else
    { p with
      names := p.names.dropLast
      areNames := fun name mem => p.areNames name (List.dropLast_subset _ mem) }

/-- One part of a path. -/
def follow (part : List Char) : Place :=
  if isName : IsName part then p.down part isName
  else if part = ['.', '.'] then p.parent
  else p

def followAll (parts : List (List Char)) : Place := parts.foldl follow p

/-- The parts of the text of a place. -/
def parts : List (List Char) := List.replicate p.up ['.', '.'] ++ p.names

def text : List Char :=
  if p.parts = [] then if p.root = .relative then ['.'] else ['/']
  else p.root.mark ++ ['/'].intercalate p.parts

/-- A share with nothing below it is the root. -/
def settled : Place := if p.root = .unc ∧ p.names = [] then start .absolute else p

end Place

/-- The place that a path leads to. -/
def place (text : List Char) : Place := (Place.start (rootOf text)).followAll (text.splitOn '/')

/-! ## Following -/

namespace Place

variable {p q : Place}

theorem follow_name {part : List Char} (isName : IsName part) :
    p.follow part = p.down part isName := by
  rw [follow, dif_pos isName]

theorem follow_nil : p.follow [] = p := by
  rw [follow, dif_neg fun name => name.nonempty rfl, if_neg (by decide)]

theorem follow_dot : p.follow ['.'] = p := by
  rw [follow, dif_neg fun name => name.notDot rfl, if_neg (by decide)]

theorem follow_parent : p.follow ['.', '.'] = p.parent := by
  rw [follow, dif_neg fun name => name.notParent rfl, if_pos rfl]

/-- A part of a path is nothing, a `.`, a `..` or a name. -/
theorem part_cases {part : List Char} (slashFree : '/' ∉ part) :
    part = [] ∨ part = ['.'] ∨ part = ['.', '.'] ∨ IsName part := by
  by_cases nil : part = []
  · exact .inl nil
  by_cases dot : part = ['.']
  · exact .inr (.inl dot)
  by_cases parent : part = ['.', '.']
  · exact .inr (.inr (.inl parent))
  exact .inr (.inr (.inr ⟨nil, dot, parent, slashFree⟩))

theorem parent_of_nil (none : p.names = []) (relative : p.root = .relative) :
    p.parent.root = .relative ∧ p.parent.up = p.up + 1 ∧ p.parent.names = [] := by
  rw [parent, if_pos none, dif_pos relative]
  exact ⟨relative, rfl, none⟩

theorem parent_of_rooted (none : p.names = []) (rooted : p.root ≠ .relative) : p.parent = p := by
  rw [parent, if_pos none, dif_neg rooted]

theorem parent_of_cons (some : p.names ≠ []) :
    p.parent.root = p.root ∧ p.parent.up = p.up ∧ p.parent.names = p.names.dropLast := by
  rw [parent, if_neg some]
  exact ⟨rfl, rfl, rfl⟩

theorem root_parent : p.parent.root = p.root := by
  by_cases none : p.names = []
  · by_cases relative : p.root = .relative
    · rw [(parent_of_nil none relative).1, relative]
    · rw [parent_of_rooted none relative]
  · exact (parent_of_cons none).1

theorem root_follow (part : List Char) : (p.follow part).root = p.root := by
  rw [follow]
  split
  · rfl
  · split
    · exact root_parent
    · rfl

theorem root_followAll (parts : List (List Char)) : (p.followAll parts).root = p.root := by
  induction parts generalizing p with
  | nil => rfl
  | cons part parts ih => exact (ih (p := p.follow part)).trans (root_follow part)

theorem names_follow {name : Name} {part : List Char} (mem : name ∈ (p.follow part).names) :
    name ∈ p.names ∨ name = part := by
  rw [follow] at mem
  split at mem
  · rcases List.mem_append.mp mem with before | last
    · exact .inl before
    · exact .inr (List.mem_singleton.mp last)
  · split at mem
    · by_cases none : p.names = []
      · by_cases relative : p.root = .relative
        · rw [(parent_of_nil none relative).2.2] at mem
          cases mem
        · rw [parent_of_rooted none relative] at mem
          exact .inl mem
      · rw [(parent_of_cons none).2.2] at mem
        exact .inl (List.dropLast_subset _ mem)
    · exact .inl mem

/-- Every name of the place is a part of the path. -/
theorem names_followAll {name : Name} {parts : List (List Char)}
    (mem : name ∈ (p.followAll parts).names) : name ∈ p.names ∨ name ∈ parts := by
  induction parts generalizing p with
  | nil => exact .inl mem
  | cons part parts ih =>
      rcases ih mem with before | later
      · rcases names_follow before with earlier | here
        · exact .inl earlier
        · exact .inr (here ▸ List.mem_cons_self)
      · exact .inr (List.mem_cons_of_mem _ later)

theorem followAll_names {names : List Name} (areNames : ∀ name ∈ names, IsName name) :
    (p.followAll names).root = p.root ∧ (p.followAll names).up = p.up ∧
      (p.followAll names).names = p.names ++ names := by
  induction names generalizing p with
  | nil => exact ⟨rfl, rfl, (List.append_nil _).symm⟩
  | cons name names ih =>
      have isName := areNames name List.mem_cons_self
      obtain ⟨root, up, rest⟩ := ih (p := p.down name isName)
        fun other mem => areNames other (List.mem_cons_of_mem _ mem)
      have step : p.followAll (name :: names) = (p.down name isName).followAll names := by
        rw [← follow_name isName]
        rfl
      rw [step]
      refine ⟨root, up, rest.trans ?_⟩
      show (p.names ++ [name]) ++ names = p.names ++ name :: names
      rw [List.append_assoc, List.singleton_append]

theorem followAll_parents (n : Nat) (none : p.names = []) (relative : p.root = .relative) :
    (p.followAll (List.replicate n ['.', '.'])).root = .relative ∧
      (p.followAll (List.replicate n ['.', '.'])).up = p.up + n ∧
        (p.followAll (List.replicate n ['.', '.'])).names = [] := by
  induction n generalizing p with
  | zero => exact ⟨relative, rfl, none⟩
  | succ n ih =>
      obtain ⟨root, up, names⟩ := parent_of_nil none relative
      have step : p.followAll (List.replicate (n + 1) ['.', '.']) =
          p.parent.followAll (List.replicate n ['.', '.']) := by
        rw [List.replicate_succ, ← follow_parent]
        rfl
      obtain ⟨root', up', names'⟩ := ih names root
      rw [step]
      refine ⟨root', ?_, names'⟩
      rw [up', up]
      omega

theorem followAll_append (front back : List (List Char)) :
    p.followAll (front ++ back) = (p.followAll front).followAll back := List.foldl_append

/-- The parts of a place lead to it. -/
theorem followAll_parts (p : Place) : (start p.root).followAll p.parts = p := by
  rw [parts, followAll_append]
  by_cases relative : p.root = .relative
  · obtain ⟨root, up, names⟩ := followAll_parents (p := start p.root) p.up rfl relative
    obtain ⟨root', up', names'⟩ := followAll_names
      (p := (start p.root).followAll (List.replicate p.up ['.', '.'])) p.areNames
    refine Place.ext ?_ ?_ ?_
    · rw [root', root, relative]
    · rw [up', up]
      exact Nat.zero_add _
    · rw [names', names, List.nil_append]
  · rw [p.rooted relative]
    obtain ⟨root, up, names⟩ := followAll_names (p := start p.root) p.areNames
    refine Place.ext root ?_ names
    rw [show (start p.root).followAll (List.replicate 0 ['.', '.']) = start p.root from rfl, up,
      p.rooted relative]
    rfl

end Place

/-! ## Texts -/

/-- A part of the text of a place. -/
theorem Place.part_spec {p : Place} {part : List Char} (mem : part ∈ p.parts) :
    part ≠ [] ∧ '/' ∉ part ∧ part ≠ ['.'] := by
  rcases List.mem_append.mp mem with climb | name
  · rw [List.eq_of_mem_replicate climb]
    decide
  · have isName := p.areNames part name
    exact ⟨isName.nonempty, isName.slashFree, isName.notDot⟩

/-- Names joined begin with the first of them. -/
theorem intercalate_cons_append (first : List Char) (back : List (List Char)) :
    ∃ rest, ['/'].intercalate (first :: back) = first ++ rest := by
  cases back with
  | nil => exact ⟨[], by simp⟩
  | cons second back => exact ⟨'/' :: ['/'].intercalate (second :: back), by simp⟩

/-- And they end with the last. -/
theorem intercalate_append_singleton (front : List (List Char)) (last : List Char) :
    ∃ before, ['/'].intercalate (front ++ [last]) = before ++ last := by
  induction front with
  | nil => exact ⟨[], by simp⟩
  | cons name front ih =>
      obtain ⟨before, joined⟩ := ih
      obtain ⟨next, rest, whole⟩ := List.exists_cons_of_ne_nil
        (List.append_ne_nil_of_right_ne_nil front (List.cons_ne_nil last []))
      refine ⟨name ++ '/' :: before, ?_⟩
      rw [List.cons_append, whole, List.intercalate_cons_cons, ← whole, joined]
      simp

theorem rootOf_append {parts : List (List Char)} (root : Root)
    (solid : ∀ part ∈ parts, part ≠ [] ∧ '/' ∉ part) (some : parts ≠ []) :
    rootOf (root.mark ++ ['/'].intercalate parts) = root := by
  obtain ⟨first, back, rfl⟩ := List.exists_cons_of_ne_nil some
  obtain ⟨nonempty, free⟩ := solid first List.mem_cons_self
  obtain ⟨c, name, rfl⟩ := List.exists_cons_of_ne_nil nonempty
  obtain ⟨rest, joined⟩ := intercalate_cons_append (c :: name) back
  have other : c ≠ '/' := by
    rintro rfl
    exact free List.mem_cons_self
  rw [joined, rootOf]
  cases root with
  | unc => simp [Root.mark]
  | absolute => simp [Root.mark, other.symm]
  | relative => simp [Root.mark, other.symm]

theorem splitOn_slash (text : List Char) : ('/' :: text).splitOn '/' = [] :: text.splitOn '/' :=
  (List.splitOn_append_cons_self [] text : ([] ++ '/' :: text).splitOn '/' = _)

theorem splitOn_append {parts : List (List Char)} (root : Root)
    (solid : ∀ part ∈ parts, part ≠ [] ∧ '/' ∉ part) (some : parts ≠ []) (p : Place) :
    p.followAll ((root.mark ++ ['/'].intercalate parts).splitOn '/') = p.followAll parts := by
  have split := List.splitOn_intercalate '/' (fun part mem => (solid part mem).2) some
  cases root with
  | relative => rw [Root.mark, List.nil_append, split]
  | absolute =>
      have whole : (Root.absolute.mark ++ ['/'].intercalate parts).splitOn '/' = [] :: parts := by
        show ('/' :: ['/'].intercalate parts).splitOn '/' = _
        rw [splitOn_slash, split]
      rw [whole]
      exact congrArg (Place.followAll · parts) Place.follow_nil
  | unc =>
      have whole : (Root.unc.mark ++ ['/'].intercalate parts).splitOn '/' = [] :: [] :: parts := by
        show ('/' :: '/' :: ['/'].intercalate parts).splitOn '/' = _
        rw [splitOn_slash, splitOn_slash, split]
      rw [whole]
      show ((p.follow []).follow []).followAll parts = _
      rw [Place.follow_nil, Place.follow_nil]

namespace Place

theorem parts_eq_nil {p : Place} : p.parts = [] ↔ p.up = 0 ∧ p.names = [] := by
  rw [parts, List.append_eq_nil_iff, List.replicate_eq_nil_iff]

theorem eq_start {p : Place} (none : p.parts = []) : p = start p.root :=
  Place.ext rfl (parts_eq_nil.mp none).1 (parts_eq_nil.mp none).2

theorem settled_of_parts {p : Place} (some : p.parts ≠ []) : p.settled = p := by
  refine if_neg fun share => some (parts_eq_nil.mpr ⟨p.rooted ?_, share.2⟩)
  rw [share.1]
  exact Root.noConfusion

end Place

/-- **The text of a place leads to it.** -/
theorem place_text (p : Place) : place p.text = p.settled := by
  by_cases none : p.parts = []
  · rw [Place.eq_start none]
    cases p.root with
    | unc => rfl
    | absolute => rfl
    | relative => rfl
  · have solid : ∀ part ∈ p.parts, part ≠ [] ∧ '/' ∉ part := fun part mem =>
      ⟨(Place.part_spec mem).1, (Place.part_spec mem).2.1⟩
    rw [Place.text, if_neg none, place, rootOf_append p.root solid none,
      splitOn_append p.root solid none, p.followAll_parts, Place.settled_of_parts none]

theorem text_settled (p : Place) : p.settled.text = p.text := by
  by_cases none : p.parts = []
  · rw [Place.eq_start none]
    cases p.root with
    | unc => rfl
    | absolute => rfl
    | relative => rfl
  · rw [Place.settled_of_parts none]

theorem text_eq_iff {p q : Place} : p.text = q.text ↔ p.settled = q.settled := by
  constructor
  · intro same
    rw [← place_text, same, place_text]
  · intro same
    rw [← text_settled, same, text_settled]

/-- Apart from slashes and dots, the text of a place has the characters of the path. -/
theorem mem_text_place {text : List Char} {c : Char} (mem : c ∈ (place text).text) :
    c ∈ text ∨ c = '/' ∨ c = '.' := by
  have joined : ∀ parts : List (List Char), (∀ part ∈ parts, c ∈ part → c ∈ text ∨ c = '.') →
      c ∈ ['/'].intercalate parts → c ∈ text ∨ c = '/' ∨ c = '.' := by
    intro parts
    induction parts with
    | nil => intro _ inside; cases inside
    | cons part parts ih =>
        intro each inside
        have here : c ∈ part → c ∈ text ∨ c = '/' ∨ c = '.' := fun inPart =>
          (each part List.mem_cons_self inPart).imp_right .inr
        cases parts with
        | nil => exact here (by simpa using inside)
        | cons next parts =>
            rw [List.intercalate_cons_cons] at inside
            rcases List.mem_append.mp inside with front | later
            · rcases List.mem_append.mp front with first | mark
              · exact here first
              · exact .inr (.inl (List.mem_singleton.mp mark))
            · exact ih (fun other mem => each other (List.mem_cons_of_mem _ mem)) later
  rw [Place.text] at mem
  split at mem
  · split at mem
    · exact .inr (.inr (List.mem_singleton.mp mem))
    · exact .inr (.inl (List.mem_singleton.mp mem))
  · rcases List.mem_append.mp mem with mark | inside
    · have slash : c = '/' := by
        revert mark
        cases (place text).root <;> simp [Root.mark]
      exact .inr (.inl slash)
    · refine joined _ (fun part partMem inPart => ?_) inside
      rcases List.mem_append.mp partMem with climb | name
      · rw [List.eq_of_mem_replicate climb] at inPart
        exact .inr (by simpa using inPart)
      · rcases Place.names_followAll name with early | own
        · cases early
        · exact .inl (mem_of_mem_splitOn own inPart)

end Ministr.Theory.LexicalPath
