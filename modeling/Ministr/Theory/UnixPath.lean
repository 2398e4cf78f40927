/-
# Theory.UnixPath — the paths of a Unix file system, as texts

A path is a text, and what it names is a list of components: repeated slashes and inner
`.` say nothing, so several texts have the same components.  `stripPrefix` compares
components and delivers a text, `resolve` follows a path from a directory, where there are
no symbolic links.  Following a path is following a prefix and then what is left of it
(`resolve_of_stripPrefix`), and what is left of the path of an entry under a directory is
spelled by plain names (`stripPrefix_descend`).
-/
import Ministr.Theory.Words
import Mathlib.Data.List.Infix
import Mathlib.Tactic.Common

namespace Ministr.Theory.UnixPath

set_option autoImplicit false

/-- The name of an entry of a directory. -/
abbrev Name := List Char

inductive Component where
  | rootDir
  | curDir
  | parentDir
  | normal (name : Name)
  deriving DecidableEq, Repr

/-- The text between two slashes. -/
abbrev Piece := List Char × Option Component

/-- What the text between two slashes stands for. -/
def component (text : List Char) : Option Component :=
  if text = [] ∨ text = ['.'] then none
  else if text = ['.', '.'] then some .parentDir
  else some (.normal text)

def inner (text : List Char) : Piece := (text, component text)

/-- The first piece of a path.  Nothing before a slash is the root, and a leading `.` counts. -/
def leading (text : List Char) (alone : Bool) : Piece :=
  (text,
    if text = [] ∧ alone = false then some .rootDir
    else if text = ['.'] then some .curDir
    else component text)

def pieces (path : List Char) : List Piece :=
  match path.splitOn '/' with
  | [] => []
  | first :: rest => leading first rest.isEmpty :: rest.map inner

/-- `Path::components`. -/
def components (path : List Char) : List Component := (pieces path).filterMap Prod.snd

/-- `Path::starts_with`. -/
def startsWith (path base : List Char) : Bool := (components base).isPrefixOf (components path)

/-- The pieces behind the first `n` components. -/
def dropComponents : Nat → List Piece → List Piece
  | 0, rest => rest
  | _ + 1, [] => []
  | n + 1, (_, none) :: rest => dropComponents (n + 1) rest
  | n + 1, (_, some _) :: rest => dropComponents n rest

def trimStart (rest : List Piece) : List Piece := rest.dropWhile fun piece => piece.2.isNone

/-- Pieces that say nothing are trimmed from what is left of a path, at both ends. -/
def trimPieces (rest : List Piece) : List Piece := (trimStart (trimStart rest).reverse).reverse

/-- Names in a row, as a text. -/
def joined (names : List Name) : List Char := ['/'].intercalate names

/-- `Path::strip_prefix`. -/
def stripPrefix (path base : List Char) : Option (List Char) :=
  if startsWith path base then
    if components base = [] then some path
    else
      let rest := dropComponents (components base).length (pieces path)
      some (joined ((trimPieces rest).map Prod.fst))
  else none

/-- `Path::join`, of one name. -/
def join (path : List Char) (name : Name) : List Char :=
  if path = [] ∨ path.getLast? = some '/' then path ++ name else path ++ '/' :: name

/-- The path of an entry some levels below a directory. -/
def descend (path : List Char) (names : List Name) : List Char := names.foldl join path

/-- The absolute path of an entry. -/
def absolute (names : List Name) : List Char := descend ['/'] names

/-- One step from a directory. -/
def Component.follow (here : List Name) : Component → List Name
  | .rootDir => []
  | .curDir => here
  | .parentDir => here.dropLast
  | .normal name => here ++ [name]

/-- Where a path leads from a directory. -/
def resolve (here : List Name) (path : List Char) : List Name :=
  (components path).foldl Component.follow here

/-- What a file or a directory can be called. -/
structure IsName (name : Name) : Prop where
  nonempty : name ≠ []
  notDot : name ≠ ['.']
  notDots : name ≠ ['.', '.']
  slashFree : '/' ∉ name

theorem component_of_isName {name : Name} (isName : IsName name) :
    component name = some (.normal name) := by
  simp [component, isName.nonempty, isName.notDot, isName.notDots]

theorem filterMap_inner {names : List Name} (areNames : ∀ name ∈ names, IsName name) :
    (names.map inner).filterMap Prod.snd = names.map .normal := by
  induction names with
  | nil => rfl
  | cons name names ih =>
      have rest := ih fun name mem => areNames name (List.mem_cons_of_mem _ mem)
      have here := component_of_isName (areNames name List.mem_cons_self)
      rw [List.map_cons, List.filterMap_cons_some (b := .normal name) here, rest, List.map_cons]

theorem foldl_follow_normal (here names : List Name) :
    (names.map Component.normal).foldl Component.follow here = here ++ names := by
  induction names generalizing here with
  | nil => simp
  | cons name names ih =>
      rw [List.map_cons, List.foldl_cons, ih]
      simp [Component.follow]

/-! ## The pieces of a path -/

/-- The pieces of a text that a slash follows. -/
def opened (path : List Char) : List Piece :=
  match path.splitOn '/' with
  | [] => []
  | first :: rest => leading first false :: rest.map inner

theorem pieces_slash (front back : List Char) :
    pieces (front ++ '/' :: back) = opened front ++ (back.splitOn '/').map inner := by
  obtain ⟨first, rest, whole⟩ := List.exists_cons_of_ne_nil (List.splitOn_ne_nil '/' front)
  have more : (rest ++ back.splitOn '/').isEmpty = false := by simp
  simp only [pieces, opened, List.splitOn_append_cons_self, whole, List.cons_append, more,
    List.map_append]

theorem opened_eq_pieces {path : List Char} (nonempty : path ≠ []) : opened path = pieces path := by
  obtain ⟨first, rest, whole⟩ := List.exists_cons_of_ne_nil (List.splitOn_ne_nil '/' path)
  simp only [opened, pieces, whole]
  cases rest with
  | cons second rest => rfl
  | nil =>
      have only : first = path := by
        have read : ['/'].intercalate (path.splitOn '/') = path := List.intercalate_splitOn '/'
        rw [whole] at read
        simpa using read
      simp [leading, only, nonempty]

theorem pieces_join_slash (front : List Char) {name : Name} (isName : IsName name) :
    pieces (front ++ '/' :: name) = opened front ++ [inner name] := by
  rw [pieces_slash, List.splitOn_eq_singleton isName.slashFree]
  rfl

theorem getLast_join {path : List Char} {name : Name} (isName : IsName name) :
    (join path name).getLast? ≠ some '/' := by
  have last : (join path name).getLast? = name.getLast? := by
    have some : name.getLast? = some (name.getLast isName.nonempty) :=
      List.getLast?_eq_some_getLast isName.nonempty
    unfold join
    split
    · rw [List.getLast?_append, some, Option.some_or]
    · rw [List.getLast?_append, List.getLast?_cons, some]
      rfl
  rw [last]
  intro slash
  exact isName.slashFree (List.mem_of_getLast? slash)

theorem join_ne_nil {path : List Char} {name : Name} (isName : IsName name) :
    join path name ≠ [] := by
  unfold join
  split
  · simp [isName.nonempty]
  · simp

theorem pieces_join {path : List Char} (nonempty : path ≠ []) {name : Name}
    (isName : IsName name) :
    ∃ front : List Piece, front.filterMap Prod.snd = components path ∧
      pieces (join path name) = front ++ [inner name] ∧
      (path.getLast? ≠ some '/' → front = pieces path) := by
  by_cases slash : path.getLast? = some '/'
  · obtain ⟨front, rfl⟩ := List.getLast?_eq_some_iff.mp slash
    refine ⟨opened front, ?_, ?_, fun other => absurd slash other⟩
    · rw [components, pieces_slash]
      simp [inner, component]
    · rw [join, if_pos (.inr slash), List.append_assoc, List.singleton_append]
      exact pieces_join_slash front isName
  · refine ⟨pieces path, rfl, ?_, fun _ => rfl⟩
    rw [join, if_neg (not_or.mpr ⟨nonempty, slash⟩), pieces_join_slash path isName,
      opened_eq_pieces nonempty]

theorem pieces_map_fst (path : List Char) : (pieces path).map Prod.fst = path.splitOn '/' := by
  unfold pieces
  cases whole : path.splitOn '/' with
  | nil => rfl
  | cons first rest => simp [leading, inner, Function.comp_def]

section Descend

variable {path : List Char} (nonempty : path ≠ []) {names : List Name}
  (areNames : ∀ name ∈ names, IsName name)
include nonempty areNames

theorem descend_ne_nil : descend path names ≠ [] := by
  rcases List.eq_nil_or_concat' names with rfl | ⟨init, last, rfl⟩
  · exact nonempty
  · rw [descend, List.foldl_concat]
    exact join_ne_nil (areNames last (by simp))

/-- The pieces of the path of an entry: those of the directory, and the names. -/
theorem pieces_descend : ∃ front : List Piece, front.filterMap Prod.snd = components path ∧
    pieces (descend path names) = front ++ names.map inner := by
  induction names using List.reverseRecOn with
  | nil => exact ⟨pieces path, rfl, by simp [descend]⟩
  | append_singleton init last ih =>
      have inits : ∀ name ∈ init, IsName name := fun name mem =>
        areNames name (List.mem_append_left _ mem)
      have isName : IsName last := areNames last (by simp)
      obtain ⟨front, read, whole⟩ := ih inits
      obtain ⟨front', read', whole', same⟩ :=
        pieces_join (descend_ne_nil nonempty inits) isName
      rw [show descend path (init ++ [last]) = join (descend path init) last by simp [descend]]
      rcases List.eq_nil_or_concat' init with rfl | ⟨more, before, rfl⟩
      · exact ⟨front', read', whole'⟩
      · have plain : (descend path (more ++ [before])).getLast? ≠ some '/' := by
          rw [descend, List.foldl_concat]
          exact getLast_join (inits before (by simp))
        refine ⟨front, read, ?_⟩
        rw [whole', same plain, whole]
        simp

theorem components_descend :
    components (descend path names) = components path ++ names.map .normal := by
  obtain ⟨front, read, whole⟩ := pieces_descend nonempty areNames
  rw [components, whole, List.filterMap_append, read, filterMap_inner areNames]

theorem resolve_descend (here : List Name) :
    resolve here (descend path names) = resolve here path ++ names := by
  rw [resolve, components_descend nonempty areNames, List.foldl_append, foldl_follow_normal]
  rfl

end Descend

theorem mem_descend {path : List Char} {names : List Name} {c : Char}
    (mem : c ∈ descend path names) : c = '/' ∨ c ∈ path ∨ ∃ name ∈ names, c ∈ name := by
  induction names generalizing path with
  | nil => exact .inr (.inl mem)
  | cons name names ih =>
      rcases ih mem with slash | joined | ⟨later, listed, here⟩
      · exact .inl slash
      · have parts : c = '/' ∨ c ∈ path ∨ c ∈ name := by
          unfold join at joined
          split at joined
          · exact .inr (List.mem_append.mp joined)
          · rcases List.mem_append.mp joined with inPath | inName
            · exact .inr (.inl inPath)
            · exact (List.mem_cons.mp inName).imp_right .inr
        refine parts.imp_right fun parts => parts.imp_right fun here => ?_
        exact ⟨name, List.mem_cons_self, here⟩
      · exact .inr (.inr ⟨later, List.mem_cons_of_mem _ listed, here⟩)

theorem components_absolute {names : List Name} (areNames : ∀ name ∈ names, IsName name) :
    components (absolute names) = .rootDir :: names.map .normal := by
  rw [absolute, components_descend (by simp) areNames]
  rfl

theorem startsWith_iff {path base : List Char} :
    startsWith path base = true ↔ components base <+: components path := by
  rw [startsWith, List.isPrefixOf_iff_prefix]

/-! ## What is left of a path -/

theorem trimStart_suffix (rest : List Piece) : trimStart rest <:+ rest := List.dropWhile_suffix _

theorem filterMap_trimStart (rest : List Piece) :
    (trimStart rest).filterMap Prod.snd = rest.filterMap Prod.snd := by
  induction rest with
  | nil => rfl
  | cons piece rest ih =>
      obtain ⟨text, _ | c⟩ := piece
      · simpa [trimStart] using ih
      · simp [trimStart]

theorem trimPieces_start (rest : List Piece) : trimPieces rest <+: trimStart rest := by
  have suffix := trimStart_suffix (trimStart rest).reverse
  rw [← List.reverse_prefix, List.reverse_reverse] at suffix
  exact suffix

theorem filterMap_trimPieces (rest : List Piece) :
    (trimPieces rest).filterMap Prod.snd = rest.filterMap Prod.snd := by
  rw [trimPieces, List.filterMap_reverse, filterMap_trimStart, List.filterMap_reverse,
    List.reverse_reverse, filterMap_trimStart]

theorem trimStart_of_some {rest : List Piece} (all : ∀ piece ∈ rest, piece.2.isSome) :
    trimStart rest = rest := by
  cases rest with
  | nil => rfl
  | cons piece rest =>
      have some := all piece List.mem_cons_self
      simp [trimStart, Option.isSome_iff_ne_none.mp some]

theorem isSome_head_trimPieces {rest tail : List Piece} {piece : Piece}
    (whole : trimPieces rest = piece :: tail) : piece.2.isSome := by
  obtain ⟨more, same⟩ := trimPieces_start rest
  rw [whole, List.cons_append, trimStart] at same
  have head := List.head?_dropWhile_not (fun p : Piece => p.2.isNone) rest
  rw [← same] at head
  simpa using head

theorem dropComponents_suffix (n : Nat) (rest : List Piece) : dropComponents n rest <:+ rest := by
  fun_induction dropComponents n rest with
  | case1 rest => exact List.suffix_refl _
  | case2 => exact List.suffix_refl _
  | case3 n text rest ih => exact ih.trans (List.suffix_cons _ _)
  | case4 n text c rest ih => exact ih.trans (List.suffix_cons _ _)

theorem filterMap_dropComponents (n : Nat) (rest : List Piece) :
    (dropComponents n rest).filterMap Prod.snd = (rest.filterMap Prod.snd).drop n := by
  fun_induction dropComponents n rest with
  | case1 rest => simp
  | case2 => simp
  | case3 n text rest ih => simpa using ih
  | case4 n text c rest ih => simpa using ih

/-- Behind a front and some names, only names are left. -/
theorem trimStart_dropComponents (front : List Piece) {names : List Name}
    (areNames : ∀ name ∈ names, IsName name) (k : Nat) :
    trimStart (dropComponents ((front.filterMap Prod.snd).length + k) (front ++ names.map inner)) =
      (names.drop k).map inner := by
  have spoken : ∀ names : List Name, (∀ name ∈ names, IsName name) →
      ∀ piece ∈ names.map inner, piece.2.isSome := by
    intro names areNames piece mem
    obtain ⟨name, listed, rfl⟩ := List.mem_map.mp mem
    simp [inner, component_of_isName (areNames name listed)]
  induction front with
  | nil =>
      have dropped : ∀ (names : List Name) (k : Nat), (∀ name ∈ names, IsName name) →
          dropComponents k (names.map inner) = (names.drop k).map inner := by
        intro names
        induction names with
        | nil => intro k _; cases k <;> rfl
        | cons name names ih =>
            intro k areNames
            cases k with
            | zero => rfl
            | succ k =>
                have here := component_of_isName (areNames name List.mem_cons_self)
                simp only [List.map_cons, inner, here, dropComponents]
                exact ih k fun name mem => areNames name (List.mem_cons_of_mem _ mem)
      simp only [List.filterMap_nil, List.length_nil, Nat.zero_add, List.nil_append]
      rw [dropped names k areNames]
      exact trimStart_of_some (spoken _ fun name mem => areNames name (List.mem_of_mem_drop mem))
  | cons piece front ih =>
      obtain ⟨text, _ | c⟩ := piece
      · rw [List.filterMap_cons_none rfl, List.cons_append, ← ih]
        cases (front.filterMap Prod.snd).length + k with
        | zero => simp [dropComponents, trimStart]
        | succ n => simp [dropComponents]
      · have one : ((text, some c) :: front).filterMap Prod.snd = c :: front.filterMap Prod.snd := rfl
        rw [one, List.length_cons, List.cons_append, ← ih, Nat.add_right_comm]
        rfl

theorem trimPieces_of_trimStart {rest : List Piece} {names : List Name}
    (areNames : ∀ name ∈ names, IsName name) (trimmed : trimStart rest = names.map inner) :
    trimPieces rest = names.map inner := by
  rw [trimPieces, trimmed, trimStart_of_some, List.reverse_reverse]
  intro piece mem
  obtain ⟨name, listed, rfl⟩ := List.mem_map.mp (List.mem_reverse.mp mem)
  simp [inner, component_of_isName (areNames name listed)]

/-- What is left of the path of an entry behind a base that reaches `k` names down. -/
theorem stripPrefix_descend {path base : List Char} (nonempty : path ≠ []) {names : List Name}
    (areNames : ∀ name ∈ names, IsName name) {k : Nat} (deep : components base ≠ [])
    (start : components base <+: components (descend path names))
    (reach : (components base).length = (components path).length + k) :
    stripPrefix (descend path names) base = some (joined (names.drop k)) := by
  obtain ⟨front, read, whole⟩ := pieces_descend nonempty areNames
  have trimmed := trimStart_dropComponents front areNames k
  rw [read, ← reach, ← whole] at trimmed
  have rest := trimPieces_of_trimStart
    (fun name mem => areNames name (List.mem_of_mem_drop mem)) trimmed
  rw [stripPrefix, if_pos (startsWith_iff.mpr start), if_neg deep]
  simp [rest, inner, Function.comp_def]

theorem slashFree_of_mem_splitOn {path text : List Char} (mem : text ∈ path.splitOn '/') :
    '/' ∉ text := by
  induction path generalizing text with
  | nil => simp_all
  | cons c path ih =>
      obtain ⟨first, rest, whole⟩ := List.exists_cons_of_ne_nil (List.splitOn_ne_nil '/' path)
      rw [List.splitOn_cons_eq_if_modifyHead] at mem
      rw [whole] at mem ih
      split at mem
      · rcases List.mem_cons.mp mem with rfl | later
        · simp
        · exact ih later
      · rename_i other
        rcases List.mem_cons.mp mem with rfl | later
        · have free := ih (List.mem_cons_self (a := first) (l := rest))
          have apart : '/' ≠ c := by
            rintro rfl
            simp at other
          simp [free, apart]
        · exact ih (List.mem_cons_of_mem _ later)

theorem infix_of_mem_splitOn {path text : List Char} (mem : text ∈ path.splitOn '/') :
    text <:+: path := infix_of_mem_splitOnP mem

theorem mem_of_mem_splitOn {path text : List Char} (mem : text ∈ path.splitOn '/') {c : Char}
    (inside : c ∈ text) : c ∈ path :=
  (infix_of_mem_splitOn mem).subset inside

theorem mem_joined {texts : List (List Char)} {c : Char} (mem : c ∈ joined texts) :
    c = '/' ∨ ∃ text ∈ texts, c ∈ text := by
  induction texts with
  | nil => simp [joined] at mem
  | cons first rest ih =>
      by_cases last : rest = []
      · subst last
        exact .inr ⟨first, List.mem_cons_self, by simpa [joined] using mem⟩
      · rw [joined, List.intercalate_cons_of_ne_nil last] at mem
        rcases List.mem_append.mp mem with inFront | inRest
        · rcases List.mem_append.mp inFront with here | slash
          · exact .inr ⟨first, List.mem_cons_self, here⟩
          · exact .inl (List.mem_singleton.mp slash)
        · rcases ih inRest with slash | ⟨text, listed, here⟩
          · exact .inl slash
          · exact .inr ⟨text, List.mem_cons_of_mem _ listed, here⟩

theorem component_eq_some {text : List Char} (spoken : (component text).isSome) :
    text ≠ [] ∧ text ≠ ['.'] := by
  unfold component at spoken
  split at spoken
  · simp at spoken
  · rename_i plain
    exact not_or.mp plain

/-- Inner pieces, read again from the text they are joined to. -/
theorem pieces_joined {rest : List Piece} (nonempty : rest ≠ [])
    (inners : ∀ piece ∈ rest, piece = inner piece.1 ∧ '/' ∉ piece.1)
    (spoken : ∀ piece tail, rest = piece :: tail → piece.2.isSome) :
    pieces (joined (rest.map Prod.fst)) = rest := by
  have split : (joined (rest.map Prod.fst)).splitOn '/' = rest.map Prod.fst := by
    refine List.splitOn_intercalate '/' (fun text mem => ?_) (by simpa using nonempty)
    obtain ⟨piece, listed, rfl⟩ := List.mem_map.mp mem
    exact (inners piece listed).2
  have again : ∀ rest : List Piece, (∀ piece ∈ rest, piece = inner piece.1) →
      (rest.map Prod.fst).map inner = rest := by
    intro rest inners
    induction rest with
    | nil => rfl
    | cons piece rest ih =>
        rw [List.map_cons, List.map_cons, ← inners piece List.mem_cons_self,
          ih fun piece mem => inners piece (List.mem_cons_of_mem _ mem)]
  cases rest with
  | nil => exact absurd rfl nonempty
  | cons piece rest =>
      have first := (inners piece List.mem_cons_self).1
      have plain : piece.1 ≠ [] ∧ piece.1 ≠ ['.'] := by
        have some := spoken piece rest rfl
        rw [first] at some
        exact component_eq_some some
      have lead : leading piece.1 (rest.map Prod.fst).isEmpty = piece := by
        rw [leading, if_neg fun empty => plain.1 empty.1, if_neg plain.2]
        exact first.symm
      rw [pieces, split]
      simp only [List.map_cons, lead]
      rw [again rest fun piece mem => (inners piece (List.mem_cons_of_mem _ mem)).1]

theorem inner_of_mem_dropComponents {path : List Char} {n : Nat} {piece : Piece}
    (mem : piece ∈ dropComponents (n + 1) (pieces path)) :
    piece = inner piece.1 ∧ '/' ∉ piece.1 := by
  unfold pieces at mem
  cases whole : path.splitOn '/' with
  | nil => exact absurd whole (List.splitOn_ne_nil '/' path)
  | cons first rest =>
      rw [whole] at mem
      have later : piece ∈ rest.map inner := by
        revert mem
        dsimp only
        generalize leading first rest.isEmpty = lead
        obtain ⟨text, _ | c⟩ := lead
        · exact fun mem => (dropComponents_suffix _ _).subset mem
        · exact fun mem => (dropComponents_suffix _ _).subset mem
      obtain ⟨text, listed, rfl⟩ := List.mem_map.mp later
      have split : text ∈ path.splitOn '/' := by
        rw [whole]
        exact List.mem_cons_of_mem _ listed
      exact ⟨rfl, slashFree_of_mem_splitOn split⟩

/-- A path with no root and no leading `.`. -/
def Relative (path : List Char) : Prop := ∀ piece ∈ pieces path, piece = inner piece.1

theorem relative_nil : Relative [] := by
  intro piece mem
  obtain rfl := List.mem_singleton.mp mem
  rfl

theorem Relative.components_eq {path : List Char} (relative : Relative path) :
    components path = (path.splitOn '/').filterMap component := by
  rw [← pieces_map_fst, List.filterMap_map]
  refine List.filterMap_congr fun piece mem => ?_
  rw [relative piece mem]
  rfl

theorem Relative.not_rootDir {path : List Char} (relative : Relative path) :
    .rootDir ∉ components path := by
  intro mem
  obtain ⟨piece, listed, spoken⟩ := List.mem_filterMap.mp mem
  rw [relative piece listed] at spoken
  simp only [inner, component] at spoken
  split at spoken
  · cases spoken
  · split at spoken <;> cases spoken

/-- A name in front of a relative path. -/
theorem components_name_slash {name : Name} (isName : IsName name) {path : List Char}
    (relative : Relative path) : components (name ++ '/' :: path) = .normal name :: components path := by
  have first : opened name = [inner name] := by
    rw [opened, List.splitOn_eq_singleton isName.slashFree]
    simp [leading, inner, isName.nonempty, isName.notDot]
  rw [components, pieces_slash, first, relative.components_eq, List.filterMap_append,
    List.filterMap_map]
  simp [inner, component_of_isName isName, Function.comp_def]

section Stripped

variable {path base rest : List Char} (deep : components base ≠ [])
  (stripped : stripPrefix path base = some rest)
include deep stripped

theorem startsWith_of_stripPrefix : components base <+: components path := by
  unfold stripPrefix at stripped
  split at stripped
  · rename_i start
    exact startsWith_iff.mp start
  · cases stripped

/-- What is left of a path is read from its pieces. -/
theorem components_stripped :
    components rest = (components path).drop (components base).length ∧ Relative rest := by
  have start := startsWith_iff.mpr (startsWith_of_stripPrefix deep stripped)
  rw [stripPrefix, if_pos start, if_neg deep, Option.some.injEq] at stripped
  obtain ⟨n, depth⟩ := Nat.exists_eq_succ_of_ne_zero fun zero => deep (List.length_eq_zero_iff.mp zero)
  have inners : ∀ piece ∈ trimPieces (dropComponents (components base).length (pieces path)),
      piece = inner piece.1 ∧ '/' ∉ piece.1 := by
    intro piece mem
    rw [depth] at mem
    exact inner_of_mem_dropComponents
      ((trimStart_suffix _).subset ((trimPieces_start _).subset mem))
  have left : (components path).drop (components base).length =
      (trimPieces (dropComponents (components base).length (pieces path))).filterMap Prod.snd := by
    rw [filterMap_trimPieces, filterMap_dropComponents]
    rfl
  rw [← stripped, left]
  by_cases empty : trimPieces (dropComponents (components base).length (pieces path)) = []
  · rw [empty]
    exact ⟨rfl, relative_nil⟩
  · have read := pieces_joined empty inners fun piece tail whole => isSome_head_trimPieces whole
    refine ⟨by rw [components, read], fun piece mem => ?_⟩
    rw [read] at mem
    exact (inners piece mem).1

/-- What is left of a path is part of it. -/
theorem mem_of_mem_stripPrefix {c : Char} (mem : c ∈ rest) : c = '/' ∨ c ∈ path := by
  have start := startsWith_iff.mpr (startsWith_of_stripPrefix deep stripped)
  rw [stripPrefix, if_pos start, if_neg deep, Option.some.injEq] at stripped
  rw [← stripped] at mem
  refine (mem_joined mem).imp_right ?_
  rintro ⟨text, listed, here⟩
  obtain ⟨piece, mem, rfl⟩ := List.mem_map.mp listed
  have whole : piece ∈ pieces path := (dropComponents_suffix _ _).subset
    ((trimStart_suffix _).subset ((trimPieces_start _).subset mem))
  have split : piece.1 ∈ path.splitOn '/' := by
    rw [← pieces_map_fst]
    exact List.mem_map_of_mem whole
  exact mem_of_mem_splitOn split here

theorem components_of_stripPrefix : components path = components base ++ components rest := by
  obtain ⟨more, whole⟩ := startsWith_of_stripPrefix deep stripped
  rw [(components_stripped deep stripped).1, ← whole, List.drop_left]

/-- Following a path is following the base, and then what is left of the path. -/
theorem resolve_of_stripPrefix (here : List Name) :
    resolve here path = resolve (resolve here base) rest := by
  rw [resolve, components_of_stripPrefix deep stripped, List.foldl_append]
  rfl

end Stripped

/-- A component is the root, a leading `.`, or what some piece stands for. -/
theorem spoken_of_mem_components {path : List Char} {c : Component} (mem : c ∈ components path) :
    (c = .rootDir ∧ path.head? = some '/') ∨ c = .curDir ∨
      ∃ text ∈ path.splitOn '/', component text = some c := by
  obtain ⟨piece, listed, spoken⟩ := List.mem_filterMap.mp mem
  unfold pieces at listed
  cases whole : path.splitOn '/' with
  | nil => simp [whole] at listed
  | cons first rest =>
      simp only [whole, List.mem_cons] at listed
      rcases listed with rfl | later
      · simp only [leading] at spoken
        split at spoken
        · rename_i empty
          refine .inl ⟨(Option.some.inj spoken).symm, ?_⟩
          have read : joined (path.splitOn '/') = path := List.intercalate_splitOn '/'
          have more : rest ≠ [] := by
            rintro rfl
            simp at empty
          rw [← read, whole, empty.1, joined, List.intercalate_cons_of_ne_nil more]
          rfl
        · split at spoken
          · exact .inr (.inl (Option.some.inj spoken).symm)
          · exact .inr (.inr ⟨first, List.mem_cons_self, spoken⟩)
      · obtain ⟨text, listed, rfl⟩ := List.mem_map.mp later
        exact .inr (.inr ⟨text, List.mem_cons_of_mem _ listed, spoken⟩)

theorem component_cases {text : List Char} {c : Component} (spoken : component text = some c) :
    (c = .parentDir ∧ text = ['.', '.']) ∨ c = .normal text := by
  unfold component at spoken
  split at spoken
  · cases spoken
  · split at spoken
    · rename_i dots
      exact .inl ⟨(Option.some.inj spoken).symm, dots⟩
    · exact .inr (Option.some.inj spoken).symm

theorem read_of_mem_components {path : List Char} {name : Name}
    (mem : .normal name ∈ components path) :
    name ∈ path.splitOn '/' ∧ component name = some (.normal name) := by
  rcases spoken_of_mem_components mem with ⟨root, -⟩ | here | ⟨text, split, spoken⟩
  · cases root
  · cases here
  · rcases component_cases spoken with ⟨dots, -⟩ | same
    · cases dots
    · obtain rfl := Component.normal.inj same
      exact ⟨split, spoken⟩

theorem head_of_rootDir {path : List Char} (mem : .rootDir ∈ components path) :
    path.head? = some '/' := by
  rcases spoken_of_mem_components mem with ⟨-, head⟩ | here | ⟨text, -, spoken⟩
  · exact head
  · cases here
  · rcases component_cases spoken with ⟨dots, -⟩ | same
    · cases dots
    · cases same

theorem dots_of_parentDir {path : List Char} (mem : .parentDir ∈ components path) :
    ['.', '.'] <:+: path := by
  rcases spoken_of_mem_components mem with ⟨root, -⟩ | here | ⟨text, split, spoken⟩
  · cases root
  · cases here
  · rcases component_cases spoken with ⟨-, rfl⟩ | same
    · exact infix_of_mem_splitOn split
    · cases same

/-- A path with no root and no `..` leads below where it starts. -/
theorem prefix_resolve {here : List Name} {path : List Char} (noRoot : .rootDir ∉ components path)
    (noParent : .parentDir ∉ components path) : here <+: resolve here path := by
  unfold resolve
  revert noRoot noParent
  generalize components path = cs
  induction cs generalizing here with
  | nil => exact fun _ _ => List.prefix_rfl
  | cons c cs ih =>
      intro noRoot noParent
      have later : c.follow here <+: cs.foldl Component.follow (c.follow here) :=
        ih (fun mem => noRoot (List.mem_cons_of_mem _ mem)) fun mem =>
          noParent (List.mem_cons_of_mem _ mem)
      refine List.IsPrefix.trans ?_ later
      cases c with
      | rootDir => exact absurd List.mem_cons_self noRoot
      | curDir => exact List.prefix_rfl
      | parentDir => exact absurd List.mem_cons_self noParent
      | normal name => exact List.prefix_append _ _

theorem isName_of_mem_components {path : List Char} {name : Name}
    (mem : .normal name ∈ components path) : IsName name := by
  obtain ⟨split, read⟩ := read_of_mem_components mem
  have plain := component_eq_some (Option.isSome_of_eq_some read)
  refine ⟨plain.1, plain.2, ?_, slashFree_of_mem_splitOn split⟩
  rintro rfl
  simp [component] at read

theorem mem_of_mem_components {path : List Char} {name : Name}
    (mem : .normal name ∈ components path) {c : Char} (inside : c ∈ name) : c ∈ path :=
  mem_of_mem_splitOn (read_of_mem_components mem).1 inside

/-- What holds of the names here and of those in a path holds of those it leads through. -/
theorem forall_mem_resolve {P : Name → Prop} {here : List Name} {path : List Char}
    (known : ∀ name ∈ here, P name) (spoken : ∀ name, .normal name ∈ components path → P name) :
    ∀ name ∈ resolve here path, P name := by
  unfold resolve
  revert spoken
  generalize components path = cs
  induction cs generalizing here with
  | nil => exact fun _ => known
  | cons c cs ih =>
      intro spoken
      refine ih ?_ fun name mem => spoken name (List.mem_cons_of_mem _ mem)
      cases c with
      | rootDir => exact fun name mem => by cases mem
      | curDir => exact known
      | parentDir => exact fun name mem => known name (List.mem_of_mem_dropLast mem)
      | normal last =>
          intro name mem
          rcases List.mem_append.mp mem with earlier | here
          · exact known name earlier
          · exact List.mem_singleton.mp here ▸ spoken last List.mem_cons_self

/-- Paths lead to names. -/
theorem isName_of_mem_resolve {here : List Name} (areNames : ∀ name ∈ here, IsName name)
    (path : List Char) : ∀ name ∈ resolve here path, IsName name :=
  forall_mem_resolve areNames fun _ mem => isName_of_mem_components mem

theorem components_ne_nil {path : List Char} (nonempty : path ≠ []) : components path ≠ [] := by
  have lead : ∃ c, ∃ rest : List Piece, ∃ text, pieces path = (text, some c) :: rest := by
    unfold pieces
    cases whole : path.splitOn '/' with
    | nil => exact absurd whole (List.splitOn_ne_nil _ _)
    | cons first rest =>
        by_cases empty : first = []
        · have more : rest.isEmpty = false := by
            cases rest with
            | cons second rest => rfl
            | nil =>
                have read : ['/'].intercalate (path.splitOn '/') = path :=
                  List.intercalate_splitOn '/'
                rw [whole, empty] at read
                exact absurd read.symm nonempty
          exact ⟨.rootDir, rest.map inner, first, by simp [leading, empty, more]⟩
        · by_cases dot : first = ['.']
          · exact ⟨.curDir, rest.map inner, first, by simp [leading, dot]⟩
          · by_cases dots : first = ['.', '.']
            · exact ⟨.parentDir, rest.map inner, first, by simp [leading, component, dots]⟩
            · exact ⟨.normal first, rest.map inner, first, by
                simp [leading, component, empty, dot, dots]⟩
  obtain ⟨c, rest, text, whole⟩ := lead
  rw [components, whole]
  exact List.cons_ne_nil c _

section Joined

variable {names : List Name} (areNames : ∀ name ∈ names, IsName name)
include areNames

theorem pieces_joined_names (nonempty : names ≠ []) : pieces (joined names) = names.map inner := by
  have texts : (names.map inner).map Prod.fst = names := by simp [inner, Function.comp_def]
  have read : pieces (joined ((names.map inner).map Prod.fst)) = names.map inner := by
    refine pieces_joined (by simpa using nonempty) (fun piece mem => ?_) fun piece tail whole => ?_
    · obtain ⟨name, listed, rfl⟩ := List.mem_map.mp mem
      exact ⟨rfl, (areNames name listed).slashFree⟩
    · have first : piece ∈ names.map inner := whole ▸ List.mem_cons_self
      obtain ⟨name, listed, same⟩ := List.mem_map.mp first
      rw [← same, inner, component_of_isName (areNames name listed)]
      rfl
  rwa [texts] at read

theorem relative_joined : Relative (joined names) := by
  by_cases nonempty : names = []
  · subst nonempty
    exact relative_nil
  · intro piece mem
    rw [pieces_joined_names areNames nonempty] at mem
    obtain ⟨name, -, rfl⟩ := List.mem_map.mp mem
    rfl

theorem components_joined : components (joined names) = names.map .normal := by
  by_cases nonempty : names = []
  · subst nonempty
    rfl
  · rw [components, pieces_joined_names areNames nonempty, filterMap_inner areNames]

end Joined

end Ministr.Theory.UnixPath
