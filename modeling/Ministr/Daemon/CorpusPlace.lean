/-
# Daemon.CorpusPlace — a corpus path is known by the place it leads to

The canonical form of a local path is the text of the place that the path leads to, once its
separators and its verbatim prefix are out of the way (`canonicalCorpusPath_eq`).  So it is its own
canonical form, and two paths have the same one exactly when they lead to the same place, where a
share with nothing below it counts as the root.  The id of a corpus depends on the set of its
canonical paths only, and the bytes behind it tell these sets apart.  What is checked to be blank
is the path as given, not its canonical form, so `./ ` has an identity and its canonical form has
none (`blankName_lost`).
-/
import Ministr.Daemon.CorpusId
import Ministr.Theory.LexicalPath
import Ministr.Theory.SortedSet

namespace Ministr.Daemon

open Ministr.Theory Ministr.Theory.LexicalPath
open Ministr.Content (blank)

set_option autoImplicit false

def IsLocal (raw : String) : Prop := ∃ path, classifyCorpusPath raw = .localPath path

/-- A path without its verbatim prefix and with one kind of separator. -/
def normalised (raw : String) : List Char :=
  (stripWindowsVerbatim raw.toList).map fun c => if c = '\\' then '/' else c

def placeOf (raw : String) : Place := place (normalised raw)

/-! ## Cleaning -/

theorem cleanSegment_follow (p : Place) {part : List Char} (slashFree : '/' ∉ part) :
    cleanSegment (decide (p.root ≠ .relative)) p.parts.reverse part =
      (p.follow part).parts.reverse := by
  rcases Place.part_cases slashFree with rfl | rfl | rfl | name
  · rw [Place.follow_nil]
    exact if_pos (.inl rfl)
  · rw [Place.follow_dot]
    exact if_pos (.inr rfl)
  · rw [Place.follow_parent]
    unfold cleanSegment
    rw [if_neg (by decide), if_pos rfl]
    rcases List.eq_nil_or_concat p.names with none | ⟨front, last, names⟩
    · by_cases relative : p.root = .relative
      · -- nothing to undo: one more step up
        obtain ⟨-, up, names⟩ := Place.parent_of_nil none relative
        have before : p.parts.reverse = List.replicate p.up ['.', '.'] := by
          rw [Place.parts, none, List.append_nil, List.reverse_replicate]
        have after : p.parent.parts.reverse = List.replicate (p.up + 1) ['.', '.'] := by
          rw [Place.parts, names, up, List.append_nil, List.reverse_replicate]
        rw [before, after, List.replicate_succ]
        cases p.up <;> simp [List.replicate_succ, relative]
      · have atRoot : p.parts = [] := Place.parts_eq_nil.mpr ⟨p.rooted relative, none⟩
        rw [Place.parent_of_rooted none relative, atRoot]
        simp [relative]
    · rw [List.concat_eq_append] at names
      have some : p.names ≠ [] := by
        rw [names]
        exact List.concat_ne_nil last front
      obtain ⟨-, up, rest⟩ := Place.parent_of_cons some
      have isName := p.areNames last (by simp [names])
      rw [Place.parts, Place.parts, up, rest, names]
      simp [isName.notParent]
  · rw [Place.follow_name name]
    unfold cleanSegment
    rw [if_neg (not_or_intro name.nonempty name.notDot), if_neg name.notParent]
    simp [Place.parts, Place.down]

theorem foldl_cleanSegment (p : Place) {parts : List (List Char)}
    (slashFree : ∀ part ∈ parts, '/' ∉ part) :
    parts.foldl (cleanSegment (decide (p.root ≠ .relative))) p.parts.reverse =
      (p.followAll parts).parts.reverse := by
  induction parts generalizing p with
  | nil => rfl
  | cons part parts ih =>
      have rest := ih (p.follow part) fun other mem => slashFree other (List.mem_cons_of_mem _ mem)
      rw [Place.root_follow] at rest
      rw [List.foldl_cons, cleanSegment_follow p (slashFree part List.mem_cons_self), rest]
      rfl

theorem root_place (text : List Char) : (place text).root = rootOf text :=
  Place.root_followAll _

/-- `lexical_clean` prints the parts of the place behind the mark of its root. -/
theorem lexicalClean_eq (text : List Char) :
    lexicalClean text =
      if (place text).root = .relative ∧ (place text).parts = [] then ['.']
      else (place text).root.mark ++ ['/'].intercalate (place text).parts := by
  have segs : (text.splitOn '/').foldl
      (cleanSegment (decide ((Place.start (rootOf text)).root ≠ .relative))) [] =
        (place text).parts.reverse :=
    foldl_cleanSegment (Place.start (rootOf text)) fun part mem =>
      UnixPath.slashFree_of_mem_splitOn mem
  have joined : ['/'].intercalate (place text).parts = [] ↔ (place text).parts = [] := by
    constructor
    · intro empty
      by_contra some
      obtain ⟨first, back, whole⟩ := List.exists_cons_of_ne_nil some
      obtain ⟨rest, starts⟩ := intercalate_cons_append first back
      rw [whole, starts] at empty
      have nonempty := (Place.part_spec (whole ▸ List.mem_cons_self)).1
      exact nonempty (List.append_eq_nil_iff.mp empty).1
    · intro none
      rw [none]
      rfl
  have marks : ("//".toList.isPrefixOf text = true ↔ ['/', '/'] <+: text) ∧
      ("/".toList.isPrefixOf text = true ↔ ['/'] <+: text) :=
    ⟨List.isPrefixOf_iff_prefix, List.isPrefixOf_iff_prefix⟩
  rw [root_place]
  unfold lexicalClean
  generalize (place text).parts = parts at segs joined
  by_cases unc : ['/', '/'] <+: text
  · have root : rootOf text = .unc := if_pos unc
    rw [root, show decide ((Place.start Root.unc).root ≠ .relative) = true from rfl] at segs
    simp only [marks.1.mpr unc, Bool.not_true, Bool.false_and, Bool.false_or, segs,
      List.reverse_reverse, root, if_true]
    exact (if_neg fun both => Root.noConfusion both.1).symm
  · have notUnc : "//".toList.isPrefixOf text = false := by
      rw [← Bool.not_eq_true, marks.1]
      exact unc
    by_cases absolute : ['/'] <+: text
    · have root : rootOf text = .absolute := (if_neg unc).trans (if_pos absolute)
      rw [root, show decide ((Place.start Root.absolute).root ≠ .relative) = true from rfl] at segs
      simp only [notUnc, marks.2.mpr absolute, Bool.not_false, Bool.true_and, Bool.or_false, segs,
        List.reverse_reverse, root, if_true, Bool.false_eq_true, if_false]
      exact (if_neg fun both => Root.noConfusion both.1).symm
    · have root : rootOf text = .relative := (if_neg unc).trans (if_neg absolute)
      have notAbsolute : "/".toList.isPrefixOf text = false := by
        rw [← Bool.not_eq_true, marks.2]
        exact absolute
      rw [root, show decide ((Place.start Root.relative).root ≠ .relative) = false from rfl] at segs
      simp only [notUnc, notAbsolute, Bool.not_false, Bool.true_and, Bool.or_false, segs,
        List.reverse_reverse, root, true_and, List.isEmpty_iff, Bool.false_eq_true, if_false, joined]
      rfl

theorem popSlashes_of_last {text : List Char} {c : Char} (other : c ≠ '/') :
    popSlashes (c :: text) = c :: text := by
  rw [popSlashes]
  intro d rest same
  exact absurd (List.cons.inj same).1 other

/-- Popping slashes only turns an empty share into the root. -/
theorem popSlashes_lexicalClean (text : List Char) :
    (popSlashes (lexicalClean text).reverse).reverse = (place text).text := by
  rw [lexicalClean_eq, Place.text]
  by_cases none : (place text).parts = []
  · rw [none, if_pos rfl]
    cases (place text).root with
    | unc => rfl
    | absolute => rfl
    | relative => rfl
  · rw [if_neg fun both => none both.2, if_neg none]
    rcases List.eq_nil_or_concat (place text).parts with nil | ⟨front, last, whole⟩
    · exact absurd nil none
    · have mem : last ∈ (place text).parts := by simp [whole]
      obtain ⟨nonempty, free, -⟩ := Place.part_spec mem
      obtain ⟨before, ends⟩ := intercalate_append_singleton front last
      rcases List.eq_nil_or_concat last with nil | ⟨name, c, chars⟩
      · exact absurd nil nonempty
      · have other : c ≠ '/' := by
          rintro rfl
          exact free (by simp [chars])
        rw [List.concat_eq_append] at whole
        rw [whole, ends, chars, List.concat_eq_append]
        simp only [List.reverse_append, List.reverse_singleton, List.cons_append,
          popSlashes_of_last other]
        simp

/-- **The canonical form of a local path is the text of its place.** -/
theorem canonicalCorpusPath_eq {raw : String} (isLocal : IsLocal raw) :
    canonicalCorpusPath raw = String.ofList (placeOf raw).text := by
  obtain ⟨path, source⟩ := isLocal
  rw [canonicalCorpusPath, source]
  show String.ofList (popSlashes (lexicalClean (normalised raw)).reverse).reverse = _
  rw [popSlashes_lexicalClean]
  rfl

/-! ## One canonical form -/

section OnePath

variable {raw other : String}

theorem classifyCorpusPath_cases (raw : String) :
    IsLocal raw ∨ canonicalCorpusPath raw = raw := by
  cases source : classifyCorpusPath raw with
  | localPath path => exact .inl ⟨path, source⟩
  | web url => exact .inr (by rw [canonicalCorpusPath, source])
  | git url => exact .inr (by rw [canonicalCorpusPath, source])

theorem dropPrefix?_of_notMem {c : Char} {rest text : List Char} (free : c ∉ text) :
    text.dropPrefix? (c :: rest) = none := by
  cases text with
  | nil => rfl
  | cons d text =>
      refine if_neg fun same => free ?_
      rw [← eq_of_beq same]
      exact List.mem_cons_self

/-- Where there is no backslash, there is no prefix and no separator to replace. -/
theorem normalised_of_free (free : '\\' ∉ raw.toList) : normalised raw = raw.toList := by
  have keeps : stripWindowsVerbatim raw.toList = raw.toList := by
    have unc : raw.toList.dropPrefix? "\\\\?\\UNC\\".toList = none := dropPrefix?_of_notMem free
    have verbatim : raw.toList.dropPrefix? "\\\\?\\".toList = none := dropPrefix?_of_notMem free
    rw [stripWindowsVerbatim, unc, verbatim]
  rw [normalised, keeps]
  conv_rhs => rw [← List.map_id raw.toList]
  refine List.map_congr_left fun c mem => if_neg ?_
  rintro rfl
  exact free mem

theorem backslash_notMem_normalised (raw : String) : '\\' ∉ normalised raw := by
  intro mem
  obtain ⟨c, -, same⟩ := List.mem_map.mp mem
  split at same
  · exact absurd same (by decide)
  · rename_i other
    exact other same

theorem mem_of_mem_normalised {c : Char} (solid : c ≠ '/' ∧ c ≠ '\\') (mem : c ∈ normalised raw) :
    c ∈ raw.toList := by
  obtain ⟨d, inside, same⟩ := List.mem_map.mp mem
  have kept : c ∈ stripWindowsVerbatim raw.toList := by
    split at same
    · exact absurd same.symm solid.1
    · exact same ▸ inside
  rw [stripWindowsVerbatim] at kept
  split at kept
  · rename_i rest found
    obtain ⟨start, whole, -⟩ := List.dropPrefix?_eq_some_iff.mp found
    simp only [List.mem_cons, solid.2, false_or] at kept
    rw [whole]
    exact List.mem_append_right _ kept
  · split at kept
    · rename_i rest found
      obtain ⟨start, whole, -⟩ := List.dropPrefix?_eq_some_iff.mp found
      rw [whole]
      exact List.mem_append_right _ kept
    · exact kept

/-- **A canonical form is its own canonical form.** -/
theorem canonicalCorpusPath_idempotent (raw : String) :
    canonicalCorpusPath (canonicalCorpusPath raw) = canonicalCorpusPath raw := by
  rcases classifyCorpusPath_cases raw with isLocal | same
  · rcases classifyCorpusPath_cases (canonicalCorpusPath raw) with again | same
    · have text : (canonicalCorpusPath raw).toList = (placeOf raw).text := by
        rw [canonicalCorpusPath_eq isLocal, String.toList_ofList]
      have free : '\\' ∉ (canonicalCorpusPath raw).toList := by
        rw [text]
        intro mem
        rcases mem_text_place mem with inside | slash | dot
        · exact backslash_notMem_normalised raw inside
        · exact absurd slash (by decide)
        · exact absurd dot (by decide)
      rw [canonicalCorpusPath_eq again, placeOf, normalised_of_free free, text, place_text,
        text_settled, ← text, String.ofList_toList]
    · exact same
  · rw [same, same]

/-- Two local paths have one canonical form exactly when they lead to one place. -/
theorem canonicalCorpusPath_eq_iff (isLocal : IsLocal raw) (isLocal' : IsLocal other) :
    canonicalCorpusPath raw = canonicalCorpusPath other ↔
      (placeOf raw).settled = (placeOf other).settled := by
  rw [canonicalCorpusPath_eq isLocal, canonicalCorpusPath_eq isLocal', String.ofList_inj,
    text_eq_iff]

/-- The current directory, the root, or the mark of a root and parts behind it: names, and steps up
only in front of them and only where there is no root. -/
def CanonicalText (text : List Char) : Prop :=
  text = ['.'] ∨ text = ['/'] ∨
    ∃ (root : Root) (climbs : Nat) (names : List (List Char)),
      text = root.mark ++ ['/'].intercalate (List.replicate climbs ['.', '.'] ++ names) ∧
        (climbs ≠ 0 ∨ names ≠ []) ∧ (∀ name ∈ names, IsName name) ∧
          (root ≠ .relative → climbs = 0)

theorem canonicalText_canonicalCorpusPath (isLocal : IsLocal raw) :
    CanonicalText (canonicalCorpusPath raw).toList := by
  rw [canonicalCorpusPath_eq isLocal, String.toList_ofList, Place.text]
  split
  · split
    · exact .inl rfl
    · exact .inr (.inl rfl)
  · rename_i some
    refine .inr (.inr ⟨_, (placeOf raw).up, (placeOf raw).names, rfl, ?_, (placeOf raw).areNames,
      (placeOf raw).rooted⟩)
    by_contra none
    rw [not_or, not_not, not_not] at none
    exact some (Place.parts_eq_nil.mpr none)

theorem newline_canonicalCorpusPath (plain : '\n' ∉ raw.toList) :
    '\n' ∉ (canonicalCorpusPath raw).toList := by
  rcases classifyCorpusPath_cases raw with isLocal | same
  · rw [canonicalCorpusPath_eq isLocal, String.toList_ofList]
    intro mem
    rcases mem_text_place mem with inside | slash | dot
    · exact plain (mem_of_mem_normalised ⟨by decide, by decide⟩ inside)
    · exact absurd slash (by decide)
    · exact absurd dot (by decide)
  · rw [same]
    exact plain

end OnePath

/-! ## Sets of paths -/

theorem orders_string : Orders fun a b : String => decide (a ≤ b) where
  trans a b c ab bc := by
    rw [decide_eq_true_eq] at *
    exact String.le_trans ab bc
  total a b := by
    rw [Bool.or_eq_true, decide_eq_true_eq, decide_eq_true_eq]
    exact String.le_total a b
  antisymm a b ab ba := by
    rw [decide_eq_true_eq] at ab ba
    exact String.le_antisymm ab ba

theorem canonicalCorpusPaths_eq (paths : List String) :
    canonicalCorpusPaths paths =
      if paths.isEmpty || paths.any blank then .error .emptyPath
      else .ok (sortedSet (fun a b => decide (a ≤ b)) (paths.map canonicalCorpusPath)) := rfl

section Sets

variable {paths others : List String}

theorem canonicalCorpusPaths_congr
    (checked : (paths.isEmpty || paths.any blank) = (others.isEmpty || others.any blank))
    (same : ∀ path, path ∈ paths.map canonicalCorpusPath ↔ path ∈ others.map canonicalCorpusPath) :
    canonicalCorpusPaths paths = canonicalCorpusPaths others := by
  rw [canonicalCorpusPaths_eq, canonicalCorpusPaths_eq, checked,
    (sortedSet_eq_iff orders_string).mpr same]

theorem canonicalCorpusPaths_of_members (members : ∀ path, path ∈ paths ↔ path ∈ others) :
    canonicalCorpusPaths paths = canonicalCorpusPaths others := by
  refine canonicalCorpusPaths_congr ?_ fun path => by simp [members]
  have empty : paths.isEmpty = others.isEmpty := by
    rw [Bool.eq_iff_iff, List.isEmpty_iff, List.isEmpty_iff, List.eq_nil_iff_forall_not_mem,
      List.eq_nil_iff_forall_not_mem]
    simp [members]
  have blanks : paths.any blank = others.any blank := by
    rw [Bool.eq_iff_iff, List.any_eq_true, List.any_eq_true]
    simp [members]
  rw [empty, blanks]

theorem canonicalCorpusPaths_of_forall₂ (solid : ∀ path ∈ paths, blank path = false)
    (solid' : ∀ path ∈ others, blank path = false)
    (respelt : List.Forall₂ (fun path other => canonicalCorpusPath path = canonicalCorpusPath other)
      paths others) : canonicalCorpusPaths paths = canonicalCorpusPaths others := by
  have maps : paths.map canonicalCorpusPath = others.map canonicalCorpusPath := by
    induction respelt with
    | nil => rfl
    | cons here _ ih =>
        rw [List.map_cons, List.map_cons, here,
          ih (fun path mem => solid path (List.mem_cons_of_mem _ mem)) fun path mem =>
            solid' path (List.mem_cons_of_mem _ mem)]
  have none : ∀ list : List String, (∀ path ∈ list, blank path = false) → list.any blank = false := by
    intro list each
    rw [List.any_eq_false]
    intro path mem
    rw [each path mem]
    exact Bool.false_ne_true
  have lengths := respelt.length_eq
  refine canonicalCorpusPaths_congr ?_ fun path => by rw [maps]
  rw [none paths solid, none others solid']
  cases paths <;> cases others <;> simp_all

theorem canonicalCorpusPaths_eq_ok {canonical : List String}
    (accepted : canonicalCorpusPaths paths = .ok canonical) :
    paths ≠ [] ∧ ∀ path, path ∈ canonical ↔ path ∈ paths.map canonicalCorpusPath := by
  rw [canonicalCorpusPaths_eq] at accepted
  split at accepted
  · cases accepted
  · rename_i checked
    obtain rfl := Except.ok.inj accepted
    refine ⟨fun empty => checked (by simp [empty]), fun path => mem_sortedSet⟩

end Sets

/-! ## What is hashed -/

/-- The bytes that `corpus_id_from_paths` hashes. -/
def hashedBytes (canonical : List String) : List UInt8 :=
  List.intercalate [10] (canonical.map utf8)

theorem corpusIdFromPaths_eq (sha256 : List UInt8 → List UInt8) (paths : List String) :
    corpusIdFromPaths sha256 paths = do
      let canonical ← canonicalCorpusPaths paths
      return "multi-" ++
        String.ofList (((sha256 (hashedBytes canonical)).flatMap hexByte).take 8) := rfl

/-- The bytes are those of the paths on lines of their own. -/
theorem hashedBytes_eq (canonical : List String) :
    hashedBytes canonical = utf8 (String.ofList (['\n'].intercalate (canonical.map String.toList))) := by
  rw [utf8, String.toList_ofList]
  induction canonical with
  | nil => rfl
  | cons path canonical ih =>
      cases canonical with
      | nil => simp [hashedBytes, utf8]
      | cons next canonical =>
          have newline : String.utf8EncodeChar '\n' = [10] := by decide
          have rest : hashedBytes (path :: next :: canonical) =
              utf8 path ++ 10 :: hashedBytes (next :: canonical) := by
            simp [hashedBytes, List.intercalate_cons_cons]
          have lines : ['\n'].intercalate ((path :: next :: canonical).map String.toList) =
              path.toList ++ '\n' :: ['\n'].intercalate ((next :: canonical).map String.toList) := by
            simp [List.intercalate_cons_cons]
          rw [rest, ih, lines, List.flatMap_append, List.flatMap_cons, newline]
          rfl

theorem hashedBytes_injective {canonical canonical' : List String} (some : canonical ≠ [])
    (some' : canonical' ≠ []) (plain : ∀ path ∈ canonical, '\n' ∉ path.toList)
    (plain' : ∀ path ∈ canonical', '\n' ∉ path.toList)
    (same : hashedBytes canonical = hashedBytes canonical') : canonical = canonical' := by
  rw [hashedBytes_eq, hashedBytes_eq] at same
  have lines := congrArg (List.splitOn '\n') (String.ofList_inj.mp (utf8_injective same))
  have split : ∀ paths : List String, paths ≠ [] → (∀ path ∈ paths, '\n' ∉ path.toList) →
      (['\n'].intercalate (paths.map String.toList)).splitOn '\n' = paths.map String.toList := by
    intro paths nonempty free
    refine List.splitOn_intercalate '\n' (fun line mem => ?_) (by simpa using nonempty)
    obtain ⟨path, inside, rfl⟩ := List.mem_map.mp mem
    exact free path inside
  rw [split canonical some plain, split canonical' some' plain'] at lines
  exact List.map_injective_iff.mpr (fun _ _ => String.toList_inj.mp) lines

/-! ## Identity -/

/-- A path that is local, and whose canonical form is. -/
def StaysLocal (raw : String) : Prop := IsLocal raw ∧ IsLocal (canonicalCorpusPath raw)

/-- **The identity of a corpus is that of the places its paths lead to.** -/
theorem corpusId_canonical (sha256 : List UInt8 → List UInt8) :
    (∀ raw, StaysLocal raw →
      canonicalCorpusPath (canonicalCorpusPath raw) = canonicalCorpusPath raw ∧
        CanonicalText (canonicalCorpusPath raw).toList) ∧
    (∀ raw other, StaysLocal raw → StaysLocal other →
      (canonicalCorpusPath raw = canonicalCorpusPath other ↔
        (placeOf raw).settled = (placeOf other).settled)) ∧
    (∀ paths others : List String, (∀ path, path ∈ paths ↔ path ∈ others) →
      corpusIdFromPaths sha256 paths = corpusIdFromPaths sha256 others) ∧
    (∀ paths others : List String,
      (∀ path ∈ paths, StaysLocal path ∧ blank path = false) →
      (∀ path ∈ others, StaysLocal path ∧ blank path = false) →
      List.Forall₂ (fun path other => (placeOf path).settled = (placeOf other).settled) paths others →
      corpusIdFromPaths sha256 paths = corpusIdFromPaths sha256 others) ∧
    (∀ paths : List String,
      (∀ path ∈ paths, blank path = false ∧ blank (canonicalCorpusPath path) = false) →
      corpusIdFromPaths sha256 (paths.map canonicalCorpusPath) = corpusIdFromPaths sha256 paths) ∧
    ∀ paths others canonical canonical' : List String,
      (∀ path ∈ paths, '\n' ∉ path.toList) → (∀ path ∈ others, '\n' ∉ path.toList) →
      canonicalCorpusPaths paths = .ok canonical → canonicalCorpusPaths others = .ok canonical' →
      (∃ path, ¬ (path ∈ canonical ↔ path ∈ canonical')) →
      hashedBytes canonical ≠ hashedBytes canonical' := by
  refine ⟨fun raw stays => ?_, fun raw other stays stays' => ?_, fun paths others members => ?_,
    fun paths others solid solid' respelt => ?_, fun paths solid => ?_, ?_⟩
  · exact ⟨canonicalCorpusPath_idempotent raw, canonicalText_canonicalCorpusPath stays.1⟩
  · exact canonicalCorpusPath_eq_iff stays.1 stays'.1
  · rw [corpusIdFromPaths_eq, corpusIdFromPaths_eq, canonicalCorpusPaths_of_members members]
  · have same : List.Forall₂ (fun path other =>
        canonicalCorpusPath path = canonicalCorpusPath other) paths others := by
      induction respelt with
      | nil => exact .nil
      | cons here _ ih =>
          refine .cons ?_ (ih (fun path mem => solid path (List.mem_cons_of_mem _ mem))
            fun path mem => solid' path (List.mem_cons_of_mem _ mem))
          exact (canonicalCorpusPath_eq_iff (solid _ List.mem_cons_self).1.1
            (solid' _ List.mem_cons_self).1.1).mpr here
    rw [corpusIdFromPaths_eq, corpusIdFromPaths_eq, canonicalCorpusPaths_of_forall₂
      (fun path mem => (solid path mem).2) (fun path mem => (solid' path mem).2) same]
  · have respelt : List.Forall₂ (fun path other =>
        canonicalCorpusPath path = canonicalCorpusPath other)
          (paths.map canonicalCorpusPath) paths := by
      rw [List.forall₂_map_left_iff, List.forall₂_same]
      exact fun path _ => canonicalCorpusPath_idempotent path
    have blanks : ∀ path ∈ paths.map canonicalCorpusPath, blank path = false := by
      intro path mem
      obtain ⟨raw, inside, rfl⟩ := List.mem_map.mp mem
      exact (solid raw inside).2
    rw [corpusIdFromPaths_eq, corpusIdFromPaths_eq,
      canonicalCorpusPaths_of_forall₂ blanks (fun path mem => (solid path mem).1) respelt]
  · intro paths others canonical canonical' plain plain' accepted accepted' ⟨path, differs⟩ same
    have spec : ∀ paths canonical : List String, (∀ path ∈ paths, '\n' ∉ path.toList) →
        canonicalCorpusPaths paths = .ok canonical →
        canonical ≠ [] ∧ ∀ path ∈ canonical, '\n' ∉ path.toList := by
      intro paths canonical plain accepted
      obtain ⟨some, members⟩ := canonicalCorpusPaths_eq_ok accepted
      refine ⟨fun none => ?_, fun path mem => ?_⟩
      · obtain ⟨first, rest, rfl⟩ := List.exists_cons_of_ne_nil some
        have mem := (members (canonicalCorpusPath first)).mpr (by simp)
        rw [none] at mem
        cases mem
      · obtain ⟨raw, inside, rfl⟩ := List.mem_map.mp ((members path).mp mem)
        exact newline_canonicalCorpusPath (plain raw inside)
    obtain ⟨some, free⟩ := spec paths canonical plain accepted
    obtain ⟨some', free'⟩ := spec others canonical' plain' accepted'
    rw [hashedBytes_injective some some' free free' same] at differs
    exact differs Iff.rfl

/-- Two spellings of a directory, and two directories. -/
theorem corpusId_canonical_respelt :
    (canonicalCorpusPath (canonicalCorpusPath "/srv//docs/.") = canonicalCorpusPath "/srv//docs/." ∧
      CanonicalText (canonicalCorpusPath "/srv//docs/.").toList) ∧
    (canonicalCorpusPath "/srv//docs/." = canonicalCorpusPath "/srv/docs" ↔
      (placeOf "/srv//docs/.").settled = (placeOf "/srv/docs").settled) ∧
    corpusIdFromPaths (fun bytes => bytes) ["/srv", "/srv"] =
      corpusIdFromPaths (fun bytes => bytes) ["/srv"] ∧
    corpusIdFromPaths (fun bytes => bytes) ["/srv/docs/.."] =
      corpusIdFromPaths (fun bytes => bytes) ["/srv"] ∧
    corpusIdFromPaths (fun bytes => bytes) (["/srv/docs/.."].map canonicalCorpusPath) =
      corpusIdFromPaths (fun bytes => bytes) ["/srv/docs/.."] ∧
    hashedBytes ["/srv"] ≠ hashedBytes ["/doc"] := by
  have stays : ∀ raw ∈ ["/srv//docs/.", "/srv/docs", "/srv/docs/..", "/srv"], StaysLocal raw := by
    simp only [List.forall_mem_cons]
    exact ⟨⟨⟨_, rfl⟩, ⟨"/srv/docs", by decide⟩⟩, ⟨⟨_, rfl⟩, ⟨"/srv/docs", by decide⟩⟩,
      ⟨⟨_, rfl⟩, ⟨"/srv", by decide⟩⟩, ⟨⟨_, rfl⟩, ⟨"/srv", by decide⟩⟩, by simp⟩
  obtain ⟨one, two, members, respelt, pre, apart⟩ := corpusId_canonical fun bytes => bytes
  refine ⟨one _ (stays _ (by simp)), two _ _ (stays _ (by simp)) (stays _ (by simp)),
    members _ _ (by simp), respelt _ _ ?_ ?_ (.cons ?_ .nil), pre _ ?_,
    apart ["/srv"] ["/doc"] ["/srv"] ["/doc"] (by simp) (by simp) (by decide +kernel)
      (by decide +kernel) ⟨"/srv", by simp⟩⟩
  · simp only [List.forall_mem_singleton]
    exact ⟨stays _ (by simp), by decide⟩
  · simp only [List.forall_mem_singleton]
    exact ⟨stays _ (by simp), by decide⟩
  · exact (two _ _ (stays _ (by simp)) (stays _ (by simp))).mp (by decide)
  · simp only [List.forall_mem_singleton]
    exact ⟨by decide, by decide⟩

/-- `./ ` is a path whose canonical form is blank, a share with nothing below it has the form of the
root, and the current directory is written with a dot. -/
theorem blankName_lost :
    (StaysLocal "./ " ∧ canonicalCorpusPath "./ " = " " ∧
      corpusIdFromPaths (fun bytes => bytes) ["./ "] ≠
        corpusIdFromPaths (fun bytes => bytes) [canonicalCorpusPath "./ "]) ∧
    (StaysLocal "//host/.." ∧ StaysLocal "/" ∧
      canonicalCorpusPath "//host/.." = canonicalCorpusPath "/" ∧
        (placeOf "//host/..").root = .unc ∧ (placeOf "/").root = .absolute) ∧
    StaysLocal "a/.." ∧ canonicalCorpusPath "a/.." = "." := by
  refine ⟨⟨⟨⟨"./ ", by decide⟩, ⟨" ", by decide⟩⟩, by decide, ?_⟩,
    ⟨⟨⟨"//host/..", by decide⟩, ⟨"/", by decide⟩⟩,
      ⟨⟨"/", by decide⟩, ⟨"/", by decide⟩⟩, by decide, by decide,
        by decide⟩,
    ⟨⟨"a/..", by decide⟩, ⟨".", by decide⟩⟩, by decide⟩
  intro same
  have lost : corpusIdFromPaths (fun bytes => bytes) [canonicalCorpusPath "./ "] =
      .error .emptyPath := by
    decide
  rw [lost] at same
  revert same
  have kept : (canonicalCorpusPaths ["./ "]).isOk = true := by decide
  rw [corpusIdFromPaths_eq]
  cases found : canonicalCorpusPaths ["./ "] with
  | error e =>
      rw [found] at kept
      cases kept
  | ok canonical => exact fun same => by cases same

end Ministr.Daemon
