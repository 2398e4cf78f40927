/-
# Embedding.AstSparse — the lexical encoding loses no term

A text is cut into lines, and the lines are dealt out to three roles: what stands in front of the
first line that looks like source, that line, and the rest.  Each role is joined with blanks and
analysed on its own.  No word spans two lines, so whichever line looks like source the roles have
the words of the text, in their order (`words_splitRolesBy`).  A vector has one term for each
distinct hash, in order, so its terms are those of the tokens and no others
(`mem_keys_docVector`), and a document is found by every query that shares a token with it.

Which characters belong to a word, and which are capitals, are parameters; so is the logarithm.
Weights are exact.
-/
import Ministr.Git.Diff
import Ministr.Index.InvertedSearch
import Ministr.Theory.Bytes
import Ministr.Theory.FirstCut
import Ministr.Theory.Lowercase
import Ministr.Theory.SortedMap
import Ministr.Theory.Words
import Mathlib.Data.String.Basic

namespace Ministr.Embedding

open Ministr.Theory Ministr.Git
open Ministr.Content (isWhitespace)
open Ministr.Index (InvertedIndexInner SparseMap SparseOp TermId)

set_option autoImplicit false

/-! ## Tokens -/

/-- What the analyser asks of a character.  Blanks and line ends belong to no word. -/
structure CharClasses where
  isAlphanumeric : Char → Bool
  isUppercase : Char → Bool
  isLowercase : Char → Bool
  final : List Char → List Char → Bool
  blank : isAlphanumeric ' ' = false
  lineFeed : isAlphanumeric '\n' = false
  carriageReturn : isAlphanumeric '\r' = false

/-- The terms of the hashing, FNV-1a. -/
def fnv1a (token : List Char) : TermId :=
  (utf8 (String.ofList token)).foldl (fun h b => (h ^^^ b.toUInt32) * 0x01000193) 0x811c9dc5

/-- The parts found so far, the one being read, and whether a capital would start the next. -/
structure SubtokenState where
  out : List (List Char)
  cur : List Char
  prevLower : Bool
  deriving DecidableEq, Repr

namespace CharClasses

variable (chars : CharClasses)

def lower (text : List Char) : List Char := toLowercase chars.final text

def subtokenStep (s : SubtokenState) (ch : Char) : SubtokenState :=
  if ch = '_' then
    if s.cur ≠ [] then ⟨s.out ++ [chars.lower s.cur], [], false⟩ else { s with prevLower := false }
  else if chars.isUppercase ch && s.prevLower then ⟨s.out ++ [chars.lower s.cur], [ch], false⟩
  else { s with cur := s.cur ++ [ch], prevLower := chars.isLowercase ch || ch.isDigit }

/-- `subtokens`: the word in lower case, and its parts. -/
def subtokens (ident : List Char) : List (List Char) :=
  let s := ident.foldl chars.subtokenStep ⟨[chars.lower ident], [], false⟩
  (if s.cur ≠ [] then s.out ++ [chars.lower s.cur] else s.out).eraseReps

/-- What stands between words. -/
def separates (c : Char) : Bool := !chars.isAlphanumeric c && c != '_'

def analyze (text : List Char) : List (List Char) :=
  (words chars.separates text).flatMap fun raw =>
    (chars.subtokens raw).filter fun t => decide (1 < byteLength t)

end CharClasses

/-! ## Roles -/

def sourcePrefixes : List String :=
  ["///", "//!", "//", "#", "/*", "* ", "pub ", "fn ", "def ", "class ", "func ", "function ",
    "struct ", "impl ", "public ", "private ", "type ", "@", "package ", "import ", "use ",
    "template"]

def looksSource (line : List Char) : Bool :=
  sourcePrefixes.any fun p => p.toList.isPrefixOf (line.dropWhile isWhitespace)

structure Roles where
  doc : List Char
  sig : List Char
  body : List Char
  inSource : Bool
  deriving DecidableEq, Repr

/-- One line, given whether it looks like source. -/
def Roles.addLine (looks : List Char → Bool) (r : Roles) (line : List Char) : Roles :=
  if !r.inSource && looks line then { r with inSource := true, sig := line }
  else if r.inSource then { r with body := r.body ++ line ++ [' '] }
  else { r with doc := r.doc ++ line ++ [' '] }

def splitRolesBy (looks : List Char → Bool) (text : List Char) : Roles :=
  (textLines text).foldl (Roles.addLine looks) ⟨[], [], [], false⟩

/-- `split_roles`. -/
def splitRoles (text : List Char) : Roles := splitRolesBy looksSource text

/-- What stands behind the last mark. -/
def afterLast (mark text : List Char) : Option (List Char) :=
  (cutFirst mark.reverse text.reverse).map fun cut => cut.1.reverse

/-- `replace("::", " ")`. -/
def blankColons : List Char → List Char
  | ':' :: ':' :: rest => ' ' :: blankColons rest
  | c :: rest => c :: blankColons rest
  | [] => []

def nameFromId (id : String) : List Char :=
  blankColons (((afterLast ['#'] id.toList).orElse fun _ => afterLast [':', ':'] id.toList).getD
    id.toList)

/-! ## Vectors -/

instance : IsStrictTotalOrder TermId (· < ·) where
  trichotomous _ _ notLess notMore := UInt32.le_antisymm (UInt32.not_lt.mp notMore)
    (UInt32.not_lt.mp notLess)
  irrefl _ := UInt32.lt_irrefl _
  trans _ _ _ := UInt32.lt_trans

structure SparseVector (K : Type) where
  indices : List TermId
  values : List K
  deriving DecidableEq, Repr

section Vectors

variable {K : Type} [Field K]

/-- `into_iter().unzip()`. -/
def unzipped (map : SortedMap TermId K) : SparseVector K :=
  ⟨map.toList.map Prod.fst, map.toList.map Prod.snd⟩

/-- `0.5`. -/
def half : K := 1 / (2 : ℕ)

variable (K) in
def fieldWeights (name doc sig body : List Char) : List (K × List Char) :=
  [((3 : ℕ), name), ((2 : ℕ), doc), (1 + half, sig), (half, body)]

variable (chars : CharClasses)

/-- How often each term stands in a field. -/
def termFrequencies (field : List Char) : SortedMap TermId K :=
  SortedMap.empty.entries (chars.analyze field) fnv1a fun _ f => f.getD 0 + 1

/-- Add the terms of one field. -/
def addField (acc : SortedMap TermId K) (weighted : K × List Char) : SortedMap TermId K :=
  acc.entries (termFrequencies chars weighted.2).toList Prod.fst fun e x =>
    x.getD 0 + weighted.1 * e.2 / (1 + e.2)

/-- `doc_vector`. -/
def docVector (name doc sig body : List Char) : SortedMap TermId K :=
  (fieldWeights K name doc sig body).foldl (addField chars) SortedMap.empty

/-- The vector of a text under a name. -/
def textVector (name : List Char) (text : String) : SortedMap TermId K :=
  let roles := splitRoles text.toList
  docVector chars name roles.doc roles.sig roles.body

/-- `embed_sparse`, of one text. -/
def embedSparse (text : String) : SparseVector K := unzipped (textVector chars [] text)

/-- `embed_sparse_docs`, of one entry. -/
def embedSparseDocs (id text : String) : SparseVector K :=
  unzipped (textVector chars (nameFromId id) text)

/-- Each term of a query with its weight in the corpus; `ln` is the logarithm. -/
def queryVector (ln : K → K) (index : InvertedIndexInner String K) (text : String) :
    SortedMap TermId K :=
  let nDocs : K := index.lenSparse
  SortedMap.empty.entries ((chars.analyze text.toList).map fnv1a) id fun h x =>
    let df : K := index.docFrequency h
    x.getD (ln (1 + (nDocs - df + half) / (df + half)))

/-- `embed_sparse_query`, of one text. -/
def embedSparseQuery (ln : K → K) (index : InvertedIndexInner String K) (text : String) :
    SparseVector K :=
  unzipped (queryVector chars ln index text)

end Vectors

/-! ## Words across lines and roles -/

section Lines

variable {sep : Char → Bool}

theorem words_intercalate {a : Char} (separates : sep a) (pieces : List (List Char)) :
    words sep ([a].intercalate pieces) = pieces.flatMap (words sep) := by
  induction pieces with
  | nil => rfl
  | cons piece rest ih =>
      by_cases last : rest = []
      · subst last
        simp
      · rw [List.intercalate_cons_of_ne_nil last, List.append_assoc, List.singleton_append,
          words_append_cons piece _ separates, ih, List.flatMap_cons]

theorem words_dropCr (separates : sep '\r') (line : List Char) :
    words sep (dropCr line) = words sep line := by
  unfold dropCr
  split
  · rename_i ends
    obtain ⟨front, rfl⟩ := List.getLast?_eq_some_iff.mp ends
    rw [List.dropLast_concat, words_concat front separates]
  · rfl

/-- No word spans two lines. -/
theorem words_textLines (lineFeed : sep '\n') (carriageReturn : sep '\r') (text : List Char) :
    (textLines text).flatMap (words sep) = words sep text := by
  have pieces : ['\n'].intercalate (text.splitOn '\n') = text := List.intercalate_splitOn '\n'
  have read := words_intercalate lineFeed (text.splitOn '\n')
  rw [pieces] at read
  rw [read]
  obtain ⟨front, last, split⟩ : ∃ front last, text.splitOn '\n' = front ++ [last] :=
    ⟨_, _, (List.dropLast_append_getLast (List.splitOn_ne_nil '\n' text)).symm⟩
  have trimmed : (front.map dropCr).flatMap (words sep) = front.flatMap (words sep) := by
    rw [List.flatMap_map]
    exact congrArg (front.flatMap ·) (funext (words_dropCr carriageReturn))
  simp only [textLines, split, List.dropLast_concat, List.getLast?_concat, List.flatMap_append,
    trimmed, Option.toList_some]
  cases last <;> simp

/-- A text that is empty or ends in a blank: what is put behind it starts a new word. -/
def Closed (text : List Char) : Prop := text = [] ∨ ∃ front, text = front ++ [' ']

theorem words_closed_append (blank : sep ' ') {text : List Char} (closed : Closed text)
    (more : List Char) : words sep (text ++ more) = words sep text ++ words sep more := by
  rcases closed with rfl | ⟨front, rfl⟩
  · rfl
  · rw [words_concat front blank, List.append_assoc, List.singleton_append,
      words_append_cons front more blank]

/-- The roles hold these words, and another line can be put to them. -/
structure Roles.Reads (sep : Char → Bool) (r : Roles) (found : List (List Char)) : Prop where
  doc : Closed r.doc
  body : Closed r.body
  before : r.inSource = false → r.sig = [] ∧ r.body = []
  words : words sep r.doc ++ words sep r.sig ++ words sep r.body = found

theorem Roles.Reads.addLine (blank : sep ' ') {r : Roles} {found : List (List Char)}
    (reads : r.Reads sep found) (looks : List Char → Bool) (line : List Char) :
    (r.addLine looks line).Reads sep (found ++ Theory.words sep line) := by
  have closes : ∀ text : List Char, Closed (text ++ line ++ [' ']) := fun text => .inr ⟨_, rfl⟩
  have grows : ∀ text : List Char, Closed text →
      Theory.words sep (text ++ line ++ [' ']) = Theory.words sep text ++ Theory.words sep line := by
    intro text closed
    rw [words_concat _ blank, words_closed_append blank closed]
  have found := reads.words
  unfold Roles.addLine
  cases inSource : r.inSource with
  | false =>
      obtain ⟨noSig, noBody⟩ := reads.before inSource
      rw [noSig, noBody, words_nil, List.append_nil, List.append_nil] at found
      split
      · refine ⟨reads.doc, reads.body, (fun never => by cases never), ?_⟩
        simp only [noBody, words_nil, List.append_nil]
        rw [found]
      · refine ⟨closes _, reads.body, fun _ => ⟨noSig, noBody⟩, ?_⟩
        simp only [Bool.false_eq_true, if_false, noSig, noBody, words_nil, List.append_nil]
        rw [grows _ reads.doc, found]
  | true =>
      refine ⟨reads.doc, closes _, (fun never => by simp at never), ?_⟩
      simp only [Bool.not_true, Bool.false_and, Bool.false_eq_true, if_false, if_true]
      rw [grows _ reads.body, ← List.append_assoc, found]

theorem Roles.Reads.addLines (blank : sep ' ') {r : Roles} {found : List (List Char)}
    (reads : r.Reads sep found) (looks : List Char → Bool) (lines : List (List Char)) :
    (lines.foldl (Roles.addLine looks) r).Reads sep (found ++ lines.flatMap (Theory.words sep)) := by
  induction lines generalizing r found with
  | nil => simpa using reads
  | cons line lines ih =>
      have later := ih (reads.addLine blank looks line)
      rwa [List.append_assoc, ← List.flatMap_cons] at later

/-- **Whatever looks like source, the roles have the words of the text, in their order.** -/
theorem words_splitRolesBy (blank : sep ' ') (lineFeed : sep '\n') (carriageReturn : sep '\r')
    (looks : List Char → Bool) (text : List Char) :
    words sep (splitRolesBy looks text).doc ++ words sep (splitRolesBy looks text).sig ++
      words sep (splitRolesBy looks text).body = words sep text := by
  have start : Roles.Reads sep ⟨[], [], [], false⟩ [] :=
    ⟨.inl rfl, .inl rfl, fun _ => ⟨rfl, rfl⟩, rfl⟩
  have read := (start.addLines blank looks (textLines text)).words
  rwa [List.nil_append, words_textLines lineFeed carriageReturn] at read

end Lines

namespace CharClasses

variable (chars : CharClasses)

/-- The tokens of the roles are those of the text. -/
theorem analyze_splitRolesBy (looks : List Char → Bool) (text : List Char) :
    chars.analyze (splitRolesBy looks text).doc ++ chars.analyze (splitRolesBy looks text).sig ++
      chars.analyze (splitRolesBy looks text).body = chars.analyze text := by
  have blank : chars.separates ' ' = true := by simp [separates, chars.blank]
  have lineFeed : chars.separates '\n' = true := by simp [separates, chars.lineFeed]
  have carriageReturn : chars.separates '\r' = true := by simp [separates, chars.carriageReturn]
  have read := words_splitRolesBy blank lineFeed carriageReturn looks text
  unfold analyze
  rw [← read, List.flatMap_append, List.flatMap_append]

end CharClasses

/-! ## The terms of a vector -/

section Terms

variable {K : Type} [Field K] (chars : CharClasses)

theorem mem_keys_addField (acc : SortedMap TermId K) (weighted : K × List Char) (h : TermId) :
    h ∈ (addField chars acc weighted).keys ↔
      h ∈ acc.keys ∨ h ∈ (chars.analyze weighted.2).map fnv1a := by
  rw [addField, SortedMap.mem_keys_entries]
  have frequencies := SortedMap.mem_keys_entries (SortedMap.empty : SortedMap TermId K)
    (chars.analyze weighted.2) fnv1a (fun _ f => f.getD 0 + 1) h
  simp only [SortedMap.keys_empty, List.not_mem_nil, false_or] at frequencies
  exact or_congr Iff.rfl frequencies

theorem mem_keys_docVector (name doc sig body : List Char) (h : TermId) :
    h ∈ (docVector chars name doc sig body : SortedMap TermId K).keys ↔
      h ∈ (chars.analyze name).map fnv1a ∨
        h ∈ (chars.analyze doc ++ chars.analyze sig ++ chars.analyze body).map fnv1a := by
  simp only [docVector, fieldWeights, List.foldl_cons, List.foldl_nil, mem_keys_addField,
    SortedMap.keys_empty, List.not_mem_nil, false_or, List.map_append, List.mem_append, or_assoc]

theorem mem_keys_textVector (name : List Char) (text : String) (h : TermId) :
    h ∈ (textVector chars name text : SortedMap TermId K).keys ↔
      h ∈ (chars.analyze name).map fnv1a ∨ h ∈ (chars.analyze text.toList).map fnv1a := by
  rw [textVector, mem_keys_docVector, splitRoles, chars.analyze_splitRolesBy]

theorem mem_keys_queryVector (ln : K → K) (index : InvertedIndexInner String K) (text : String)
    (h : TermId) : h ∈ (queryVector chars ln index text).keys ↔
      h ∈ (chars.analyze text.toList).map fnv1a := by
  rw [queryVector, SortedMap.mem_keys_entries, List.map_id]
  simp

end Terms

/-! ## Finding a document -/

theorem indices_unzipped {K : Type} (map : SortedMap TermId K) :
    (unzipped map).indices = map.keys := rfl

theorem increasing_keys {K : Type} (map : SortedMap TermId K) : map.keys.Pairwise (· < ·) :=
  map.inOrder

theorem zip_unzipped {K : Type} (map : SortedMap TermId K) :
    (unzipped map).indices.zip (unzipped map).values = map.toList := by
  simp only [unzipped]
  induction map.toList with
  | nil => rfl
  | cons e rest ih => rw [List.map_cons, List.map_cons, List.zip_cons_cons, ih]

section Search

variable {K : Type} [Field K] [LinearOrder K]

/-- The answer holds no document twice, so it is no longer than the documents are many. -/
theorem length_ranking_le {m : SparseMap String K} {query : Index.SparseVector K}
    {ranking : List (Index.SparseSearchResult String K)} (ranks : m.Ranking query ranking) :
    ranking.length ≤ m.keys.length := by
  have distinct : (ranking.map Index.SparseSearchResult.id).Nodup := by
    refine List.pairwise_map.mpr (List.Pairwise.imp_of_mem ?_ ranks.sorted)
    intro a b inA inB order same
    obtain ⟨v, held, -, scoreA⟩ := (ranks.complete a).mp inA
    obtain ⟨v', held', -, scoreB⟩ := (ranks.complete b).mp inB
    rw [same, held'] at held
    obtain rfl := Option.some.inj held
    rcases order with less | ⟨-, less⟩
    · rw [scoreA, scoreB] at less
      exact lt_irrefl _ less
    · rw [same] at less
      exact lt_irrefl _ less
  have known : ranking.map Index.SparseSearchResult.id ⊆ m.keys := by
    intro id mem
    obtain ⟨r, inRanking, rfl⟩ := List.mem_map.mp mem
    obtain ⟨v, held, -⟩ := (ranks.complete r).mp inRanking
    exact (Rows.mem_iff_lookup m r.id).mpr ⟨v, held⟩
  have short := (List.subperm_of_subset distinct known).length_le
  rwa [List.length_map] at short

/-- A document is found if its vector and the query's have a term in common. -/
theorem found_of_shared {s : InvertedIndexInner String K} {m : SparseMap String K}
    (holds : Index.Holds s m) {id : String} {vector query : SortedMap TermId K}
    (stored : m.lookup id = some vector.toList) {h : TermId} (held : h ∈ vector.keys)
    (asked : h ∈ query.keys) {k : Nat} (enough : s.lenSparse ≤ k) :
    ∃ results, s.searchSparse (unzipped query).indices (unzipped query).values k = some results ∧
      ∃ r ∈ results, r.id = id := by
  have ranks := holds.ranking_spec query.toList
  have short := length_ranking_le ranks
  rw [holds.lenSparse_eq] at enough
  have answer := holds.searchSparse_eq (unzipped query).indices (unzipped query).values k
  rw [zip_unzipped, List.take_of_length_le (short.trans enough)] at answer
  refine ⟨_, answer, ⟨id, Index.dot query.toList vector.toList⟩, ?_, rfl⟩
  refine (ranks.complete _).mpr ⟨vector.toList, stored, ?_, rfl⟩
  obtain ⟨q, inQuery, rfl⟩ := List.mem_map.mp asked
  obtain ⟨e, inVector, same⟩ := List.mem_map.mp held
  exact ⟨q, inQuery, List.any_eq_true.mpr ⟨e, inVector, decide_eq_true same⟩⟩

variable (chars : CharClasses) (ln : K → K)

/-- **No term is lost.**  The terms of a text are those of its tokens, in order and each once; the
terms of a document are those of its text and of its name; and after any calls on the index a query
finds every document whose text has a token of the query. -/
theorem sparse_terms_complete :
    (∀ text : String, (embedSparse chars text : SparseVector K).indices.Pairwise (· < ·) ∧
      ∀ h, h ∈ (embedSparse chars text : SparseVector K).indices ↔
        h ∈ (chars.analyze text.toList).map fnv1a) ∧
    (∀ id text : String, (embedSparseDocs chars id text : SparseVector K).indices.Pairwise (· < ·) ∧
      ∀ h, h ∈ (embedSparseDocs chars id text : SparseVector K).indices ↔
        h ∈ (chars.analyze (nameFromId id)).map fnv1a ∨
          h ∈ (chars.analyze text.toList).map fnv1a) ∧
    ∀ (ops : List (SparseOp String K)) (id text query : String) (v : SparseVector K),
      v = embedSparse chars text ∨ v = embedSparseDocs chars id text →
      (ops.foldl SparseMap.apply ∅).lookup id = some (v.indices.zip v.values) →
      (∃ token, token ∈ chars.analyze query.toList ∧ token ∈ chars.analyze text.toList) →
      let s := ops.foldl InvertedIndexInner.apply .new
      let q := embedSparseQuery chars ln s query
      ∀ k, s.lenSparse ≤ k → ∃ results, s.searchSparse q.indices q.values k = some results ∧
        ∃ r ∈ results, r.id = id := by
  refine ⟨fun text => ?_, fun id text => ?_, ?_⟩
  · rw [embedSparse, indices_unzipped]
    refine ⟨increasing_keys _, fun h => ?_⟩
    refine (mem_keys_textVector chars [] text h).trans (or_iff_right ?_)
    simp [CharClasses.analyze]
  · rw [embedSparseDocs, indices_unzipped]
    exact ⟨increasing_keys _, mem_keys_textVector chars _ text⟩
  · intro ops id text query v encoded stored shared s q k enough
    obtain ⟨token, asked, held⟩ := shared
    have holds : Index.Holds s (ops.foldl SparseMap.apply ∅) := Index.holds_new.history ops
    have inQuery : fnv1a token ∈ (queryVector chars ln s query).keys :=
      (mem_keys_queryVector chars ln s query _).mpr (List.mem_map_of_mem asked)
    obtain ⟨name, rfl⟩ : ∃ name, v = unzipped (textVector chars name text) := by
      rcases encoded with rfl | rfl
      · exact ⟨[], rfl⟩
      · exact ⟨nameFromId id, rfl⟩
    have inVector : fnv1a token ∈ (textVector chars name text : SortedMap TermId K).keys :=
      (mem_keys_textVector chars name text _).mpr (.inr (List.mem_map_of_mem held))
    rw [zip_unzipped] at stored
    exact found_of_shared holds stored inVector inQuery enough

end Search

/-- The classes of ASCII. -/
def asciiClasses : CharClasses where
  isAlphanumeric := Char.isAlphanum
  isUppercase := Char.isUpper
  isLowercase := Char.isLower
  final _ _ := false
  blank := rfl
  lineFeed := rfl
  carriageReturn := rfl

theorem sparse_terms_complete_retry :
    let text := "Delays a retry.\nfn wait() {}"
    let v : SparseVector ℚ := embedSparseDocs asciiClasses "a.rs#m::wait" text
    let s := InvertedIndexInner.new.insertSparse "a.rs#m::wait" v.indices v.values
    let q := embedSparseQuery asciiClasses (fun x => x) s "retry"
    ∃ results, s.searchSparse q.indices q.values 1 = some results ∧
      ∃ r ∈ results, r.id = "a.rs#m::wait" := by
  intro text v s q
  refine (sparse_terms_complete asciiClasses fun x : ℚ => x).2.2
    [.insert "a.rs#m::wait" v.indices v.values] "a.rs#m::wait" text "retry" v (.inr rfl) ?_
    ⟨"retry".toList, by decide, by decide⟩ 1 ?_
  · simp only [List.foldl_cons, List.foldl_nil, SparseMap.apply]
    rw [Rows.lookup_insert_if, if_pos rfl]
  · decide

end Ministr.Embedding
