/-
# Content.Document — document trees and the ids their vectors carry

A parser turns a file into a tree of sections.  Before anything is stored, the
section ids of a tree are made distinct, so that the rows of `sections` and
`claims` and the vector ids of the tree name the same things.

`Sections` is a `Vec<Section>`: each section with its own children, and the
sections after it.  No function here reads the structural nodes of a section (code
blocks, tables, lists); `Ingestion.Reshape` adds them.
-/
import Ministr.Theory.Rows
import Ministr.Theory.Words

namespace Ministr.Content

open Ministr.Theory

set_option autoImplicit false

/-! ## Text -/

/-- `char::is_whitespace`. -/
def isWhitespace (c : Char) : Bool :=
  let n := c.toNat
  decide (9 ≤ n ∧ n ≤ 13) || n == 32 || n == 0x85 || n == 0xA0 || n == 0x1680
    || decide (0x2000 ≤ n ∧ n ≤ 0x200A) || n == 0x2028 || n == 0x2029 || n == 0x202F
    || n == 0x205F || n == 0x3000

def trimStart (text : List Char) : List Char := text.dropWhile isWhitespace

def trim (text : List Char) : List Char := (trimStart (trimStart text).reverse).reverse

/-- `s.trim().is_empty()`. -/
def blank (s : String) : Bool := s.toList.all isWhitespace

/-- `text.starts_with(start)`. -/
def startsWith (text start : String) : Bool := start.toList.isPrefixOf text.toList

/-- `str::split_whitespace`. -/
def splitWhitespace (s : String) : List String :=
  (words isWhitespace s.toList).map String.ofList

/-- The words from here on; `inWord` when the character before belongs to one. -/
def countWords (inWord : Bool) : List Char → Nat
  | [] => 0
  | c :: text =>
      if isWhitespace c then countWords false text
      else if inWord then countWords true text
      else countWords true text + 1

/-- `split_whitespace().count()`. -/
def wordCount (s : String) : Nat := countWords false s.toList

/-- `split("\n\n")`; `current` is the piece being read, last character first. -/
def splitParagraphs (current : List Char) : List Char → List (List Char)
  | [] => [current.reverse]
  | '\n' :: '\n' :: text => current.reverse :: splitParagraphs [] text
  | c :: text => splitParagraphs (c :: current) text

/-! ## Vector ids -/

/-- `VectorId`, by its constructors. -/
inductive VectorId where
  | docSummary (docId : String)
  | secSummary (sectionId : String)
  | section (sectionId : String)
  | claim (claimId : String)
  | symbolStub (symbolId : String)
  | symbolFull (symbolId : String)
  deriving DecidableEq, Repr

/-- `VectorId::as_str`. -/
def VectorId.asStr : VectorId → String
  | .docSummary docId => "doc-summary::" ++ docId
  | .secSummary sectionId => "sec-summary::" ++ sectionId
  | .section sectionId => "section::" ++ sectionId
  | .claim claimId => "claim::" ++ claimId
  | .symbolStub symbolId => "symbol-stub::" ++ symbolId
  | .symbolFull symbolId => "symbol-full::" ++ symbolId

/-- A vector id can be read back from its text: no tag starts another one. -/
theorem VectorId.asStr_injective {a b : VectorId} (same : a.asStr = b.asStr) : a = b := by
  have text : a.asStr.toList = b.asStr.toList := by rw [same]
  clear same
  cases a <;> cases b <;> simp [VectorId.asStr, String.toList_append, String.toList_inj] at text ⊢
  all_goals exact text

/-! ## Trees -/

structure Claim where
  id : String
  text : String
  sectionId : String
  deriving DecidableEq, Repr

/-- A section without its children. -/
structure SectionBody where
  id : String
  headingPath : List String
  depth : Nat
  text : String
  claims : List Claim
  summary : Option String
  deriving DecidableEq, Repr

/-- A list of sections: the first one, its children, and the sections after it. -/
inductive Sections where
  | nil
  | cons (head : SectionBody) (children rest : Sections)
  deriving DecidableEq, Repr

structure DocumentTree where
  id : String
  title : String
  sourcePath : String
  sections : Sections
  summary : Option String
  deriving DecidableEq, Repr

namespace Sections

/-- Every section of the tree, in document order. -/
def bodies : Sections → List SectionBody
  | nil => []
  | cons head children rest => head :: (children.bodies ++ rest.bodies)

def ids (sections : Sections) : List String := sections.bodies.map SectionBody.id

def append : Sections → Sections → Sections
  | nil, more => more
  | cons head children rest, more => cons head children (rest.append more)

def mapBodies (f : SectionBody → SectionBody) : Sections → Sections
  | nil => nil
  | cons head children rest => cons (f head) (children.mapBodies f) (rest.mapBodies f)

@[simp] theorem bodies_mapBodies (f : SectionBody → SectionBody) (sections : Sections) :
    (sections.mapBodies f).bodies = sections.bodies.map f := by
  induction sections with
  | nil => rfl
  | cons head children rest ihChildren ihRest =>
      simp [mapBodies, bodies, ihChildren, ihRest]

end Sections

/-! ## Distinct section ids -/

/-- The candidates `deduplicate_ids` tries: `2 .. u64::MAX`. -/
def dedupCandidates : Nat := 2 ^ 64 - 3

/-- The first of `original-n`, `original-(n+1)`, … that is not taken. -/
def firstFree (seen : List String) (original : String) : Nat → Nat → Option String
  | 0, _ => none
  | fuel + 1, n =>
      let candidate := original ++ "-" ++ toString n
      if candidate ∈ seen then firstFree seen original fuel (n + 1) else some candidate

/-- A section moved to a new id, with its claims. -/
def SectionBody.rename (body : SectionBody) (deduped : String) : SectionBody :=
  { body with
    id := deduped
    claims := body.claims.zipIdx.map fun (claim, i) =>
      { claim with id := deduped ++ ":c" ++ toString i, sectionId := deduped } }

/-- What becomes of one section; `none` is the `expect` that finds no candidate. -/
def SectionBody.deduplicate (seen : List String) (body : SectionBody) : Option SectionBody :=
  if body.id ∈ seen then (firstFree seen body.id dedupCandidates 2).map body.rename
  else some body

/-- `dedup_section_ids_recursive`, with the ids seen so far. -/
def Sections.dedup (seen : List String) : Sections → Option (Sections × List String)
  | .nil => some (.nil, seen)
  | .cons head children rest =>
      match head.deduplicate seen with
      | none => none
      | some head =>
          match children.dedup (head.id :: seen) with
          | none => none
          | some (children, seen) =>
              match rest.dedup seen with
              | none => none
              | some (rest, seen) => some (.cons head children rest, seen)

/-- `DocumentTree::deduplicate_ids`. -/
def DocumentTree.deduplicateIds (doc : DocumentTree) : Option DocumentTree :=
  (doc.sections.dedup []).map fun (sections, _) => { doc with sections }

theorem firstFree_not_mem {seen : List String} {original : String} {fuel n : Nat} {id : String}
    (found : firstFree seen original fuel n = some id) : id ∉ seen := by
  induction fuel generalizing n with
  | zero => simp [firstFree] at found
  | succ fuel ih =>
      simp only [firstFree] at found
      split at found
      · exact ih found
      · rename_i free
        cases found
        exact free

theorem deduplicate_not_mem {seen : List String} {body body' : SectionBody}
    (done : body.deduplicate seen = some body') : body'.id ∉ seen := by
  unfold SectionBody.deduplicate at done
  split at done
  · obtain ⟨id, found, rfl⟩ := Option.map_eq_some_iff.mp done
    exact firstFree_not_mem found
  · rename_i free
    cases done
    exact free

/-- The ids a deduplicated tree ends up with are distinct and were not taken. -/
theorem Sections.dedup_ids {seen seen' : List String} {sections sections' : Sections}
    (done : sections.dedup seen = some (sections', seen')) :
    sections'.ids.Nodup ∧ (∀ id ∈ sections'.ids, id ∉ seen) ∧
      ∀ id, id ∈ seen' ↔ id ∈ sections'.ids ∨ id ∈ seen := by
  induction sections generalizing seen seen' sections' with
  | nil =>
      simp only [Sections.dedup, Option.some.injEq, Prod.mk.injEq] at done
      obtain ⟨rfl, rfl⟩ := done
      simp [Sections.ids, Sections.bodies]
  | cons head children rest ihChildren ihRest =>
      simp only [Sections.dedup] at done
      split at done
      · cases done
      · rename_i first named
        split at done
        · cases done
        · rename_i inner seen₁ ranChildren
          split at done
          · cases done
          · rename_i later seen₂ ranRest
            cases done
            obtain ⟨nodupInner, freshInner, seenInner⟩ := ihChildren ranChildren
            obtain ⟨nodupLater, freshLater, seenLater⟩ := ihRest ranRest
            have free := deduplicate_not_mem named
            have split : (Sections.cons first inner later).ids =
                first.id :: (inner.ids ++ later.ids) := by
              simp [Sections.ids, Sections.bodies]
            rw [split]
            refine ⟨?_, ?_, ?_⟩
            · rw [List.nodup_cons, List.nodup_append]
              refine ⟨?_, nodupInner, nodupLater, ?_⟩
              · intro mem
                rcases List.mem_append.mp mem with mem | mem
                · exact freshInner _ mem List.mem_cons_self
                · exact freshLater _ mem ((seenInner _).mpr (.inr List.mem_cons_self))
              · intro a inInner b inLater same
                subst same
                exact freshLater a inLater ((seenInner a).mpr (.inl inInner))
            · intro id mem taken
              rcases List.mem_cons.mp mem with rfl | mem
              · exact free taken
              rcases List.mem_append.mp mem with mem | mem
              · exact freshInner id mem (List.mem_cons_of_mem _ taken)
              · exact freshLater id mem ((seenInner id).mpr (.inr (List.mem_cons_of_mem _ taken)))
            · intro id
              rw [seenLater, seenInner]
              simp only [List.mem_cons, List.mem_append]
              tauto

end Ministr.Content
