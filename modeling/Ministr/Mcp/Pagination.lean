/-
# Mcp.Pagination — collections, page by page

A tool answers with a window of its collection and says in the metadata where the next one starts.
A client that follows the cursors until none is given sees every item once and in order, whatever
limit it asks for, and at each page the metadata counts what is still to come
(`pagination_complete`).  A cursor is a text and any text may come back: it is refused, or it names
an offset and the client sees what stands behind that offset.

A `usize` has 64 bits.  Both sums saturate, and the clamp to the length of the collection makes
them the sums they should be.
-/
import Ministr.Theory.Decimal
import Mathlib.Algebra.Group.Nat.Defs

namespace Ministr.Mcp

open Ministr.Theory

set_option autoImplicit false

/-! ## The metadata -/

/-- `MAX_COLLECTION_PAGE`. -/
def maxCollectionPage : Nat := 500

/-- `usize::MAX`. -/
def usizeMax : Nat := 2 ^ 64 - 1

def saturatingAdd (a b : Nat) : Nat := min (a + b) usizeMax

def cursorLabel : List Char := ['o', 'f', 'f', 's', 'e', 't', ':']

/-- The limit of `page_request`: `clamp(1, MAX_COLLECTION_PAGE)`. -/
def appliedLimit (requestedLimit : Option Nat) (defaultLimit : Nat) : Nat :=
  min (max (requestedLimit.getD defaultLimit) 1) maxCollectionPage

/-- The offset that a cursor names. -/
def cursorOffset (raw : List Char) : Option Nat :=
  parseDecimal (usizeMax + 1)
    (if cursorLabel <+: raw then raw.drop cursorLabel.length else raw)

/-- `page_request`. -/
def pageRequest (offset : Option Nat) (cursor : Option (List Char)) (requestedLimit : Option Nat)
    (defaultLimit : Nat) : Except String (Nat × Nat) :=
  match cursor with
  | none | some [] => .ok (offset.getD 0, appliedLimit requestedLimit defaultLimit)
  | some raw =>
      match cursorOffset raw with
      | some appliedOffset => .ok (appliedOffset, appliedLimit requestedLimit defaultLimit)
      | none => .error "invalid pagination cursor"

structure Pagination where
  limit : Nat
  offset : Option Nat
  cursor : Option (List Char)
  nextCursor : Option (List Char)
  total : Nat
  hasMore : Bool
  omittedCount : Nat
  deriving DecidableEq, Repr

/-- `page_metadata`. -/
def pageMetadata (limit offset returned total : Nat) : Pagination :=
  let consumed := min (saturatingAdd offset returned) total
  let hasMore := decide (consumed < total)
  { limit
    offset := some offset
    cursor := none
    nextCursor := if hasMore then some (cursorLabel ++ Nat.toDigits 10 consumed) else none
    total
    hasMore
    omittedCount := total - consumed }

/-! ## Pages -/

section Pages

variable {α : Type}

structure Page (α : Type) where
  items : List α
  pagination : Pagination

/-- `skip(offset).take(limit)` of the collection, and the metadata. -/
def pageAt (items : List α) (offset limit : Nat) : Page α :=
  let window := (items.drop offset).take limit
  ⟨window, pageMetadata limit offset window.length items.length⟩

/-- What a tool answers. -/
def servePage (items : List α) (offset : Option Nat) (cursor : Option (List Char))
    (requestedLimit : Option Nat) (defaultLimit : Nat) : Except String (Page α) := do
  let (offset, limit) ← pageRequest offset cursor requestedLimit defaultLimit
  return pageAt items offset limit

/-- A client that follows the cursors, for at most so many requests. -/
def visit (items : List α) (offset requestedLimit : Option Nat) (defaultLimit : Nat) :
    Nat → Option (List Char) → Except String (Option (List (Page α)))
  | 0, _ => .ok none
  | requests + 1, cursor => do
      let page ← servePage items offset cursor requestedLimit defaultLimit
      match page.pagination.nextCursor with
      | none => return some [page]
      | some next =>
          let later ← visit items offset requestedLimit defaultLimit requests (some next)
          return later.map fun later => page :: later

end Pages

/-! ## The arithmetic -/

section Metadata

variable {limit offset returned total : Nat}

/-- The sum saturates only where the clamp takes the length anyway. -/
theorem consumed_eq (fits : total ≤ usizeMax) :
    min (saturatingAdd offset returned) total = min (offset + returned) total := by
  rw [saturatingAdd]
  omega

theorem appliedLimit_bounds (requestedLimit : Option Nat) (defaultLimit : Nat) :
    1 ≤ appliedLimit requestedLimit defaultLimit ∧
      appliedLimit requestedLimit defaultLimit ≤ maxCollectionPage := by
  simp only [appliedLimit, maxCollectionPage]
  omega

theorem hasMore_iff (fits : total ≤ usizeMax) :
    (pageMetadata limit offset returned total).hasMore = true ↔ offset + returned < total := by
  simp only [pageMetadata, consumed_eq fits, decide_eq_true_eq]
  omega

theorem omittedCount_eq (fits : total ≤ usizeMax) :
    (pageMetadata limit offset returned total).omittedCount = total - (offset + returned) := by
  simp only [pageMetadata, consumed_eq fits]
  omega

theorem nextCursor_eq (fits : total ≤ usizeMax) :
    (pageMetadata limit offset returned total).nextCursor =
      if offset + returned < total then some (cursorLabel ++ Nat.toDigits 10 (offset + returned))
      else none := by
  simp only [pageMetadata, consumed_eq fits, decide_eq_true_eq]
  by_cases more : offset + returned < total
  · rw [Nat.min_eq_left (Nat.le_of_lt more), if_pos more]
  · rw [Nat.min_eq_right (Nat.le_of_not_lt more), if_neg (Nat.lt_irrefl _), if_neg more]

/-- A cursor that was handed out is read back. -/
theorem pageRequest_cursor {n : Nat} (fits : n ≤ usizeMax) (offset requestedLimit : Option Nat)
    (defaultLimit : Nat) :
    pageRequest offset (some (cursorLabel ++ Nat.toDigits 10 n)) requestedLimit defaultLimit =
      .ok (n, appliedLimit requestedLimit defaultLimit) := by
  have read : cursorOffset (cursorLabel ++ Nat.toDigits 10 n) = some n := by
    rw [cursorOffset, if_pos (List.prefix_append _ _), List.drop_left]
    exact parseDecimal_toDigits (Nat.lt_succ_of_le fits)
  rw [pageRequest, read]
  nofun

/-- Whatever the cursor is, the limit is in its bounds, and the offset is a `usize` when the one
that was asked for is. -/
theorem pageRequest_bounds {offset requestedLimit : Option Nat} {cursor : Option (List Char)}
    {defaultLimit start limit : Nat}
    (accepted : pageRequest offset cursor requestedLimit defaultLimit = .ok (start, limit)) :
    limit = appliedLimit requestedLimit defaultLimit ∧
      (offset.getD 0 ≤ usizeMax → start ≤ usizeMax) := by
  unfold pageRequest at accepted
  split at accepted
  · obtain ⟨rfl, rfl⟩ := Prod.mk.inj (Except.ok.inj accepted)
    exact ⟨rfl, id⟩
  · obtain ⟨rfl, rfl⟩ := Prod.mk.inj (Except.ok.inj accepted)
    exact ⟨rfl, id⟩
  · split at accepted
    · rename_i n read
      obtain ⟨rfl, rfl⟩ := Prod.mk.inj (Except.ok.inj accepted)
      exact ⟨rfl, fun _ => Nat.le_of_lt_succ (parseDecimal_lt read)⟩
    · cases accepted

end Metadata

/-! ## A visit -/

section Visit

variable {α : Type} {items : List α} {offset requestedLimit : Option Nat} {defaultLimit : Nat}

theorem window_eq (items : List α) (offset limit : Nat) :
    (items.drop offset).take limit = (items.take (min (offset + limit) items.length)).drop offset := by
  rw [← List.take_eq_take_min, List.drop_take]
  congr 1
  omega

/-- What the metadata of a page says of the pages behind it. -/
structure Page.Announces (items : List α) (limit : Nat) (page : Page α) (later : List (Page α)) :
    Prop where
  window : ∀ start ∈ page.pagination.offset,
    page.items = (items.take (min (start + limit) items.length)).drop start
  omitted : page.pagination.omittedCount = (later.flatMap Page.items).length
  more : page.pagination.hasMore = true ↔ 0 < page.pagination.omittedCount
  next : page.pagination.nextCursor.isSome = page.pagination.hasMore

/-- The pages of a visit that starts at an offset. -/
structure Complete (items : List α) (limit start : Nat) (pages : List (Page α)) : Prop where
  whole : pages.flatMap Page.items = items.drop start
  announced : ∀ before page later, pages = before ++ page :: later →
    page.Announces items limit later

theorem length_pageAt (items : List α) (start limit : Nat) :
    (pageAt items start limit).items.length = min limit (items.length - start) := by
  rw [pageAt, List.length_take, List.length_drop]

theorem nextCursor_pageAt (fits : items.length ≤ usizeMax) (start limit : Nat) :
    (pageAt items start limit).pagination.nextCursor =
      if start + (pageAt items start limit).items.length < items.length then
        some (cursorLabel ++ Nat.toDigits 10 (start + (pageAt items start limit).items.length))
      else none :=
  nextCursor_eq fits

/-- A page announces what stands behind its window. -/
theorem announces_pageAt (fits : items.length ≤ usizeMax) {limit start : Nat} {later : List (Page α)}
    (rest : later.flatMap Page.items =
      items.drop (start + (pageAt items start limit).items.length)) :
    (pageAt items start limit).Announces items limit later where
  window := by
    intro _ mem
    obtain rfl := Option.mem_some_iff.mp mem
    exact window_eq items start limit
  omitted := by
    rw [rest, List.length_drop]
    exact omittedCount_eq fits
  more := by
    refine (hasMore_iff fits).trans ?_
    rw [show (pageAt items start limit).pagination.omittedCount = _ from omittedCount_eq fits]
    omega
  next := by
    rw [Bool.eq_iff_iff, nextCursor_pageAt fits]
    refine Iff.trans ?_ (hasMore_iff fits).symm
    by_cases more : start + (pageAt items start limit).items.length < items.length
    · rw [if_pos more]
      exact iff_of_true rfl more
    · rw [if_neg more]
      exact iff_of_false nofun more

theorem Complete.cons (fits : items.length ≤ usizeMax) {limit start : Nat} {pages : List (Page α)}
    (complete : Complete items limit (start + (pageAt items start limit).items.length) pages) :
    Complete items limit start (pageAt items start limit :: pages) where
  whole := by
    rw [List.flatMap_cons, complete.whole, ← List.drop_drop]
    exact (List.prefix_iff_eq_append.mp (List.take_prefix limit (items.drop start)))
  announced := by
    intro before other later split
    cases before with
    | nil =>
        obtain ⟨rfl, rfl⟩ := List.cons.inj split
        exact announces_pageAt fits complete.whole
    | cons first before => exact complete.announced before other later (List.cons.inj split).2

theorem visit_last {requests : Nat} {cursor : Option (List Char)} {page : Page α}
    (served : servePage items offset cursor requestedLimit defaultLimit = .ok page)
    (last : page.pagination.nextCursor = none) :
    visit items offset requestedLimit defaultLimit (requests + 1) cursor = .ok (some [page]) := by
  simp only [visit, served, Except.bind, bind, last]
  rfl

theorem visit_next {requests : Nat} {cursor : Option (List Char)} {page : Page α}
    {next : List Char} {pages : List (Page α)}
    (served : servePage items offset cursor requestedLimit defaultLimit = .ok page)
    (more : page.pagination.nextCursor = some next)
    (visited : visit items offset requestedLimit defaultLimit requests (some next) =
      .ok (some pages)) :
    visit items offset requestedLimit defaultLimit (requests + 1) cursor =
      .ok (some (page :: pages)) := by
  simp only [visit, served, Except.bind, bind, more, visited]
  rfl

theorem visit_from (fits : items.length ≤ usizeMax) {requests : Nat} {cursor : Option (List Char)}
    {start limit : Nat}
    (accepted : pageRequest offset cursor requestedLimit defaultLimit = .ok (start, limit))
    (enough : items.length - start < requests) :
    ∃ pages, visit items offset requestedLimit defaultLimit requests cursor = .ok (some pages) ∧
      Complete items limit start pages := by
  induction requests generalizing cursor start with
  | zero => cases enough
  | succ requests ih =>
      have same := (pageRequest_bounds accepted).1
      have positive : 1 ≤ limit := same ▸ (appliedLimit_bounds requestedLimit defaultLimit).1
      have served : servePage items offset cursor requestedLimit defaultLimit =
          .ok (pageAt items start limit) := by
        rw [servePage, accepted]
        rfl
      have next := nextCursor_pageAt fits start limit
      have size := length_pageAt items start limit
      by_cases more : start + (pageAt items start limit).items.length < items.length
      · rw [if_pos more] at next
        have again : pageRequest offset (some (cursorLabel ++ Nat.toDigits 10
            (start + (pageAt items start limit).items.length))) requestedLimit defaultLimit =
            .ok (start + (pageAt items start limit).items.length, limit) := by
          rw [pageRequest_cursor (by omega), same]
        obtain ⟨pages, visited, complete⟩ := ih again (by omega)
        exact ⟨_, visit_next served next visited, complete.cons fits⟩
      · rw [if_neg more] at next
        refine ⟨_, visit_last served next, .cons fits ⟨?_, ?_⟩⟩
        · rw [List.drop_eq_nil_of_le (Nat.le_of_not_lt more)]
          rfl
        · intro before page later split
          simp at split

/-- **A client that follows the cursors sees the whole collection, in order and once**, whatever
limit it asks for.  From any other offset or cursor that is accepted it sees what stands behind that
offset.  At each page `omitted_count` is the number of items still to come, and no sum is cut
short. -/
theorem pagination_complete (items : List α) (fits : items.length ≤ usizeMax)
    (requestedLimit : Option Nat) (defaultLimit : Nat) :
    (∃ pages, visit items none requestedLimit defaultLimit (items.length + 1) none =
        .ok (some pages) ∧
      pages.flatMap Page.items = items ∧
      Complete items (appliedLimit requestedLimit defaultLimit) 0 pages) ∧
    (∀ offset cursor start limit,
      pageRequest offset cursor requestedLimit defaultLimit = .ok (start, limit) →
      1 ≤ limit ∧ limit ≤ maxCollectionPage ∧ (offset.getD 0 ≤ usizeMax → start ≤ usizeMax) ∧
      ∃ pages, visit items offset requestedLimit defaultLimit (items.length + 1) cursor =
        .ok (some pages) ∧ Complete items limit start pages) ∧
    ∀ limit offset returned,
      ((pageMetadata limit offset returned items.length).hasMore = true ↔
        offset + returned < items.length) ∧
      (pageMetadata limit offset returned items.length).omittedCount =
        items.length - (offset + returned) := by
  refine ⟨?_, fun offset cursor start limit accepted => ?_, fun limit offset returned =>
    ⟨hasMore_iff fits, omittedCount_eq fits⟩⟩
  · have accepted : pageRequest none none requestedLimit defaultLimit =
        .ok (0, appliedLimit requestedLimit defaultLimit) := rfl
    obtain ⟨pages, visited, complete⟩ := visit_from fits accepted (Nat.lt_succ_self _)
    exact ⟨pages, visited, complete.whole, complete⟩
  · obtain ⟨rfl, bounded⟩ := pageRequest_bounds accepted
    have limits := appliedLimit_bounds requestedLimit defaultLimit
    exact ⟨limits.1, limits.2, bounded, visit_from fits accepted (by omega)⟩

/-- Three items, two at a time. -/
theorem pagination_complete_three :
    ∃ pages, visit ['a', 'b', 'c'] none (some 2) 100 4 none = .ok (some pages) ∧
      pages.flatMap Page.items = ['a', 'b', 'c'] ∧
      Complete ['a', 'b', 'c'] (appliedLimit (some 2) 100) 0 pages :=
  (pagination_complete ['a', 'b', 'c'] (by decide) (some 2) 100).1

end Visit

end Ministr.Mcp
