/-
# Service.Impact — what a change to a symbol can break

`compute_impact` walks the call graph from a symbol, towards its callers or its callees, breadth
first and at most ten levels deep.  What it reports does not depend on the order in which the
store lists references: each stored symbol within the depth, once, at its distance, and in the
order of distance, file and name (`computeImpact_spec`).

The store counts callers for the listings of symbols by a recursive query.  The two agree but for
a symbol that calls itself, directly or not: the query counts it among its own callers
(`transitiveCallerCounts_computeImpact`).
-/
import Ministr.Content.SymbolSearch
import Ministr.Ingestion.SymbolGraph
import Ministr.Theory.Breadth
import Ministr.Theory.SetOrder
import Mathlib.Data.Finset.Union
import Mathlib.Data.Prod.Lex
import Mathlib.Data.String.Basic

namespace Ministr.Service

open Ministr.Theory Ministr.Content

set_option autoImplicit false

/-- `is_test_path`. -/
def isTestPath (path : String) : Bool :=
  let lower := (toAsciiLowercase path).toList
  let contains := fun part : String => decide (part.toList <:+: lower)
  let endsWith := fun part : String => decide (part.toList <:+ lower)
  contains "/tests/" || contains "\\tests\\" || contains "/test/" || contains "\\test\\" ||
    endsWith "_test.rs" || endsWith "_test.go" || endsWith "_test.py" || endsWith ".test.ts" ||
    endsWith ".test.tsx" || endsWith ".test.js" || endsWith ".test.jsx" || endsWith ".spec.ts" ||
    endsWith ".spec.tsx" || endsWith ".spec.js" || endsWith ".spec.jsx" || endsWith "_spec.rb"

/-- `QueryError`, as far as the walk returns it. -/
inductive QueryError where
  | symbolNotFound (id : String)
  deriving DecidableEq, Repr

inductive CallDirection where
  | incoming | outgoing
  deriving DecidableEq, Repr

inductive ImpactRisk where
  | low | medium | high
  deriving DecidableEq, Repr

/-- `compute_risk`. -/
def computeRisk (symbols files tests : Nat) : ImpactRisk :=
  let score := symbols + files * 2 + tests * 3
  if 50 < score ∨ 10 < files then .high
  else if 15 < score ∨ 3 < files then .medium
  else .low

structure ImpactCaller where
  symbolId : String
  name : String
  kind : String
  file : String
  line : Nat
  depth : Nat
  deriving DecidableEq, Repr

/-- The order of the report: depth, then file, then name. -/
def ImpactCaller.rank (c : ImpactCaller) : Nat ×ₗ (String ×ₗ String) :=
  toLex (c.depth, toLex (c.file, c.name))

structure ImpactResult where
  targetSymbolId : String
  direction : CallDirection
  depth : Nat
  symbols : Nat
  files : Nat
  tests : Nat
  risk : ImpactRisk
  callers : List ImpactCaller
  deriving DecidableEq, Repr

/-! ## The walk -/

section Walk

variable (order : SetOrder SymbolRef) (s : ContentStore)

/-- `get_symbol`. -/
def getSymbol (id : String) : Option SymbolRecord :=
  (s.symbols.lookup id).map fun row => { row with id }

/-- `query_refs`: the references at either end of which the symbol is. -/
def queryRefs (id : String) (kind : Option RefKind) : List SymbolRef :=
  order.read (s.symbolRefs.filter fun r =>
    (r.fromSymbolId = id ∨ r.toSymbolId = id) ∧ (∀ k ∈ kind, r.refKind = k))

/-- The symbol that a reference leads to, if the reference has the right end at the target. -/
def CallDirection.neighbour (direction : CallDirection) (target : String) (r : SymbolRef) :
    Option String :=
  match direction with
  | .incoming => if r.toSymbolId = target then some r.fromSymbolId else none
  | .outgoing => if r.fromSymbolId = target then some r.toSymbolId else none

/-- The neighbours that one level of the walk looks at. -/
def neighbours (direction : CallDirection) (target : String) : List String :=
  (queryRefs order s target (some .calls)).filterMap (direction.neighbour target)

def impactCaller (sym : SymbolRecord) (depth : Nat) : ImpactCaller where
  symbolId := sym.id
  name := sym.name
  kind := sym.kind
  file := sym.filePath
  line := sym.lineStart
  depth := depth

/-- `distinct_files`, as a set. -/
def filesOf (callers : List ImpactCaller) : Finset String :=
  (callers.map ImpactCaller.file).toFinset

/-- `compute_impact`. -/
def computeImpact (symbolId : String) (maxDepth : Nat) (direction : CallDirection)
    (testsOnly : Bool) : Except QueryError ImpactResult :=
  match getSymbol s symbolId with
  | none => .error (.symbolNotFound symbolId)
  | some _ =>
      let depthCap := min (max maxDepth 1) 10
      let reached := Breadth.search (neighbours order s direction) (getSymbol s) depthCap symbolId
      let callers := reached.map fun e => impactCaller e.2.1 e.2.2
      let callers := if testsOnly then callers.filter fun c => isTestPath c.file else callers
      let callers := callers.mergeSort fun a b => a.rank ≤ b.rank
      let distinctFiles := filesOf callers
      let testFiles := distinctFiles.filter fun file => isTestPath file
      .ok
        { targetSymbolId := symbolId
          direction
          depth := depthCap
          symbols := callers.length
          files := distinctFiles.card
          tests := testFiles.card
          risk := computeRisk callers.length distinctFiles.card testFiles.card
          callers }

end Walk

/-! ## What is reported -/

/-- A call leads from one symbol to the next, in the direction of the walk. -/
def Linked (s : ContentStore) (direction : CallDirection) (a b : String) : Prop :=
  match direction with
  | .incoming => ⟨b, a, .calls⟩ ∈ s.symbolRefs
  | .outgoing => ⟨a, b, .calls⟩ ∈ s.symbolRefs

/-- The least number of calls over which a symbol is reached through stored symbols. -/
abbrev CallDistance (s : ContentStore) (direction : CallDirection) (target : String) (n : Nat)
    (id : String) : Prop :=
  Breadth.Distance (Linked s direction) (getSymbol s) target n id

section Report

variable {order : SetOrder SymbolRef} {s : ContentStore}

theorem getSymbol_id {id : String} {sym : SymbolRecord} (found : getSymbol s id = some sym) :
    sym.id = id := by
  obtain ⟨row, -, rfl⟩ := Option.map_eq_some_iff.mp found
  rfl

theorem mem_queryRefs {id : String} {kind : Option RefKind} {r : SymbolRef} :
    r ∈ queryRefs order s id kind ↔ r ∈ s.symbolRefs ∧
      (r.fromSymbolId = id ∨ r.toSymbolId = id) ∧ ∀ k ∈ kind, r.refKind = k := by
  rw [queryRefs, SetOrder.mem_read, Finset.mem_filter]

theorem mem_neighbours (order : SetOrder SymbolRef) (s : ContentStore) (direction : CallDirection)
    (target id : String) :
    id ∈ neighbours order s direction target ↔ Linked s direction target id := by
  rw [neighbours, List.mem_filterMap]
  constructor
  · rintro ⟨⟨a, b, kind⟩, mem, leads⟩
    obtain ⟨stored, -, isCall⟩ := mem_queryRefs.mp mem
    obtain rfl : kind = .calls := isCall .calls rfl
    cases direction with
    | incoming =>
        obtain ⟨rfl, same⟩ := Option.ite_none_right_eq_some.mp leads
        obtain rfl := Option.some.inj same
        exact stored
    | outgoing =>
        obtain ⟨rfl, same⟩ := Option.ite_none_right_eq_some.mp leads
        obtain rfl := Option.some.inj same
        exact stored
  · intro linked
    have isCall : ∀ k ∈ some RefKind.calls, RefKind.calls = k := fun k same => Option.some.inj same
    cases direction with
    | incoming => exact ⟨_, mem_queryRefs.mpr ⟨linked, .inr rfl, isCall⟩, if_pos rfl⟩
    | outgoing => exact ⟨_, mem_queryRefs.mpr ⟨linked, .inl rfl, isCall⟩, if_pos rfl⟩

/-- What a list of reached symbols must hold: each within the depth, once, in order. -/
structure Reports (s : ContentStore) (target : String) (cap : Nat) (direction : CallDirection)
    (testsOnly : Bool) (callers : List ImpactCaller) : Prop where
  distinct : (callers.map ImpactCaller.symbolId).Nodup
  sorted : callers.Pairwise fun a b => a.rank ≤ b.rank
  mem_iff : ∀ c, c ∈ callers ↔ ∃ sym, getSymbol s c.symbolId = some sym ∧
    c = impactCaller sym c.depth ∧ c.symbolId ≠ target ∧ c.depth ≤ cap ∧
    CallDistance s direction target c.depth c.symbolId ∧
    (testsOnly = true → isTestPath c.file = true)

/-- A report is exact. -/
structure ImpactResult.Exact (s : ContentStore) (target : String) (maxDepth : Nat)
    (direction : CallDirection) (testsOnly : Bool) (r : ImpactResult) : Prop where
  isTarget : r.targetSymbolId = target
  isDirection : r.direction = direction
  depth : r.depth = min (max maxDepth 1) 10
  reports : Reports s target r.depth direction testsOnly r.callers
  symbols : r.symbols = r.callers.length
  files : r.files = (filesOf r.callers).card
  tests : r.tests = ((filesOf r.callers).filter fun file => isTestPath file).card
  risk : r.risk = computeRisk r.symbols r.files r.tests

/-- What the walk notes, before it is filtered and sorted. -/
theorem reached_spec (order : SetOrder SymbolRef) (s : ContentStore) (direction : CallDirection)
    (cap : Nat) (target : String) :
    ((((Breadth.search (neighbours order s direction) (getSymbol s) cap target).map fun e =>
        impactCaller e.2.1 e.2.2).map ImpactCaller.symbolId).Nodup) ∧
      ∀ c, c ∈ ((Breadth.search (neighbours order s direction) (getSymbol s) cap target).map fun e =>
        impactCaller e.2.1 e.2.2) ↔ ∃ sym, getSymbol s c.symbolId = some sym ∧
          c = impactCaller sym c.depth ∧ c.symbolId ≠ target ∧ c.depth ≤ cap ∧
          CallDistance s direction target c.depth c.symbolId := by
  obtain ⟨nodup, found⟩ := Breadth.search_spec (getSymbol s)
    (mem_neighbours order s direction) cap target
  generalize Breadth.search (neighbours order s direction) (getSymbol s) cap target = reached
    at nodup found
  constructor
  · have keys : (reached.map fun e => impactCaller e.2.1 e.2.2).map ImpactCaller.symbolId =
        reached.map Prod.fst := by
      rw [List.map_map]
      refine List.map_congr_left fun e mem => ?_
      exact getSymbol_id ((found e.1 e.2.1 e.2.2).mp mem).1
    rw [keys]
    exact nodup
  · intro c
    rw [List.mem_map]
    constructor
    · rintro ⟨⟨id, sym, depth⟩, mem, rfl⟩
      obtain ⟨isRead, other, le, near⟩ := (found id sym depth).mp mem
      obtain rfl := getSymbol_id isRead
      exact ⟨sym, isRead, rfl, other, le, near⟩
    · rintro ⟨sym, isRead, whole, other, le, near⟩
      exact ⟨(c.symbolId, sym, c.depth), (found _ _ _).mpr ⟨isRead, other, le, near⟩, whole.symm⟩

theorem computeImpact_exact (order : SetOrder SymbolRef) (s : ContentStore) (symbolId : String)
    (maxDepth : Nat) (direction : CallDirection) (testsOnly : Bool)
    (isStored : (getSymbol s symbolId).isSome) :
    ∃ r, computeImpact order s symbolId maxDepth direction testsOnly = .ok r ∧
      r.Exact s symbolId maxDepth direction testsOnly := by
  obtain ⟨sym, found⟩ := Option.isSome_iff_exists.mp isStored
  rw [computeImpact, found]
  refine ⟨_, rfl, rfl, rfl, rfl, ?_, rfl, rfl, rfl, rfl⟩
  obtain ⟨nodup, mem_iff⟩ := reached_spec order s direction (min (max maxDepth 1) 10) symbolId
  dsimp only
  generalize ((Breadth.search (neighbours order s direction) (getSymbol s)
    (min (max maxDepth 1) 10) symbolId).map fun e => impactCaller e.2.1 e.2.2) = reached
    at nodup mem_iff
  refine ⟨?_, pairwise_mergeSort_key ImpactCaller.rank _, fun c => ?_⟩
  · refine (((List.mergeSort_perm _ _).map ImpactCaller.symbolId).nodup_iff).mpr ?_
    cases testsOnly with
    | false => exact nodup
    | true => exact nodup.sublist (List.filter_sublist.map ImpactCaller.symbolId)
  · rw [List.mem_mergeSort]
    cases testsOnly with
    | false => simp only [Bool.false_eq_true, if_false, false_implies, and_true, mem_iff]
    | true =>
        simp only [if_true, List.mem_filter, mem_iff, forall_const]
        constructor
        · rintro ⟨⟨sym, isRead, whole, other, le, near⟩, isTest⟩
          exact ⟨sym, isRead, whole, other, le, near, isTest⟩
        · rintro ⟨sym, isRead, whole, other, le, near, isTest⟩
          exact ⟨⟨sym, isRead, whole, other, le, near⟩, isTest⟩

/-- **An impact lists the stored symbols within the depth, each once and at its distance**,
whatever the order in which references are read; only a missing symbol is an error. -/
theorem computeImpact_spec (order : SetOrder SymbolRef) (s : ContentStore) (symbolId : String)
    (maxDepth : Nat) (direction : CallDirection) (testsOnly : Bool) :
    (getSymbol s symbolId = none ∧
        computeImpact order s symbolId maxDepth direction testsOnly =
          .error (.symbolNotFound symbolId)) ∨
      ((getSymbol s symbolId).isSome ∧
        ∃ r, computeImpact order s symbolId maxDepth direction testsOnly = .ok r ∧
          r.Exact s symbolId maxDepth direction testsOnly) := by
  cases found : getSymbol s symbolId with
  | none =>
      rw [computeImpact, found]
      exact .inl ⟨rfl, rfl⟩
  | some sym =>
      have isStored : (getSymbol s symbolId).isSome := by rw [found]; rfl
      exact .inr ⟨rfl, computeImpact_exact order s symbolId maxDepth direction testsOnly isStored⟩

end Report

/-! ## Counting callers in the store -/

section Count

variable (s : ContentStore)

/-- `FROM symbol_refs WHERE to_symbol_id = ?1 AND ref_kind = 'calls'`. -/
def callersOf (id : String) : Finset String :=
  (s.symbolRefs.filter fun r => r.toSymbolId = id ∧ r.refKind = .calls).image
    SymbolRef.fromSymbolId

/-- What the second part of the recursive query makes of a row of `callers(id, depth)`. -/
def callerRowsAfter (row : String × Nat) : Finset (String × Nat) :=
  if row.2 < 10 then (callersOf s row.1).image fun id => (id, row.2 + 1) else ∅

/-- The rows of `callers` after some rounds of the second part. -/
def callerRows (target : String) : Nat → Finset (String × Nat)
  | 0 => (callersOf s target).image fun id => (id, 1)
  | round + 1 => callerRows target round ∪ (callerRows target round).biUnion (callerRowsAfter s)

/-- `SELECT COUNT(DISTINCT id) FROM callers`.  A tenth round adds nothing
(`callerRows_closed`). -/
def callerCount (target : String) : Nat := ((callerRows s target 9).image Prod.fst).card

/-- `transitive_caller_counts`. -/
def transitiveCallerCounts (symbolIds : List String) : Rows String Nat :=
  symbolIds.foldl (fun result id =>
    if 0 < callerCount s id then result.insert id (callerCount s id) else result) ∅

/-- The symbol calls itself over at most ten calls. -/
def CallsItself (id : String) : Prop :=
  ∃ n, 1 ≤ n ∧ n ≤ 10 ∧ Breadth.Walk (Linked s .incoming) (getSymbol s) id n id

end Count

section Counts

variable {s : ContentStore} {target id : String} {n : Nat}

theorem mem_callersOf {a b : String} : b ∈ callersOf s a ↔ Linked s .incoming a b := by
  rw [callersOf, Finset.mem_image]
  constructor
  · rintro ⟨⟨f, t, kind⟩, mem, rfl⟩
    obtain ⟨stored, rfl, rfl⟩ := Finset.mem_filter.mp mem
    exact stored
  · intro linked
    exact ⟨_, Finset.mem_filter.mpr ⟨linked, rfl, rfl⟩, rfl⟩

/-- In a store whose references end in stored symbols nothing is passed over. -/
theorem isSome_of_linked (closed : Ingestion.Closed s) {a b : String}
    (linked : Linked s .incoming a b) : (getSymbol s b).isSome := by
  obtain ⟨row, found⟩ := (Rows.mem_iff_lookup _ _).mp (closed _ linked).1
  rw [getSymbol, found]
  rfl

/-- The rows after some rounds are the walks of as many calls. -/
theorem mem_callerRows (closed : Ingestion.Closed s) (round : Nat) :
    (id, n) ∈ callerRows s target round ↔
      1 ≤ n ∧ n ≤ min (round + 1) 10 ∧
        Breadth.Walk (Linked s .incoming) (getSymbol s) target n id := by
  induction round generalizing id n with
  | zero =>
      simp only [callerRows, Finset.mem_image, Prod.mk.injEq, mem_callersOf]
      constructor
      · rintro ⟨_, linked, rfl, rfl⟩
        exact ⟨Nat.le_refl 1, by omega, .step .start linked (isSome_of_linked closed linked)⟩
      · rintro ⟨more, less, walk⟩
        obtain rfl : n = 1 := by omega
        cases walk with
        | step walk linked =>
            cases walk
            exact ⟨id, linked, rfl, rfl⟩
  | succ round ih =>
      simp only [callerRows, Finset.mem_union, Finset.mem_biUnion, Prod.exists, ih]
      constructor
      · rintro (⟨more, less, walk⟩ | ⟨a, m, ⟨more, less, walk⟩, added⟩)
        · exact ⟨more, by omega, walk⟩
        · rw [callerRowsAfter] at added
          by_cases under : m < 10
          · rw [if_pos under] at added
            obtain ⟨b, linked, same⟩ := Finset.mem_image.mp added
            obtain ⟨rfl, rfl⟩ := Prod.mk.inj same
            have linked := mem_callersOf.mp linked
            exact ⟨by omega, by omega, .step walk linked (isSome_of_linked closed linked)⟩
          · rw [if_neg under] at added
            exact absurd added (Finset.notMem_empty _)
      · rintro ⟨more, less, walk⟩
        rcases Nat.lt_or_ge (min (round + 1) 10) n with last | earlier
        · -- a walk that is longer than those before ends with a row of the last round
          refine .inr ?_
          cases walk with
          | start => omega
          | @step m a _ walk linked isRead =>
              have under : m < 10 := by omega
              have first : 1 ≤ m := by omega
              refine ⟨a, m, ⟨first, by omega, walk⟩, ?_⟩
              rw [callerRowsAfter, if_pos under]
              exact Finset.mem_image.mpr ⟨id, mem_callersOf.mpr linked, rfl⟩
        · exact .inl ⟨more, earlier, walk⟩

/-- After nine rounds the query has all its rows. -/
theorem callerRows_closed (closed : Ingestion.Closed s) :
    callerRows s target 10 = callerRows s target 9 := by
  ext ⟨id, n⟩
  rw [mem_callerRows closed, mem_callerRows closed]
  rfl

theorem mem_counted (closed : Ingestion.Closed s) :
    id ∈ (callerRows s target 9).image Prod.fst ↔
      ∃ n, 1 ≤ n ∧ n ≤ 10 ∧ Breadth.Walk (Linked s .incoming) (getSymbol s) target n id := by
  rw [Finset.mem_image]
  constructor
  · rintro ⟨⟨id, n⟩, mem, rfl⟩
    exact ⟨n, (mem_callerRows closed 9).mp mem⟩
  · rintro ⟨n, walk⟩
    exact ⟨(id, n), (mem_callerRows closed 9).mpr walk, rfl⟩

/-- The symbols that an impact of ten levels lists are those that are counted, but for itself. -/
theorem listed_eq_counted (closed : Ingestion.Closed s) {callers : List ImpactCaller}
    (reports : Reports s target 10 .incoming false callers) :
    (callers.map ImpactCaller.symbolId).toFinset =
      ((callerRows s target 9).image Prod.fst).erase target := by
  ext id
  rw [List.mem_toFinset, List.mem_map, Finset.mem_erase, mem_counted closed]
  constructor
  · rintro ⟨c, mem, rfl⟩
    obtain ⟨sym, -, -, other, le, near, -⟩ := (reports.mem_iff c).mp mem
    refine ⟨other, c.depth, ?_, le, near.1⟩
    by_contra none
    have here : c.depth = 0 := by omega
    rw [here] at near
    exact other (Breadth.distance_zero_iff.mp near)
  · rintro ⟨other, n, -, le, walk⟩
    obtain ⟨sym, found⟩ := Option.isSome_iff_exists.mp (walk.read_of_ne other)
    obtain ⟨m, less, near⟩ := Breadth.exists_distance walk
    obtain rfl := getSymbol_id found
    refine ⟨impactCaller sym m, (reports.mem_iff _).mpr ⟨sym, found, rfl, other, ?_, near, ?_⟩, rfl⟩
    · exact less.trans le
    · exact fun no => absurd no Bool.false_ne_true

/-- The count of one symbol is that of its impact, and one more where it calls itself. -/
theorem callerCount_eq_computeImpact (order : SetOrder SymbolRef) (closed : Ingestion.Closed s)
    (isStored : (getSymbol s target).isSome) :
    ∃ r, computeImpact order s target 10 .incoming false = .ok r ∧
      (CallsItself s target → callerCount s target = r.symbols + 1) ∧
      (¬CallsItself s target → callerCount s target = r.symbols) := by
  obtain ⟨r, done, exact⟩ := computeImpact_exact order s target 10 .incoming false isStored
  have reports := exact.reports
  rw [exact.depth] at reports
  have listed := listed_eq_counted closed reports
  have size : r.symbols = (((callerRows s target 9).image Prod.fst).erase target).card := by
    rw [exact.symbols, ← listed, List.toFinset_card_of_nodup reports.distinct, List.length_map]
  refine ⟨r, done, fun itself => ?_, fun notItself => ?_⟩
  · have mem := (mem_counted closed).mpr itself
    rw [size, callerCount, Finset.card_erase_add_one mem]
  · have notIn : target ∉ (callerRows s target 9).image Prod.fst := fun mem =>
      notItself ((mem_counted closed).mp mem)
    rw [size, callerCount, Finset.erase_eq_of_notMem notIn]

variable (s) in
/-- The ids asked about are counted, but for those without callers. -/
theorem lookup_transitiveCallerCounts (symbolIds : List String) (id : String) :
    (transitiveCallerCounts s symbolIds).lookup id =
      if id ∈ symbolIds ∧ 0 < callerCount s id then some (callerCount s id) else none := by
  have run : ∀ result : Rows String Nat,
      (symbolIds.foldl (fun result id =>
        if 0 < callerCount s id then result.insert id (callerCount s id) else result) result).lookup
          id =
        if id ∈ symbolIds ∧ 0 < callerCount s id then some (callerCount s id)
        else result.lookup id := by
    induction symbolIds with
    | nil => intro result; simp
    | cons first ids ih =>
        intro result
        rw [List.foldl_cons, ih]
        by_cases later : id ∈ ids ∧ 0 < callerCount s id
        · rw [if_pos later, if_pos ⟨List.mem_cons_of_mem _ later.1, later.2⟩]
        · rw [if_neg later]
          by_cases here : id = first
          · subst here
            by_cases called : 0 < callerCount s id
            · rw [if_pos called, if_pos ⟨List.mem_cons_self, called⟩, AList.lookup_insert]
            · rw [if_neg called, if_neg fun both => called both.2]
          · have before : ¬(id ∈ first :: ids ∧ 0 < callerCount s id) := fun both =>
              later ⟨(List.mem_cons.mp both.1).resolve_left here, both.2⟩
            rw [if_neg before]
            split
            · rw [Rows.lookup_insert_if, if_neg here]
            · rfl
  rw [transitiveCallerCounts, run, AList.lookup_empty]

/-- **The count of callers and the impact agree, but for a symbol that calls itself.**  A symbol
that nothing calls has no entry. -/
theorem transitiveCallerCounts_computeImpact (order : SetOrder SymbolRef)
    (closed : Ingestion.Closed s) {symbolIds : List String} (asked : target ∈ symbolIds)
    (isStored : (getSymbol s target).isSome) :
    ∃ r, computeImpact order s target 10 .incoming false = .ok r ∧
      (CallsItself s target →
        (transitiveCallerCounts s symbolIds).lookup target = some (r.symbols + 1)) ∧
      (¬CallsItself s target → (transitiveCallerCounts s symbolIds).lookup target =
        if 0 < r.symbols then some r.symbols else none) := by
  obtain ⟨r, done, itself, notItself⟩ := callerCount_eq_computeImpact order closed isStored
  refine ⟨r, done, fun calls => ?_, fun calls => ?_⟩
  · rw [lookup_transitiveCallerCounts, itself calls, if_pos ⟨asked, r.symbols.succ_pos⟩]
  · rw [lookup_transitiveCallerCounts, notItself calls]
    by_cases called : 0 < r.symbols
    · rw [if_pos ⟨asked, called⟩, if_pos called]
    · rw [if_neg fun both => called both.2, if_neg called]

/-- Two functions, of which the first calls itself and the second calls the first. -/
def recursiveCallee : ContentStore :=
  let row : SymbolRow :=
    { filePath := "src/lib.rs", name := "walk", kind := "function", visibility := "private",
      signature := "fn walk()", docComment := none, modulePath := "", lineStart := 1, lineEnd := 9,
      cyclomaticComplexity := none }
  { ContentStore.empty with
    symbols := (AList.insert "walk" row ∅).insert "run" { row with name := "run", lineStart := 11 }
    symbolRefs := {⟨"walk", "walk", .calls⟩, ⟨"run", "walk", .calls⟩} }

/-- `walk` is among its own callers. -/
theorem transitiveCallerCounts_recursive :
    ∃ r, computeImpact .arbitrary recursiveCallee "walk" 10 .incoming false = .ok r ∧
      (transitiveCallerCounts recursiveCallee ["run", "walk"]).lookup "walk" =
        some (r.symbols + 1) := by
  have closed : Ingestion.Closed recursiveCallee := by
    intro e mem
    rcases Finset.mem_insert.mp mem with rfl | last
    · exact ⟨by decide, by decide⟩
    · obtain rfl := Finset.mem_singleton.mp last
      exact ⟨by decide, by decide⟩
  have itself : CallsItself recursiveCallee "walk" :=
    ⟨1, by decide, by decide, .step .start (Finset.mem_insert_self _ _) (by decide)⟩
  obtain ⟨r, done, counted, -⟩ :=
    transitiveCallerCounts_computeImpact .arbitrary closed
      (show "walk" ∈ ["run", "walk"] by decide) (by decide)
  exact ⟨r, done, counted itself⟩

end Counts

end Ministr.Service
