/-
# Service.CyclicDependency — packages that depend on each other in a circle

The package of a symbol is the first directory below the one that all symbols share.  A function
of one package that uses a symbol of another supports a dependency between them, unless its own
package has a symbol of the same name and kind, with which the index may have confused it.  A
dependency counts from a given number of supports on.

The detector runs Tarjan's algorithm over the dependencies.  Its findings are the classes of two or
more packages that lead to each other, each once, with the count of the supported edges inside the
class and the first `representative_count` of them (`cyclicDependencies_spec`), whatever the orders
in which the hash maps and sets are read.
-/
import Ministr.Git.Diff
import Ministr.Service.Impact
import Ministr.Theory.Tarjan
import Mathlib.Data.Set.Card

namespace Ministr.Service

open Ministr.Theory Ministr.Content

set_option autoImplicit false

/-- `SolidParams`, as far as the detectors here read it. -/
structure SolidParams where
  containerKinds : List String
  minLines : Nat
  maxPairs : Nat
  representativeCount : Nat
  cyclicMinEdgesPerDirection : Nat
  cyclicSkipTestPaths : Bool
  deriving DecidableEq, Repr

structure SolidSymbolRef where
  symbolId : String
  name : String
  kind : String
  file : String
  line : Nat
  deriving DecidableEq, Repr

structure SolidEdge where
  source : String
  target : String
  exampleSource : SolidSymbolRef
  exampleTarget : SolidSymbolRef
  deriving DecidableEq, Repr

/-- `SolidFinding::CyclicDependency`. -/
structure CyclicDependency where
  packages : List String
  edgeCount : Nat
  exampleEdges : List SolidEdge
  exampleEdgesOmitted : Nat
  deriving DecidableEq, Repr

/-- `to_ref`. -/
def toRef (s : SymbolRecord) : SolidSymbolRef where
  symbolId := s.id
  name := s.name
  kind := s.kind
  file := s.filePath
  line := s.lineStart

/-- `truncate_with_count`; a cap of zero is none. -/
def truncateWithCount {α : Type} (items : List α) (cap : Nat) : List α × Nat :=
  if cap = 0 ∨ items.length ≤ cap then (items, 0) else (items.take cap, items.length - cap)

/-! ## Packages -/

/-- `split('/')`. -/
def splitSegments (path : String) : List (List Char) := path.toList.splitOn '/'

/-- The segments that are common to two paths, from the front. -/
def commonSegments : List (List Char) → List (List Char) → List (List Char)
  | a :: as, b :: bs => if a = b then a :: commonSegments as bs else []
  | _, _ => []

/-- `corpus_root_prefix`. -/
def corpusRootPrefix : List SymbolRecord → String
  | [] => ""
  | first :: rest =>
      let shared := rest.foldl (fun shared sym => commonSegments shared (splitSegments sym.filePath))
        (splitSegments first.filePath)
      let out := ['/'].intercalate shared
      if out = [] then "" else String.ofList (out ++ ['/'])

/-- `package_of`. -/
def packageOf (path root : String) : String :=
  let stripped := (Git.stripStart root.toList path.toList).getD path.toList
  String.ofList (((stripped.splitOn '/').find? (· ≠ [])).getD [])

/-! ## Dependencies -/

section Detector

variable (order : SetOrder SymbolRef) (s : ContentStore)

/-- The entry of `uses_map` for one symbol. -/
def usesOf (sym : SymbolRecord) : Finset String :=
  (((queryRefs order s sym.id none).filter fun r =>
    r.fromSymbolId = sym.id ∧ (r.refKind = .uses ∨ r.refKind = .imports)).map
      SymbolRef.toSymbolId).toFinset

/-- `uses_map`. -/
def usesMap (symbols : List SymbolRecord) : Rows String (Finset String) :=
  Rows.upsertAll ∅ (symbols.map fun sym => (sym.id, usesOf order s sym))

end Detector

section Edges

variable (symbols : List SymbolRecord) (corpusRoot : String) (params : SolidParams)

/-- `by_id`. -/
def byId : Rows String SymbolRecord := Rows.upsertAll ∅ (symbols.map fun sym => (sym.id, sym))

/-- `pkg_of`. -/
def pkgOf : Rows String String :=
  Rows.upsertAll ∅ (symbols.map fun sym => (sym.id, packageOf sym.filePath corpusRoot))

/-- `symbol_in_pkg`: the packages that are not empty, with the names and kinds of their symbols. -/
def symbolInPkg : Finset (String × String × String) :=
  (symbols.filterMap fun sym =>
    ((pkgOf symbols corpusRoot).lookup sym.id).bind fun pkg =>
      if pkg = "" then none else some (pkg, sym.name, sym.kind)).toFinset

/-- A reference that supports a dependency. -/
structure Support where
  source : SymbolRecord
  target : SymbolRecord
  sourcePkg : String
  targetPkg : String
  deriving DecidableEq, Repr

/-- One turn of the inner loop: what the use of a symbol supports. -/
def supportOf (sym : SymbolRecord) (fromPkg targetId : String) : Option Support :=
  ((byId symbols).lookup targetId).bind fun target =>
    if params.cyclicSkipTestPaths && isTestPath target.filePath then none
    else
      ((pkgOf symbols corpusRoot).lookup target.id).bind fun toPkg =>
        if toPkg = "" ∨ toPkg = fromPkg then none
        else if (fromPkg, target.name, target.kind) ∈ symbolInPkg symbols corpusRoot then none
        else some ⟨sym, target, fromPkg, toPkg⟩

/-- One turn of the outer loop. -/
def supportsOf (order : SetOrder String) (uses : Rows String (Finset String))
    (sym : SymbolRecord) : List Support :=
  if params.cyclicSkipTestPaths && isTestPath sym.filePath then []
  else if sym.kind ≠ "function" ∧ sym.kind ≠ "method" then []
  else
    match (pkgOf symbols corpusRoot).lookup sym.id with
    | none => []
    | some fromPkg =>
        if fromPkg = "" then []
        else
          (order.read ((uses.lookup sym.id).getD ∅)).filterMap
            (supportOf symbols corpusRoot params sym fromPkg)

end Edges

def Support.edge (e : Support) : String × String := (e.sourcePkg, e.targetPkg)

/-- `edge_counts`. -/
def edgeCounts (supports : List Support) : Rows (String × String) Nat :=
  Rows.accumulate ∅ (supports.map fun e => (e.edge, 1))

/-- `entry(..).or_insert(..)` -/
def addExample (examples : Rows (String × String) (SymbolRecord × SymbolRecord)) (e : Support) :
    Rows (String × String) (SymbolRecord × SymbolRecord) :=
  if e.edge ∈ examples then examples else examples.insert e.edge (e.source, e.target)

/-- `examples`: the first support of each edge. -/
def edgeExamples (supports : List Support) : Rows (String × String) (SymbolRecord × SymbolRecord) :=
  supports.foldl addExample ∅

/-- The orders in which the maps and sets of the detector are read. -/
structure SolidOrders where
  refs : SetOrder SymbolRef
  uses : SetOrder String
  counts : HashOrder (String × String) Nat
  examples : HashOrder (String × String) (SymbolRecord × SymbolRecord)
  adjacency : HashOrder String (Finset String)
  targets : SetOrder String

section Components

/-- An edge is entered if it has enough supports. -/
def addEdge (minEdges : Nat) (adj : Rows String (Finset String))
    (e : Sigma fun _ : String × String => Nat) : Rows String (Finset String) :=
  if minEdges ≤ e.2 then adj.insert e.1.1 (insert e.1.2 ((adj.lookup e.1.1).getD ∅)) else adj

/-- `adjacency`. -/
def adjacency (order : HashOrder (String × String) Nat) (minEdges : Nat)
    (counts : Rows (String × String) Nat) : Rows String (Finset String) :=
  (order.read counts).foldl (addEdge minEdges) ∅

/-- `collect_successors`. -/
def collectSuccessors (order : SetOrder String) (adj : Rows String (Finset String))
    (node : String) : List String :=
  (order.read ((adj.lookup node).getD ∅)).filter fun n => n ∈ adj

/-- `tarjan_scc`.  Nodes go by name, where the code numbers them. -/
def tarjanScc (nodeOrder : HashOrder String (Finset String)) (order : SetOrder String)
    (adj : Rows String (Finset String)) : List (List String) :=
  Tarjan.components (collectSuccessors order adj) ((nodeOrder.read adj).map Sigma.fst)

variable (orders : SolidOrders) (params : SolidParams)

/-- The order of the edges of a finding. -/
def SolidEdge.rank (e : SolidEdge) : String ×ₗ String := toLex (e.source, e.target)

def solidEdge (e : Sigma fun _ : String × String => SymbolRecord × SymbolRecord) : SolidEdge where
  source := e.1.1
  target := e.1.2
  exampleSource := toRef e.2.1
  exampleTarget := toRef e.2.2

/-- What is reported of one component. -/
def cyclicFinding (examples : Rows (String × String) (SymbolRecord × SymbolRecord))
    (scc : List String) : Option CyclicDependency :=
  if scc.length < 2 then none
  else
    let innerEdges := ((orders.examples.read examples).filter fun e =>
      e.1.1 ∈ scc ∧ e.1.2 ∈ scc).map solidEdge
    if innerEdges = [] then none
    else
      let innerEdges := innerEdges.mergeSort fun a b => a.rank ≤ b.rank
      let kept := truncateWithCount innerEdges params.representativeCount
      some
        { packages := scc.mergeSort fun a b => a ≤ b
          edgeCount := innerEdges.length
          exampleEdges := kept.1
          exampleEdgesOmitted := kept.2 }

/-- `detect_cyclic_dependency`. -/
def detectCyclicDependency (symbols : List SymbolRecord) (uses : Rows String (Finset String))
    (corpusRoot : String) : List CyclicDependency :=
  let supports := symbols.flatMap (supportsOf symbols corpusRoot params orders.uses uses)
  let adj := adjacency orders.counts params.cyclicMinEdgesPerDirection (edgeCounts supports)
  (tarjanScc orders.adjacency orders.targets adj).filterMap
    (cyclicFinding orders params (edgeExamples supports))

/-- The cycles among the symbols that a filter admits, as `detect_solid_violations` asks for
them. -/
def cyclicDependencies (s : ContentStore) (admits : SymbolRow → Bool) : List CyclicDependency :=
  let symbols := s.listSymbols admits
  detectCyclicDependency orders params symbols (usesMap orders.refs s symbols)
    (corpusRootPrefix symbols)

end Components

/-! ## What a dependency is -/

section Spec

variable (s : ContentStore) (admits : SymbolRow → Bool) (params : SolidParams)

/-- The package of a symbol, among those that the filter admits. -/
def packageIn (sym : SymbolRecord) : String :=
  packageOf sym.filePath (corpusRootPrefix (s.listSymbols admits))

/-- The use of one symbol by another supports a dependency between two packages. -/
structure Supports (a b : String) (sym target : SymbolRecord) : Prop where
  sourceListed : sym ∈ s.listSymbols admits
  targetListed : target ∈ s.listSymbols admits
  used : ⟨sym.id, target.id, .uses⟩ ∈ s.symbolRefs ∨ ⟨sym.id, target.id, .imports⟩ ∈ s.symbolRefs
  callable : sym.kind = "function" ∨ sym.kind = "method"
  production : params.cyclicSkipTestPaths = true →
    isTestPath sym.filePath = false ∧ isTestPath target.filePath = false
  sourcePkg : packageIn s admits sym = a
  targetPkg : packageIn s admits target = b
  named : a ≠ "" ∧ b ≠ ""
  apart : a ≠ b
  noTwin : ∀ other ∈ s.listSymbols admits, packageIn s admits other = a →
    ¬(other.name = target.name ∧ other.kind = target.kind)

def Supported (a b : String) : Prop := ∃ sym target, Supports s admits params a b sym target

/-- There are enough supports. -/
def DependsOn (a b : String) : Prop :=
  Supported s admits params a b ∧ params.cyclicMinEdgesPerDirection ≤
    Set.ncard {p : SymbolRecord × SymbolRecord | Supports s admits params a b p.1 p.2}

/-- Two packages lead to each other. -/
def Mutual (a b : String) : Prop :=
  Relation.ReflTransGen (DependsOn s admits params) a b ∧
    Relation.ReflTransGen (DependsOn s admits params) b a

/-- A finding is a whole class, with all the edges inside it. -/
structure CyclicDependency.Exact (f : CyclicDependency) : Prop where
  several : 2 ≤ f.packages.length
  sorted : f.packages.Pairwise (· < ·)
  whole : ∀ a ∈ f.packages, ∀ b, b ∈ f.packages ↔ Mutual s admits params a b
  edges : ∃ edges : List SolidEdge, edges.Pairwise (fun e e' => e.rank < e'.rank) ∧
    f.edgeCount = edges.length ∧
    (f.exampleEdges, f.exampleEdgesOmitted) = truncateWithCount edges params.representativeCount ∧
    (∀ e ∈ edges, ∃ sym target, Supports s admits params e.source e.target sym target ∧
      e.exampleSource = toRef sym ∧ e.exampleTarget = toRef target) ∧
    ∀ a b, (∃ e ∈ edges, (e.source, e.target) = (a, b)) ↔
      a ∈ f.packages ∧ b ∈ f.packages ∧ Supported s admits params a b

end Spec

/-! ## The references that support a dependency -/

section Lookups

variable {order : SetOrder SymbolRef} {s : ContentStore} {admits : SymbolRow → Bool}

theorem listSymbols_unique {x y : SymbolRecord} (first : x ∈ s.listSymbols admits)
    (second : y ∈ s.listSymbols admits) (same : x.id = y.id) : x = y :=
  Ingestion.HasSymbol.unique (ContentStore.mem_listSymbols.mp first).1
    (ContentStore.mem_listSymbols.mp second).1 same

theorem nodup_listSymbols : (s.listSymbols admits).Nodup := by
  rw [ContentStore.listSymbols, (List.mergeSort_perm _ _).nodup_iff]
  refine List.Nodup.map_on ?_ ?_
  · rintro ⟨id, row⟩ - ⟨id', row'⟩ - same
    cases same
    rfl
  · have keys : ((s.symbols.select fun _ row => admits row).map Prod.fst).Nodup := by
      rw [Rows.select, List.map_map]
      exact Rows.nodup_keysWhere s.symbols fun _ row => admits row
    exact keys.of_map _

/-- A table that is filled from the listed symbols. -/
theorem lookup_keyed {V : Type} {f : SymbolRecord → V} {id : String} {v : V} :
    (Rows.upsertAll ∅ ((s.listSymbols admits).map fun sym => (sym.id, f sym))).lookup id = some v ↔
      ∃ sym ∈ s.listSymbols admits, sym.id = id ∧ f sym = v := by
  have functional : ∀ w, (id, w) ∈ (s.listSymbols admits).map (fun sym => (sym.id, f sym)) →
      ∀ w', (id, w') ∈ (s.listSymbols admits).map (fun sym => (sym.id, f sym)) → w = w' := by
    intro w mem w' mem'
    obtain ⟨sym, isIn, same⟩ := List.mem_map.mp mem
    obtain ⟨sym', isIn', same'⟩ := List.mem_map.mp mem'
    obtain ⟨rfl, rfl⟩ := Prod.mk.inj same
    obtain ⟨sameId, rfl⟩ := Prod.mk.inj same'
    rw [listSymbols_unique isIn' isIn sameId]
  rw [Rows.lookup_upsertAll, AList.lookup_empty, Option.or_none, lastOf_eq_some_iff functional,
    List.mem_map]
  exact ⟨fun ⟨sym, mem, same⟩ => ⟨sym, mem, (Prod.mk.inj same).1, (Prod.mk.inj same).2⟩,
    fun ⟨sym, mem, sameId, same⟩ => ⟨sym, mem, by rw [sameId, same]⟩⟩

theorem lookup_pkgOf {id pkg : String} :
    (pkgOf (s.listSymbols admits) (corpusRootPrefix (s.listSymbols admits))).lookup id = some pkg ↔
      ∃ sym ∈ s.listSymbols admits, sym.id = id ∧ packageIn s admits sym = pkg :=
  lookup_keyed

theorem mem_usesOf {sym : SymbolRecord} {id : String} :
    id ∈ usesOf order s sym ↔
      ⟨sym.id, id, .uses⟩ ∈ s.symbolRefs ∨ ⟨sym.id, id, .imports⟩ ∈ s.symbolRefs := by
  simp only [usesOf, List.mem_toFinset, List.mem_map, List.mem_filter, mem_queryRefs,
    decide_eq_true_eq]
  constructor
  · rintro ⟨⟨a, b, kind⟩, ⟨⟨stored, -⟩, rfl, rfl | rfl⟩, rfl⟩
    · exact .inl stored
    · exact .inr stored
  · rintro (stored | stored)
    · exact ⟨_, ⟨⟨stored, .inl rfl, fun k none => by cases none⟩, rfl, .inl rfl⟩, rfl⟩
    · exact ⟨_, ⟨⟨stored, .inl rfl, fun k none => by cases none⟩, rfl, .inr rfl⟩, rfl⟩

theorem mem_symbolInPkg {pkg name kind : String} :
    (pkg, name, kind) ∈
        symbolInPkg (s.listSymbols admits) (corpusRootPrefix (s.listSymbols admits)) ↔
      pkg ≠ "" ∧ ∃ sym ∈ s.listSymbols admits, packageIn s admits sym = pkg ∧ sym.name = name ∧
        sym.kind = kind := by
  simp only [symbolInPkg, List.mem_toFinset, List.mem_filterMap, Option.bind_eq_some_iff,
    lookup_pkgOf]
  constructor
  · rintro ⟨sym, mem, p, ⟨sym', mem', sameId, isPkg⟩, named⟩
    obtain rfl := listSymbols_unique mem' mem sameId
    by_cases empty : p = ""
    · rw [if_pos empty] at named
      cases named
    · rw [if_neg empty] at named
      obtain ⟨rfl, rfl, rfl⟩ := by simpa using named
      exact ⟨empty, sym', mem, isPkg, rfl, rfl⟩
  · rintro ⟨named, sym, mem, isPkg, rfl, rfl⟩
    exact ⟨sym, mem, pkg, ⟨sym, mem, rfl, isPkg⟩, by rw [if_neg named]⟩

end Lookups

section Supports

variable {orders : SolidOrders} {s : ContentStore} {admits : SymbolRow → Bool}
  {params : SolidParams}

/-- What the loops collect. -/
abbrev supportsIn (orders : SolidOrders) (s : ContentStore) (admits : SymbolRow → Bool)
    (params : SolidParams) : List Support :=
  (s.listSymbols admits).flatMap
    (supportsOf (s.listSymbols admits) (corpusRootPrefix (s.listSymbols admits)) params orders.uses
      (usesMap orders.refs s (s.listSymbols admits)))

theorem supportOf_eq_some {sym : SymbolRecord} {pkg id : String} {e : Support} :
    supportOf (s.listSymbols admits) (corpusRootPrefix (s.listSymbols admits)) params sym pkg id =
        some e ↔
      ∃ target ∈ s.listSymbols admits, target.id = id ∧
        (params.cyclicSkipTestPaths = true → isTestPath target.filePath = false) ∧
        packageIn s admits target ≠ "" ∧ packageIn s admits target ≠ pkg ∧
        (pkg, target.name, target.kind) ∉
          symbolInPkg (s.listSymbols admits) (corpusRootPrefix (s.listSymbols admits)) ∧
        e = ⟨sym, target, pkg, packageIn s admits target⟩ := by
  rw [supportOf, Option.bind_eq_some_iff]
  constructor
  · rintro ⟨target, found, rest⟩
    obtain ⟨target', mem, sameId, rfl⟩ := lookup_keyed.mp found
    by_cases skip : (params.cyclicSkipTestPaths && isTestPath target'.filePath) = true
    · rw [if_pos skip] at rest
      cases rest
    · rw [if_neg skip, Option.bind_eq_some_iff] at rest
      obtain ⟨toPkg, isPkg, rest⟩ := rest
      obtain ⟨other, mem', sameId', rfl⟩ := lookup_pkgOf.mp isPkg
      obtain rfl := listSymbols_unique mem' mem sameId'
      by_cases inside : packageIn s admits other = "" ∨ packageIn s admits other = pkg
      · rw [if_pos inside] at rest
        cases rest
      · rw [if_neg inside] at rest
        rw [not_or] at inside
        obtain ⟨noTwin, same⟩ := Option.ite_none_left_eq_some.mp rest
        refine ⟨other, mem, sameId, fun skips => ?_, inside.1, inside.2, noTwin,
          (Option.some.inj same).symm⟩
        simpa [skips] using skip
  · rintro ⟨target, mem, sameId, production, named, apart, noTwin, rfl⟩
    refine ⟨target, lookup_keyed.mpr ⟨target, mem, sameId, rfl⟩, ?_⟩
    have skip : ¬(params.cyclicSkipTestPaths && isTestPath target.filePath) = true := by
      rw [Bool.and_eq_true]
      rintro ⟨skips, isTest⟩
      rw [production skips] at isTest
      cases isTest
    rw [if_neg skip, Option.bind_eq_some_iff]
    refine ⟨packageIn s admits target, lookup_pkgOf.mpr ⟨target, mem, rfl, rfl⟩, ?_⟩
    rw [if_neg (not_or.mpr ⟨named, apart⟩), if_neg noTwin]

theorem lookup_usesMap {order : SetOrder SymbolRef} {sym : SymbolRecord}
    (mem : sym ∈ s.listSymbols admits) :
    (usesMap order s (s.listSymbols admits)).lookup sym.id = some (usesOf order s sym) :=
  lookup_keyed.mpr ⟨sym, mem, rfl, rfl⟩

theorem mem_supportsOf {sym : SymbolRecord} (mem : sym ∈ s.listSymbols admits) {e : Support} :
    e ∈ supportsOf (s.listSymbols admits) (corpusRootPrefix (s.listSymbols admits)) params
        orders.uses (usesMap orders.refs s (s.listSymbols admits)) sym ↔
      Supports s admits params e.sourcePkg e.targetPkg e.source e.target ∧ e.source = sym := by
  have isPkg : (pkgOf (s.listSymbols admits) (corpusRootPrefix (s.listSymbols admits))).lookup
      sym.id = some (packageIn s admits sym) := lookup_pkgOf.mpr ⟨sym, mem, rfl, rfl⟩
  rw [supportsOf]
  by_cases skip : (params.cyclicSkipTestPaths && isTestPath sym.filePath) = true
  · rw [if_pos skip]
    refine ⟨fun none => absurd none List.not_mem_nil, ?_⟩
    rintro ⟨supports, rfl⟩
    rw [Bool.and_eq_true] at skip
    rw [(supports.production skip.1).1] at skip
    cases skip.2
  · rw [if_neg skip]
    by_cases other : sym.kind ≠ "function" ∧ sym.kind ≠ "method"
    · rw [if_pos other]
      refine ⟨fun none => absurd none List.not_mem_nil, ?_⟩
      rintro ⟨supports, rfl⟩
      exact absurd supports.callable (not_or.mpr other)
    · rw [if_neg other, isPkg]
      dsimp only
      by_cases empty : packageIn s admits sym = ""
      · rw [if_pos empty]
        refine ⟨fun none => absurd none List.not_mem_nil, ?_⟩
        rintro ⟨supports, rfl⟩
        exact absurd (supports.sourcePkg.symm.trans empty) supports.named.1
      · rw [if_neg empty, List.mem_filterMap]
        simp only [SetOrder.mem_read, lookup_usesMap mem, Option.getD_some, mem_usesOf,
          supportOf_eq_some, mem_symbolInPkg]
        constructor
        · rintro ⟨id, used, target, mem', rfl, production, named, apart, noTwin, rfl⟩
          refine ⟨⟨mem, mem', used, ?_, fun skips => ⟨?_, production skips⟩, rfl, rfl,
            ⟨empty, named⟩, Ne.symm apart, fun twin isIn isPkg' both => noTwin ?_⟩, rfl⟩
          · rcases not_and_or.mp other with isFunction | isMethod
            · exact .inl (not_not.mp isFunction)
            · exact .inr (not_not.mp isMethod)
          · simpa [skips] using skip
          · exact ⟨empty, twin, isIn, isPkg', both.1, both.2⟩
        · rintro ⟨supports, rfl⟩
          refine ⟨e.target.id, supports.used, e.target, supports.targetListed, rfl,
            fun skips => (supports.production skips).2, ?_, ?_, ?_, ?_⟩
          · rw [supports.targetPkg]
            exact supports.named.2
          · rw [supports.targetPkg, supports.sourcePkg]
            exact Ne.symm supports.apart
          · rintro ⟨-, twin, isIn, isPkg', sameName, sameKind⟩
            rw [supports.sourcePkg] at isPkg'
            exact supports.noTwin twin isIn isPkg' ⟨sameName, sameKind⟩
          · rw [supports.targetPkg, supports.sourcePkg]

theorem mem_supportsIn {e : Support} : e ∈ supportsIn orders s admits params ↔
    Supports s admits params e.sourcePkg e.targetPkg e.source e.target := by
  rw [List.mem_flatMap]
  constructor
  · rintro ⟨sym, mem, isIn⟩
    exact ((mem_supportsOf mem).mp isIn).1
  · intro supports
    exact ⟨e.source, supports.sourceListed, (mem_supportsOf supports.sourceListed).mpr
      ⟨supports, rfl⟩⟩

theorem nodup_supportsIn : (supportsIn orders s admits params).Nodup := by
  refine List.nodup_flatMap.mpr ⟨fun sym mem => ?_, ?_⟩
  · rw [supportsOf]
    split
    · exact List.nodup_nil
    · split
      · exact List.nodup_nil
      · split
        · exact List.nodup_nil
        · split
          · exact List.nodup_nil
          · refine (orders.uses.nodup_read _).filterMap fun id id' e first second => ?_
            obtain ⟨target, -, sameId, -, -, -, -, rfl⟩ := supportOf_eq_some.mp first
            obtain ⟨target', -, sameId', -, -, -, -, same⟩ := supportOf_eq_some.mp second
            rw [← sameId, ← sameId', (Support.mk.inj same).2.1]
  · refine nodup_listSymbols.imp_of_mem fun mem mem' other e isIn isIn' => other ?_
    exact ((mem_supportsOf mem).mp isIn).2.symm.trans ((mem_supportsOf mem').mp isIn').2

variable (orders) in
theorem exists_support_iff {a b : String} :
    (∃ e ∈ supportsIn orders s admits params, e.edge = (a, b)) ↔ Supported s admits params a b := by
  constructor
  · rintro ⟨e, mem, same⟩
    obtain ⟨rfl, rfl⟩ := Prod.mk.inj same
    exact ⟨e.source, e.target, mem_supportsIn.mp mem⟩
  · rintro ⟨sym, target, supports⟩
    exact ⟨⟨sym, target, a, b⟩, mem_supportsIn.mpr supports, rfl⟩

/-- The supports of an edge, as they are counted. -/
theorem length_supports (a b : String) :
    ((supportsIn orders s admits params).filter fun e => e.edge = (a, b)).length =
      Set.ncard {p : SymbolRecord × SymbolRecord | Supports s admits params a b p.1 p.2} := by
  have inj : (((supportsIn orders s admits params).filter fun e => e.edge = (a, b)).map
      fun e => (e.source, e.target)).Nodup := by
    refine List.Nodup.map_on ?_ (nodup_supportsIn.filter _)
    rintro ⟨x, y, p, q⟩ mem ⟨x', y', p', q'⟩ mem' same
    obtain ⟨-, edge⟩ := List.mem_filter.mp mem
    obtain ⟨-, edge'⟩ := List.mem_filter.mp mem'
    simp only [Support.edge, decide_eq_true_eq, Prod.mk.injEq] at edge edge' same ⊢
    obtain ⟨rfl, rfl⟩ := edge
    obtain ⟨rfl, rfl⟩ := edge'
    obtain ⟨rfl, rfl⟩ := same
    rfl
  have same : {p : SymbolRecord × SymbolRecord | Supports s admits params a b p.1 p.2} =
      ↑(((supportsIn orders s admits params).filter fun e => e.edge = (a, b)).map
        fun e => (e.source, e.target)).toFinset := by
    ext ⟨x, y⟩
    simp only [Set.mem_ofPred_eq, List.coe_toFinset, List.mem_map, List.mem_filter,
      decide_eq_true_eq]
    constructor
    · intro supports
      exact ⟨⟨x, y, a, b⟩, ⟨mem_supportsIn.mpr supports, rfl⟩, rfl⟩
    · rintro ⟨e, ⟨mem, edge⟩, pair⟩
      obtain ⟨rfl, rfl⟩ := Prod.mk.inj edge
      obtain ⟨rfl, rfl⟩ := Prod.mk.inj pair
      exact mem_supportsIn.mp mem
  rw [same, Set.ncard_coe_finset, List.toFinset_card_of_nodup inj, List.length_map]

theorem lookup_edgeCounts {a b : String} {n : Nat} :
    (edgeCounts (supportsIn orders s admits params)).lookup (a, b) = some n ↔
      Supported s admits params a b ∧
        n = Set.ncard {p : SymbolRecord × SymbolRecord | Supports s admits params a b p.1 p.2} := by
  have sum : ∀ supports : List Support,
      (((supports.map fun e => (e.edge, 1)).filter fun e => e.1 = (a, b)).map Prod.snd).sum =
        (supports.filter fun e => e.edge = (a, b)).length := by
    intro supports
    simp [List.filter_map, List.map_map, Function.comp_def]
  have exists_ : (∃ e ∈ (supportsIn orders s admits params).map fun e => (e.edge, 1),
      e.1 = (a, b)) ↔ Supported s admits params a b := by
    rw [← exists_support_iff orders]
    simp
  rw [edgeCounts, Rows.lookup_accumulate, sum, length_supports]
  by_cases supported : Supported s admits params a b
  · rw [if_pos (exists_.mpr supported), and_iff_right supported, AList.lookup_empty,
      Option.getD_none, Nat.zero_add, Option.some.injEq]
    exact eq_comm
  · rw [if_neg (mt exists_.mp supported), AList.lookup_empty]
    refine ⟨fun none => ?_, fun both => absurd both.1 supported⟩
    cases none

end Supports

section Tables

variable {minEdges : Nat}

theorem mem_targets_addEdge {adj : Rows String (Finset String)}
    {e : Sigma fun _ : String × String => Nat} {a b : String} :
    b ∈ ((addEdge minEdges adj e).lookup a).getD ∅ ↔
      b ∈ (adj.lookup a).getD ∅ ∨ (e.1 = (a, b) ∧ minEdges ≤ e.2) := by
  rw [addEdge]
  by_cases enough : minEdges ≤ e.2
  · rw [if_pos enough, Rows.lookup_insert_if, and_iff_left enough, Prod.ext_iff]
    by_cases here : a = e.1.1
    · subst here
      rw [if_pos rfl, Option.getD_some, Finset.mem_insert, and_iff_right rfl, or_comm, eq_comm]
    · rw [if_neg here]
      exact (or_iff_left fun both => here both.1.symm).symm
  · rw [if_neg enough]
    exact (or_iff_left fun both => enough both.2).symm

theorem mem_addEdge {adj : Rows String (Finset String)}
    {e : Sigma fun _ : String × String => Nat} {a : String} :
    a ∈ addEdge minEdges adj e ↔ a ∈ adj ∨ (e.1.1 = a ∧ minEdges ≤ e.2) := by
  rw [addEdge]
  by_cases enough : minEdges ≤ e.2
  · rw [if_pos enough, AList.mem_insert, and_iff_left enough, or_comm, eq_comm]
  · rw [if_neg enough]
    exact (or_iff_left fun both => enough both.2).symm

theorem mem_targets_foldl (l : List (Sigma fun _ : String × String => Nat))
    (adj : Rows String (Finset String)) (a b : String) :
    b ∈ ((l.foldl (addEdge minEdges) adj).lookup a).getD ∅ ↔
      b ∈ (adj.lookup a).getD ∅ ∨ ∃ e ∈ l, e.1 = (a, b) ∧ minEdges ≤ e.2 := by
  induction l generalizing adj with
  | nil => simp
  | cons e l ih => rw [List.foldl_cons, ih, mem_targets_addEdge, List.exists_mem_cons_iff, or_assoc]

theorem mem_foldl_addEdge (l : List (Sigma fun _ : String × String => Nat))
    (adj : Rows String (Finset String)) (a : String) :
    a ∈ l.foldl (addEdge minEdges) adj ↔ a ∈ adj ∨ ∃ e ∈ l, e.1.1 = a ∧ minEdges ≤ e.2 := by
  induction l generalizing adj with
  | nil => simp
  | cons e l ih => rw [List.foldl_cons, ih, mem_addEdge, List.exists_mem_cons_iff, or_assoc]

theorem mem_foldl_addExample (supports : List Support)
    (examples : Rows (String × String) (SymbolRecord × SymbolRecord)) (k : String × String) :
    k ∈ supports.foldl addExample examples ↔ k ∈ examples ∨ ∃ e ∈ supports, e.edge = k := by
  induction supports generalizing examples with
  | nil => simp
  | cons e supports ih =>
      rw [List.foldl_cons, ih, List.exists_mem_cons_iff, ← or_assoc]
      refine or_congr_left ?_
      rw [addExample]
      by_cases known : e.edge ∈ examples
      · rw [if_pos known]
        refine ⟨.inl, fun either => either.elim id ?_⟩
        rintro rfl
        exact known
      · rw [if_neg known, AList.mem_insert, or_comm, eq_comm]

/-- An example supports its edge. -/
theorem lookup_foldl_addExample (supports : List Support)
    (examples : Rows (String × String) (SymbolRecord × SymbolRecord)) {k : String × String}
    {v : SymbolRecord × SymbolRecord}
    (found : (supports.foldl addExample examples).lookup k = some v) :
    examples.lookup k = some v ∨ ∃ e ∈ supports, e.edge = k ∧ (e.source, e.target) = v := by
  induction supports generalizing examples with
  | nil => exact .inl found
  | cons e supports ih =>
      rcases ih (addExample examples e) found with already | ⟨e', mem, rest⟩
      · rw [addExample] at already
        by_cases known : e.edge ∈ examples
        · rw [if_pos known] at already
          exact .inl already
        · rw [if_neg known, Rows.lookup_insert_if] at already
          by_cases here : k = e.edge
          · rw [if_pos here] at already
            exact .inr ⟨e, List.mem_cons_self, here.symm, Option.some.inj already⟩
          · rw [if_neg here] at already
            exact .inl already
      · exact .inr ⟨e', List.mem_cons_of_mem _ mem, rest⟩

end Tables

/-! ## The graph and its components -/

section Graph

variable {orders : SolidOrders} {s : ContentStore} {admits : SymbolRow → Bool}
  {params : SolidParams} {a b : String}

/-- The graph that Tarjan's algorithm is run over. -/
abbrev packageGraph (orders : SolidOrders) (s : ContentStore) (admits : SymbolRow → Bool)
    (params : SolidParams) : Rows String (Finset String) :=
  adjacency orders.counts params.cyclicMinEdgesPerDirection
    (edgeCounts (supportsIn orders s admits params))

variable (orders) in
theorem exists_counted_iff {a b : String} :
    (∃ e ∈ orders.counts.read (edgeCounts (supportsIn orders s admits params)),
        e.1 = (a, b) ∧ params.cyclicMinEdgesPerDirection ≤ e.2) ↔
      DependsOn s admits params a b := by
  constructor
  · rintro ⟨⟨k, n⟩, mem, rfl, enough⟩
    have found := (Rows.mem_entries_iff _ _ _).mp ((orders.counts.perm _).mem_iff.mp mem)
    obtain ⟨supported, rfl⟩ := lookup_edgeCounts.mp found
    exact ⟨supported, enough⟩
  · rintro ⟨supported, enough⟩
    exact ⟨⟨(a, b), _⟩, (orders.counts.perm _).mem_iff.mpr
      ((Rows.mem_entries_iff _ _ _).mpr (lookup_edgeCounts.mpr ⟨supported, rfl⟩)), rfl, enough⟩

theorem mem_targets_iff :
    b ∈ ((packageGraph orders s admits params).lookup a).getD ∅ ↔ DependsOn s admits params a b := by
  rw [packageGraph, adjacency, mem_targets_foldl, exists_counted_iff, AList.lookup_empty]
  exact or_iff_right (Finset.notMem_empty b)

theorem mem_packageGraph :
    a ∈ packageGraph orders s admits params ↔ ∃ b, DependsOn s admits params a b := by
  rw [packageGraph, adjacency, mem_foldl_addEdge, or_iff_right (AList.notMem_empty a)]
  constructor
  · rintro ⟨⟨⟨a, b⟩, n⟩, mem, rfl, enough⟩
    exact ⟨b, (exists_counted_iff orders).mp ⟨_, mem, rfl, enough⟩⟩
  · rintro ⟨b, depends⟩
    obtain ⟨e, mem, same, enough⟩ := (exists_counted_iff orders).mpr depends
    exact ⟨e, mem, by rw [same], enough⟩

/-- The successors of a package in the graph. -/
abbrev successors (orders : SolidOrders) (s : ContentStore) (admits : SymbolRow → Bool)
    (params : SolidParams) : String → List String :=
  collectSuccessors orders.targets (packageGraph orders s admits params)

theorem mem_successors : b ∈ successors orders s admits params a ↔
    DependsOn s admits params a b ∧ b ∈ packageGraph orders s admits params := by
  rw [successors, collectSuccessors, List.mem_filter, SetOrder.mem_read, mem_targets_iff,
    decide_eq_true_eq]

/-- A package that depends on none is no node of the graph, and on no circle. -/
theorem reach_iff (isNode : b ∈ packageGraph orders s admits params) :
    Tarjan.Reach (successors orders s admits params) a b ↔
      Relation.ReflTransGen (DependsOn s admits params) a b := by
  constructor
  · have sub : ∀ x y, y ∈ successors orders s admits params x → DependsOn s admits params x y :=
      fun x y edge => (mem_successors.mp edge).1
    exact Relation.ReflTransGen.mono sub a b
  · intro path
    induction path with
    | refl => exact .refl
    | @tail c b _ edge ih =>
        have through := ih (mem_packageGraph.mpr ⟨b, edge⟩)
        exact through.tail (mem_successors.mpr ⟨edge, isNode⟩)

theorem Mutual.isNode (both : Mutual s admits params a b) (other : a ≠ b) :
    a ∈ packageGraph orders s admits params := by
  rcases both.1.cases_head with same | ⟨c, edge, -⟩
  · exact absurd same other
  · exact mem_packageGraph.mpr ⟨c, edge⟩

theorem Mutual.symm (both : Mutual s admits params a b) : Mutual s admits params b a :=
  ⟨both.2, both.1⟩

/-- What `tarjan_scc` finds. -/
structure Classes (orders : SolidOrders) (s : ContentStore) (admits : SymbolRow → Bool)
    (params : SolidParams) (sccs : List (List String)) : Prop where
  nodup : sccs.flatten.Nodup
  nodes : ∀ a, a ∈ sccs.flatten ↔ a ∈ packageGraph orders s admits params
  whole : ∀ scc ∈ sccs, ∀ a ∈ scc, ∀ b, b ∈ scc ↔ Mutual s admits params a b

theorem tarjanScc_classes (orders : SolidOrders) (s : ContentStore) (admits : SymbolRow → Bool)
    (params : SolidParams) :
    Classes orders s admits params
      (tarjanScc orders.adjacency orders.targets (packageGraph orders s admits params)) := by
  have listed : ∀ a, a ∈ (orders.adjacency.read (packageGraph orders s admits params)).map
      Sigma.fst ↔ a ∈ packageGraph orders s admits params := fun a =>
    ((orders.adjacency.perm _).map Sigma.fst).mem_iff
  have nodup : ((orders.adjacency.read (packageGraph orders s admits params)).map
      Sigma.fst).Nodup :=
    ((orders.adjacency.perm _).map Sigma.fst).nodup_iff.mpr
      (packageGraph orders s admits params).nodupKeys
  obtain ⟨emitted, nodes⟩ := Tarjan.components_spec nodup fun a _ b edge =>
    (listed b).mpr (mem_successors.mp edge).2
  have isNode := fun a => (nodes a).trans (listed a)
  refine ⟨emitted.nodup, isNode, fun scc mem a inside b => ?_⟩
  have nodeOf : ∀ c ∈ scc, c ∈ packageGraph orders s admits params := fun c here =>
    (isNode c).mp (List.mem_flatten.mpr ⟨scc, mem, here⟩)
  rw [emitted.class_iff scc mem a inside b]
  constructor
  · rintro ⟨forth, back⟩
    have here := (emitted.class_iff scc mem a inside b).mpr ⟨forth, back⟩
    exact ⟨(reach_iff (nodeOf b here)).mp forth, (reach_iff (nodeOf a inside)).mp back⟩
  · intro both
    by_cases same : b = a
    · rw [same]
      exact ⟨.refl, .refl⟩
    · exact ⟨(reach_iff (both.symm.isNode same)).mpr both.1,
        (reach_iff (nodeOf a inside)).mpr both.2⟩

end Graph

/-! ## The findings -/

section Findings

variable {orders : SolidOrders} {s : ContentStore} {admits : SymbolRow → Bool}
  {params : SolidParams} {scc : List String} {f : CyclicDependency}

/-- The example edges inside a component. -/
abbrev innerEdges (orders : SolidOrders) (s : ContentStore) (admits : SymbolRow → Bool)
    (params : SolidParams) (scc : List String) : List SolidEdge :=
  ((orders.examples.read (edgeExamples (supportsIn orders s admits params))).filter fun e =>
    e.1.1 ∈ scc ∧ e.1.2 ∈ scc).map solidEdge

theorem mem_read_examples {k : String × String} {v : SymbolRecord × SymbolRecord} :
    (⟨k, v⟩ : Sigma fun _ : String × String => SymbolRecord × SymbolRecord) ∈
        orders.examples.read (edgeExamples (supportsIn orders s admits params)) ↔
      (edgeExamples (supportsIn orders s admits params)).lookup k = some v :=
  (orders.examples.perm _).mem_iff.trans (Rows.mem_entries_iff _ _ _)

/-- Each edge stands there with symbols that support it. -/
theorem supports_of_mem_innerEdges {e : SolidEdge}
    (mem : e ∈ innerEdges orders s admits params scc) :
    e.source ∈ scc ∧ e.target ∈ scc ∧
      ∃ sym target, Supports s admits params e.source e.target sym target ∧
        e.exampleSource = toRef sym ∧ e.exampleTarget = toRef target := by
  obtain ⟨⟨k, v⟩, inside, rfl⟩ := List.mem_map.mp mem
  obtain ⟨isRead, both⟩ := List.mem_filter.mp inside
  have found := mem_read_examples.mp isRead
  rcases lookup_foldl_addExample _ _ found with none | ⟨e, isSupport, rfl, rfl⟩
  · cases none
  · obtain ⟨source, target⟩ := of_decide_eq_true both
    exact ⟨source, target, e.source, e.target, mem_supportsIn.mp isSupport, rfl, rfl⟩

variable (orders) in
theorem exists_innerEdge_iff {a b : String} :
    (∃ e ∈ innerEdges orders s admits params scc, (e.source, e.target) = (a, b)) ↔
      a ∈ scc ∧ b ∈ scc ∧ Supported s admits params a b := by
  constructor
  · rintro ⟨e, mem, same⟩
    obtain ⟨rfl, rfl⟩ := Prod.mk.inj same
    obtain ⟨source, target, sym, used, supports, -⟩ := supports_of_mem_innerEdges mem
    exact ⟨source, target, sym, used, supports⟩
  · rintro ⟨source, target, supported⟩
    have isKey : (a, b) ∈ edgeExamples (supportsIn orders s admits params) :=
      (mem_foldl_addExample _ _ _).mpr (.inr ((exists_support_iff orders).mpr supported))
    obtain ⟨v, found⟩ := (Rows.mem_iff_lookup _ _).mp isKey
    refine ⟨solidEdge ⟨(a, b), v⟩, List.mem_map.mpr ⟨⟨(a, b), v⟩, ?_, rfl⟩, rfl⟩
    exact List.mem_filter.mpr ⟨mem_read_examples.mpr found, decide_eq_true ⟨source, target⟩⟩

theorem nodup_rank_innerEdges :
    ((innerEdges orders s admits params scc).map SolidEdge.rank).Nodup := by
  have keys : ((orders.examples.read (edgeExamples (supportsIn orders s admits params))).map
      Sigma.fst).Nodup :=
    ((orders.examples.perm _).map Sigma.fst).nodup_iff.mpr (AList.nodupKeys _)
  rw [List.map_map]
  have ranks : (SolidEdge.rank ∘ solidEdge) = toLex ∘ Sigma.fst := rfl
  rw [ranks, ← List.map_map]
  exact (keys.sublist (List.filter_sublist.map Sigma.fst)).map toLex.injective

theorem pairwise_rank_innerEdges :
    ((innerEdges orders s admits params scc).mergeSort fun a b => a.rank ≤ b.rank).Pairwise
      fun a b => a.rank < b.rank := by
  have distinct : (((innerEdges orders s admits params scc).mergeSort
      fun a b => a.rank ≤ b.rank).map SolidEdge.rank).Nodup :=
    ((List.mergeSort_perm _ _).map SolidEdge.rank).nodup_iff.mpr nodup_rank_innerEdges
  exact ((pairwise_mergeSort_key SolidEdge.rank _).and (List.pairwise_map.mp distinct)).imp
    fun both => lt_of_le_of_ne both.1 both.2

/-- A component of two or more packages is reported, with the edges inside it. -/
theorem cyclicFinding_exact {sccs : List (List String)}
    (classes : Classes orders s admits params sccs) (mem : scc ∈ sccs) (several : 2 ≤ scc.length) :
    ∃ f, cyclicFinding orders params (edgeExamples (supportsIn orders s admits params)) scc =
        some f ∧ f.packages.Perm scc ∧ f.Exact s admits params := by
  have nodup : scc.Nodup := (List.nodup_flatten.mp classes.nodup).1 scc mem
  have inner : innerEdges orders s admits params scc ≠ [] := by
    obtain ⟨a, b, rest, rfl⟩ : ∃ a b rest, scc = a :: b :: rest := by
      match scc, several with
      | a :: b :: rest, _ => exact ⟨a, b, rest, rfl⟩
    have other : a ≠ b := fun same => (List.nodup_cons.mp nodup).1 (same ▸ List.mem_cons_self)
    have both := (classes.whole _ mem a List.mem_cons_self b).mp (by simp)
    rcases both.1.cases_head with same | ⟨c, edge, path⟩
    · exact absurd same other
    · have inside : c ∈ a :: b :: rest :=
        (classes.whole _ mem a List.mem_cons_self c).mpr ⟨.single edge, path.trans both.2⟩
      obtain ⟨e, isEdge, -⟩ := (exists_innerEdge_iff orders).mpr
        ⟨List.mem_cons_self, inside, edge.1⟩
      exact List.ne_nil_of_mem isEdge
  have perm := List.mergeSort_perm scc fun a b => decide (a ≤ b)
  have sorted : (scc.mergeSort fun a b => a ≤ b).Pairwise (· ≤ ·) := pairwise_mergeSort_key id scc
  rw [cyclicFinding, if_neg (Nat.not_lt.mpr several), if_neg inner]
  refine ⟨_, rfl, perm, ⟨?_, ?_, fun a inside b => ?_, ?_⟩⟩
  · rw [perm.length_eq]
    exact several
  · exact (sorted.and (perm.nodup_iff.mpr nodup)).imp fun both => lt_of_le_of_ne both.1 both.2
  · rw [perm.mem_iff] at inside ⊢
    exact classes.whole scc mem a inside b
  · refine ⟨_, pairwise_rank_innerEdges, rfl, rfl, fun e isEdge => ?_, fun a b => ?_⟩
    · exact (supports_of_mem_innerEdges (List.mem_mergeSort.mp isEdge)).2.2
    · simp only [List.mem_mergeSort, perm.mem_iff]
      exact exists_innerEdge_iff orders

/-- **The findings are the classes of two or more packages that lead to each other**, each once. -/
theorem cyclicDependencies_spec (orders : SolidOrders) (s : ContentStore)
    (admits : SymbolRow → Bool) (params : SolidParams) :
    (∀ f ∈ cyclicDependencies orders params s admits, f.Exact s admits params) ∧
      (cyclicDependencies orders params s admits).Pairwise
        (fun f g => f.packages.Disjoint g.packages) ∧
      ∀ a b, a ≠ b → Mutual s admits params a b →
        ∃ f ∈ cyclicDependencies orders params s admits, a ∈ f.packages := by
  have classes := tarjanScc_classes orders s admits params
  rw [cyclicDependencies, detectCyclicDependency]
  have reported : ∀ scc f, scc ∈ tarjanScc orders.adjacency orders.targets
      (packageGraph orders s admits params) →
      cyclicFinding orders params (edgeExamples (supportsIn orders s admits params)) scc = some f →
      f.packages.Perm scc ∧ f.Exact s admits params := by
    intro scc f mem found
    have several : 2 ≤ scc.length := by
      by_contra few
      rw [cyclicFinding, if_pos (Nat.not_le.mp few)] at found
      cases found
    obtain ⟨g, found', rest⟩ := cyclicFinding_exact classes mem several
    obtain rfl := Option.some.inj (found.symm.trans found')
    exact rest
  refine ⟨fun f mem => ?_, ?_, fun a b other both => ?_⟩
  · obtain ⟨scc, isScc, found⟩ := List.mem_filterMap.mp mem
    exact (reported scc f isScc found).2
  · refine List.pairwise_filterMap.mpr ?_
    refine ((List.nodup_flatten.mp classes.nodup).2).imp_of_mem ?_
    intro scc scc' mem mem' apart f found g found' a inside inside'
    exact apart (((reported scc f mem found).1.mem_iff).mp inside)
      (((reported scc' g mem' found').1.mem_iff).mp inside')
  · obtain ⟨scc, isScc, inside⟩ := List.mem_flatten.mp ((classes.nodes a).mpr (both.isNode other))
    have inside' := (classes.whole scc isScc a inside b).mpr both
    have several : 2 ≤ scc.length := by
      by_contra few
      match scc, few with
      | [], _ => exact absurd inside List.not_mem_nil
      | [c], _ =>
          exact other ((List.mem_singleton.mp inside).trans (List.mem_singleton.mp inside').symm)
      | _ :: _ :: _, few => simp at few
    obtain ⟨f, found, perm, -⟩ := cyclicFinding_exact classes isScc several
    exact ⟨f, List.mem_filterMap.mpr ⟨scc, isScc, found⟩, perm.mem_iff.mpr inside⟩

end Findings

end Ministr.Service
