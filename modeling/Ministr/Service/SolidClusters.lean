/-
# Service.SolidClusters — clones, and containers that fall apart

Two detectors link symbols in pairs and report the clusters that the links make, by way of a
union-find.  The one for redundancy links candidates of one kind and one number of parameters
whose embeddings are near each other and whose references overlap.  The one for cohesion links
methods of a container that share a callee or have near embeddings, and reports a container that
has two clusters of two or more methods.

The reports are the classes that the links generate, each once (`redundancies_spec`), and the
containers with two such classes, each once (`lowCohesion_spec`), whatever the orders in which the
hash maps are read.  A float is what the operations of a `SolidFloats` make of it.
-/
import Ministr.Service.CyclicDependency
import Ministr.Bridge.Semantic
import Ministr.Theory.UnionFind
import Ministr.Theory.Scan

namespace Ministr.Service

open Ministr.Theory Ministr.Content

set_option autoImplicit false

/-- The operations of `f32` that the detectors use. -/
structure SolidFloats (F : Type) extends Bridge.Floats F where
  below : F → F → Bool
  ofNat : Nat → F

structure SolidThresholds (F : Type) where
  similarity : F
  jaccard : F
  srpCohesion : F

section Vectors

variable {F : Type} (ops : SolidFloats F)

/-- `normalize_in_place`. -/
def normalize (v : List F) : List F :=
  let norm := ops.sqrt (ops.sum (v.map fun x => ops.mul x x))
  if ops.below ops.zero norm then v.map fun x => ops.div x norm else v

/-- `cosine_similarity`, without the checks of lengths that the one of the bridges makes. -/
def cosineSimilarity (a b : List F) : F :=
  let dot := ops.sum (a.zipWith ops.mul b)
  let normA := ops.sqrt (ops.sum (a.map fun x => ops.mul x x))
  let normB := ops.sqrt (ops.sum (b.map fun x => ops.mul x x))
  if ops.isZero normA || ops.isZero normB then ops.zero else ops.div dot (ops.mul normA normB)

/-- The average of what is summed up over the edges of a cluster. -/
def average (values : List F) : F := ops.div (ops.sum values) (ops.ofNat (max values.length 1))

/-- The share of two sets in their union. -/
def jaccardOf (a b : Finset String) : F :=
  if (a ∪ b).card = 0 then ops.zero
  else ops.div (ops.ofNat (a ∩ b).card) (ops.ofNat (a ∪ b).card)

/-- `VectorId::symbol_stub`. -/
def symbolStub (id : String) : String := "symbol-stub::" ++ id

/-- `strip_prefix("symbol-stub::")` -/
def stubContent (vid : String) : Option String :=
  (Git.stripStart "symbol-stub::".toList vid.toList).map String.ofList

/-- `vectors`: those of the candidates that are stored. -/
def vectorsOf (fullDim : Rows String (List F)) (candidates : List SymbolRecord) :
    Rows String (List F) :=
  let rawVecs := candidates.filterMap fun sym =>
    (fullDim.lookup (symbolStub sym.id)).map fun v => (symbolStub sym.id, v)
  Rows.upsertAll ∅ (rawVecs.filterMap fun e =>
    (stubContent e.1).map fun content => (content, normalize ops e.2))

end Vectors

/-! ## Signatures and containers -/

/-- Where the scan of a signature is. -/
structure AritySt where
  depth : Int
  commas : Nat
  started : Bool
  hadContent : Bool

/-- The loop over the characters, up to the bracket that closes the first group. -/
def arityScan : List Char → AritySt → AritySt
  | [], st => st
  | b :: rest, st =>
      if b = '(' then
        arityScan rest { st with depth := st.depth + 1, started := st.started || st.depth == 0 }
      else if b = ')' then
        let st := { st with depth := st.depth - 1 }
        if st.depth = 0 ∧ st.started = true then st else arityScan rest st
      else if b = ',' ∧ st.depth = 1 then
        arityScan rest { st with commas := st.commas + 1, hadContent := true }
      else if b = ' ' ∨ b = '\t' ∨ b = '\n' then arityScan rest st
      else if 1 ≤ st.depth then arityScan rest { st with hadContent := true }
      else arityScan rest st

/-- `arity_bucket`. -/
def arityBucket (signature : String) : Nat :=
  let st := arityScan signature.toList ⟨0, 0, false, false⟩
  if !st.started || !st.hadContent then 0 else min (st.commas + 1) 5

/-- `methods_of`. -/
def methodsOf (container : SymbolRecord) (symbols : List SymbolRecord) : List SymbolRecord :=
  let expected :=
    if container.modulePath = "" then container.name
    else container.modulePath ++ "::" ++ container.name
  symbols.filter fun sym => (sym.kind = "function" ∨ sym.kind = "method") ∧
    sym.modulePath = expected ∧ sym.filePath = container.filePath

/-! ## The findings -/

/-- `SolidFinding::Redundancy`. -/
structure Redundancy (F : Type) where
  members : List SolidSymbolRef
  membersOmitted : Nat
  membersTotal : Nat
  canonical : SolidSymbolRef
  avgCosine : F
  avgJaccard : F
  crossModule : Bool

structure SolidComponent where
  size : Nat
  members : List SolidSymbolRef
  membersOmitted : Nat
  deriving DecidableEq, Repr

/-- `SolidFinding::LowCohesion`. -/
structure LowCohesion where
  container : SolidSymbolRef
  methodCount : Nat
  components : List SolidComponent
  deriving DecidableEq, Repr

/-- The orders in which the maps and sets of the two detectors are read. -/
structure ClusterOrders where
  refs : SetOrder SymbolRef
  buckets : HashOrder (String × Nat) (List SymbolRecord)
  clusters : HashOrder SymbolRecord (List SymbolRecord)
  containers : HashOrder (String × String × String) SymbolRecord

section Detectors

variable {F : Type} (ops : SolidFloats F) (thresholds : SolidThresholds F) (params : SolidParams)
  (orders : ClusterOrders)

/-- The entry of `callees_map` for one symbol. -/
def calleesOf (order : SetOrder SymbolRef) (s : ContentStore) (sym : SymbolRecord) :
    Finset String :=
  (((queryRefs order s sym.id none).filter fun r =>
    r.fromSymbolId = sym.id ∧ r.refKind = .calls).map SymbolRef.toSymbolId).toFinset

/-- `callees_map`. -/
def calleesMap (order : SetOrder SymbolRef) (s : ContentStore) (symbols : List SymbolRecord) :
    Rows String (Finset String) :=
  Rows.upsertAll ∅ (symbols.map fun sym => (sym.id, calleesOf order s sym))

/-- `candidates`. -/
def solidCandidates (symbols : List SymbolRecord) : List SymbolRecord :=
  symbols.filter fun sym => params.minLines ≤ sym.lineEnd - sym.lineStart + 1

/-- What the detectors compare symbols by. -/
structure Signals (F : Type) where
  callees : Rows String (Finset String)
  uses : Rows String (Finset String)
  vectors : Rows String (List F)

variable (signals : Signals F)

/-- All that a symbol refers to. -/
def Signals.reach (sym : SymbolRecord) : Finset String :=
  (signals.callees.lookup sym.id).getD ∅ ∪ (signals.uses.lookup sym.id).getD ∅

/-- `&vectors[&id]`, for the members of a bucket, which have one. -/
def Signals.vector (sym : SymbolRecord) : List F := (signals.vectors.lookup sym.id).getD []

def pairCosine (a b : SymbolRecord) : F :=
  cosineSimilarity ops (signals.vector a) (signals.vector b)

def pairJaccard (a b : SymbolRecord) : F := jaccardOf ops (signals.reach a) (signals.reach b)

/-- What the inner loop for redundancy lets pass. -/
def redundant (a b : SymbolRecord) : Bool :=
  (signals.vector a).length = (signals.vector b).length ∧
    ops.below (pairCosine ops signals a b) thresholds.similarity = false ∧
    ops.below (pairJaccard ops signals a b) thresholds.jaccard = false

/-- The key that `max_by_key` goes by. -/
def canonicalRank (sym : SymbolRecord) : Nat ×ₗ Stringᵒᵈ :=
  toLex (sym.lineEnd - sym.lineStart, OrderDual.toDual sym.filePath)

/-- What is reported of one cluster. -/
def redundancyOf (edges : List (SymbolRecord × SymbolRecord)) (members : List SymbolRecord) :
    Option (Redundancy F) :=
  if members.length < 2 then none
  else
    let inner := edges.filter fun e => e.1 ∈ members ∧ e.2 ∈ members
    let kept := truncateWithCount (members.map toRef) params.representativeCount
    (scanBest (fun a b => canonicalRank b ≤ canonicalRank a) members).map fun canonical =>
      { members := kept.1
        membersOmitted := kept.2
        membersTotal := members.length
        canonical := toRef canonical
        avgCosine := average ops (inner.map fun e => pairCosine ops signals e.1 e.2)
        avgJaccard := average ops (inner.map fun e => pairJaccard ops signals e.1 e.2)
        crossModule := 1 < (members.map fun m => m.filePath).toFinset.card }

/-- One turn of the loop over the buckets. -/
def redundancyIn (bucket : List SymbolRecord) : List (Redundancy F) :=
  if bucket.length < 2 then []
  else if params.maxPairs < bucket.length * (bucket.length - 1) / 2 then []
  else
    let linked := redundant ops thresholds signals
    let edges := (pairsOf bucket).filter fun e => linked e.1 e.2
    (UnionFind.clusters orders.clusters linked bucket).filterMap
      (redundancyOf ops params signals edges)

def bucketKey (sym : SymbolRecord) : String × Nat := (sym.kind, arityBucket sym.signature)

/-- `detect_redundancy`. -/
def detectRedundancy (candidates : List SymbolRecord) : List (Redundancy F) :=
  let withVector := candidates.filter fun sym => decide (sym.id ∈ signals.vectors)
  (orders.buckets.read (buckets bucketKey withVector)).flatMap fun e =>
    redundancyIn ops thresholds params orders signals e.2

/-- Both methods have an embedding, and these are near each other. -/
def nearby (va vb : Option (List F)) : Bool :=
  match va, vb with
  | some va, some vb =>
      va.length = vb.length && ops.atLeast (cosineSimilarity ops va vb) thresholds.srpCohesion
  | _, _ => false

/-- What the inner loop for cohesion connects. -/
def cohesive (a b : SymbolRecord) : Bool :=
  1 ≤ ((signals.callees.lookup a.id).getD ∅ ∩ (signals.callees.lookup b.id).getD ∅).card ||
    nearby ops thresholds (signals.vectors.lookup a.id) (signals.vectors.lookup b.id)

def containerKey (c : SymbolRecord) : String × String × String :=
  (c.filePath, c.modulePath, c.name)

/-- Of the containers with one key the one that starts first is kept. -/
def addContainer (byKey : Rows (String × String × String) SymbolRecord) (c : SymbolRecord) :
    Rows (String × String × String) SymbolRecord :=
  match byKey.lookup (containerKey c) with
  | none => byKey.insert (containerKey c) c
  | some prev => if c.lineStart < prev.lineStart then byKey.insert (containerKey c) c else byKey

/-- `by_key`. -/
def containersByKey (symbols : List SymbolRecord) : Rows (String × String × String) SymbolRecord :=
  (symbols.filter fun sym => sym.kind ∈ params.containerKinds).foldl addContainer ∅

def componentOf (members : List SolidSymbolRef) : SolidComponent where
  size := members.length
  members := (truncateWithCount members params.representativeCount).1
  membersOmitted := (truncateWithCount members params.representativeCount).2

/-- What is reported of one container. -/
def lowCohesionOf (symbols : List SymbolRecord) (container : SymbolRecord) : Option LowCohesion :=
  let methods := methodsOf container symbols
  if methods.length < 4 then none
  else
    let groups := UnionFind.clusters orders.clusters (cohesive ops thresholds signals) methods
    let realClusters := (groups.filter fun g => 2 ≤ g.length).length
    if 2 ≤ realClusters then
      let raw := (groups.map fun g => g.map toRef).mergeSort fun a b => b.length ≤ a.length
      some
        { container := toRef container
          methodCount := methods.length
          components := raw.map (componentOf params) }
    else none

/-- `detect_srp`. -/
def detectSrp (symbols : List SymbolRecord) : List LowCohesion :=
  (orders.containers.read (containersByKey params symbols)).filterMap fun e =>
    lowCohesionOf ops thresholds params orders signals symbols e.2

end Detectors

section Service

variable {F : Type} (ops : SolidFloats F) (thresholds : SolidThresholds F) (params : SolidParams)
  (orders : ClusterOrders) (fullDim : Rows String (List F)) (s : ContentStore)
  (admits : SymbolRow → Bool)

/-- What `detect_solid_violations` gathers before the detectors run. -/
def solidSignals (symbols : List SymbolRecord) : Signals F where
  callees := calleesMap orders.refs s symbols
  uses := usesMap orders.refs s symbols
  vectors := vectorsOf ops fullDim (solidCandidates params symbols)

/-- The clones among the symbols that a filter admits. -/
def redundancies : List (Redundancy F) :=
  let symbols := s.listSymbols admits
  detectRedundancy ops thresholds params orders (solidSignals ops params orders fullDim s symbols)
    (solidCandidates params symbols)

/-- The containers that fall apart. -/
def lowCohesion : List LowCohesion :=
  let symbols := s.listSymbols admits
  detectSrp ops thresholds params orders (solidSignals ops params orders fullDim s symbols) symbols

end Service

/-! ## What a clone is, and a container that falls apart -/

section Spec

variable {F : Type} (ops : SolidFloats F) (thresholds : SolidThresholds F) (params : SolidParams)
  (fullDim : Rows String (List F)) (s : ContentStore) (admits : SymbolRow → Bool)

/-- The embedding that a listed symbol is compared by; short symbols have none. -/
def vectorFor (sym : SymbolRecord) : Option (List F) :=
  if params.minLines ≤ sym.lineEnd - sym.lineStart + 1 then
    (fullDim.lookup ("symbol-stub::" ++ sym.id)).map (normalize ops)
  else none

/-- The symbols that one refers to in one of some ways. -/
def referred (kinds : List RefKind) (sym : SymbolRecord) : Finset String :=
  (s.symbolRefs.filter fun r => r.fromSymbolId = sym.id ∧ r.refKind ∈ kinds).image
    SymbolRef.toSymbolId

def cosineFor (a b : SymbolRecord) : F :=
  cosineSimilarity ops ((vectorFor ops params fullDim a).getD [])
    ((vectorFor ops params fullDim b).getD [])

def jaccardFor (a b : SymbolRecord) : F :=
  jaccardOf ops (referred s [.calls, .uses, .imports] a) (referred s [.calls, .uses, .imports] b)

/-- The listed symbols of one kind and number of parameters that have an embedding. -/
def comparable (key : String × Nat) : List SymbolRecord :=
  (s.listSymbols admits).filter fun sym =>
    (vectorFor ops params fullDim sym).isSome ∧ bucketKey sym = key

/-- The link between two clones, the earlier one first. -/
structure Twins (a b : SymbolRecord) : Prop where
  earlier : [a, b].Sublist (comparable ops params fullDim s admits (bucketKey a))
  few : (comparable ops params fullDim s admits (bucketKey a)).length *
    ((comparable ops params fullDim s admits (bucketKey a)).length - 1) / 2 ≤ params.maxPairs
  sameLength : ((vectorFor ops params fullDim a).getD []).length =
    ((vectorFor ops params fullDim b).getD []).length
  near : ops.below (cosineFor ops params fullDim a b) thresholds.similarity = false
  overlapping : ops.below (jaccardFor ops s a b) thresholds.jaccard = false

/-- To be clones of each other, directly or by way of others. -/
abbrev Clones : SymbolRecord → SymbolRecord → Prop :=
  Relation.EqvGen (Twins ops thresholds params fullDim s admits)

/-- A finding is about a whole class of clones. -/
structure Redundancy.Exact (f : Redundancy F) (members : List SymbolRecord) : Prop where
  several : 2 ≤ members.length
  ordered : members.Sublist (s.listSymbols admits)
  whole : ∀ a ∈ members, ∀ b, b ∈ members ↔ Clones ops thresholds params fullDim s admits a b
  total : f.membersTotal = members.length
  shown : (f.members, f.membersOmitted) =
    truncateWithCount (members.map toRef) params.representativeCount
  canonical : ∃ front c back, members = front ++ c :: back ∧ f.canonical = toRef c ∧
    (∀ m ∈ front, canonicalRank m ≤ canonicalRank c) ∧
    ∀ m ∈ back, canonicalRank m < canonicalRank c
  averages : ∃ links : List (SymbolRecord × SymbolRecord), links.Sublist (pairsOf members) ∧
    (∀ a ∈ members, ∀ b, (a, b) ∈ links ↔ Twins ops thresholds params fullDim s admits a b) ∧
    f.avgCosine = average ops (links.map fun e => cosineFor ops params fullDim e.1 e.2) ∧
    f.avgJaccard = average ops (links.map fun e => jaccardFor ops s e.1 e.2)
  crossModule : f.crossModule = true ↔
    ∃ a ∈ members, ∃ b ∈ members, a.filePath ≠ b.filePath

/-- The link between two methods of a container, the earlier one first. -/
structure Cohere (container a b : SymbolRecord) : Prop where
  earlier : [a, b].Sublist (methodsOf container (s.listSymbols admits))
  linked : (∃ id, id ∈ referred s [.calls] a ∧ id ∈ referred s [.calls] b) ∨
    ∃ va vb, vectorFor ops params fullDim a = some va ∧ vectorFor ops params fullDim b = some vb ∧
      va.length = vb.length ∧
      ops.atLeast (cosineSimilarity ops va vb) thresholds.srpCohesion = true

/-- To be linked within a container, directly or by way of others. -/
abbrev Coherent (container : SymbolRecord) : SymbolRecord → SymbolRecord → Prop :=
  Relation.EqvGen (Cohere ops thresholds params fullDim s admits container)

/-- Two classes of two or more methods. -/
def Splits (container : SymbolRecord) : Prop :=
  4 ≤ (methodsOf container (s.listSymbols admits)).length ∧
    ∃ a b c d, a ≠ b ∧ c ≠ d ∧ Coherent ops thresholds params fullDim s admits container a b ∧
      Coherent ops thresholds params fullDim s admits container c d ∧
      ¬Coherent ops thresholds params fullDim s admits container a c

/-- A listed symbol of one of the given kinds. -/
def IsContainer (c : SymbolRecord) : Prop :=
  c ∈ s.listSymbols admits ∧ c.kind ∈ params.containerKinds

/-- A finding is about the first of the containers with one key, and about all its classes. -/
structure LowCohesion.Exact (f : LowCohesion) (c : SymbolRecord) : Prop where
  isContainer : IsContainer params s admits c
  first : ∀ other, IsContainer params s admits other → containerKey other = containerKey c →
    c.lineStart ≤ other.lineStart
  splits : Splits ops thresholds params fullDim s admits c
  container : f.container = toRef c
  methodCount : f.methodCount = (methodsOf c (s.listSymbols admits)).length
  components : ∃ groups,
    Clusters (Coherent ops thresholds params fullDim s admits c)
      (methodsOf c (s.listSymbols admits)) groups ∧
    groups.Pairwise (fun g g' => g'.length ≤ g.length) ∧
    f.components = groups.map fun g => componentOf params (g.map toRef)

end Spec

/-! ## What the detectors compare -/

section Signals

variable {F : Type} {ops : SolidFloats F} {thresholds : SolidThresholds F} {params : SolidParams}
  {orders : ClusterOrders} {fullDim : Rows String (List F)} {s : ContentStore}
  {admits : SymbolRow → Bool} {sym a b : SymbolRecord}

/-- What the detectors are given. -/
abbrev signalsIn (ops : SolidFloats F) (params : SolidParams) (orders : ClusterOrders)
    (fullDim : Rows String (List F)) (s : ContentStore) (admits : SymbolRow → Bool) : Signals F :=
  solidSignals ops params orders fullDim s (s.listSymbols admits)

theorem calleesOf_eq {order : SetOrder SymbolRef} :
    calleesOf order s sym = referred s [.calls] sym := by
  ext id
  simp only [calleesOf, referred, List.mem_toFinset, List.mem_map, List.mem_filter, mem_queryRefs,
    decide_eq_true_eq, Finset.mem_image, Finset.mem_filter, List.mem_singleton]
  constructor
  · rintro ⟨r, ⟨⟨stored, -⟩, isCall⟩, rfl⟩
    exact ⟨r, ⟨stored, isCall⟩, rfl⟩
  · rintro ⟨r, ⟨stored, isCall⟩, rfl⟩
    exact ⟨r, ⟨⟨stored, .inl isCall.1, fun k none => by cases none⟩, isCall⟩, rfl⟩

theorem lookup_callees (mem : sym ∈ s.listSymbols admits) :
    ((signalsIn ops params orders fullDim s admits).callees.lookup sym.id).getD ∅ =
      referred s [.calls] sym := by
  have found : (signalsIn ops params orders fullDim s admits).callees.lookup sym.id =
      some (calleesOf orders.refs s sym) := lookup_keyed.mpr ⟨sym, mem, rfl, rfl⟩
  rw [found, Option.getD_some, calleesOf_eq]

theorem reach_eq (mem : sym ∈ s.listSymbols admits) :
    (signalsIn ops params orders fullDim s admits).reach sym =
      referred s [.calls, .uses, .imports] sym := by
  have found : (signalsIn ops params orders fullDim s admits).uses.lookup sym.id =
      some (usesOf orders.refs s sym) := lookup_usesMap mem
  rw [Signals.reach, lookup_callees mem, found, Option.getD_some]
  ext id
  rw [Finset.mem_union, mem_usesOf]
  simp only [referred, Finset.mem_image, Finset.mem_filter, List.mem_cons, List.not_mem_nil,
    or_false]
  constructor
  · rintro (⟨r, ⟨stored, same, isCall⟩, rfl⟩ | stored | stored)
    · exact ⟨r, ⟨stored, same, .inl isCall⟩, rfl⟩
    · exact ⟨_, ⟨stored, rfl, .inr (.inl rfl)⟩, rfl⟩
    · exact ⟨_, ⟨stored, rfl, .inr (.inr rfl)⟩, rfl⟩
  · rintro ⟨⟨source, target, kind⟩, ⟨stored, rfl, rfl | rfl | rfl⟩, rfl⟩
    · exact .inl ⟨_, ⟨stored, rfl, rfl⟩, rfl⟩
    · exact .inr (.inl stored)
    · exact .inr (.inr stored)

theorem stubContent_symbolStub (id : String) : stubContent (symbolStub id) = some id := by
  rw [stubContent, symbolStub, String.toList_append, Git.stripStart_append, Option.map_some,
    String.ofList_toList]

theorem lookup_vectors (mem : sym ∈ s.listSymbols admits) :
    (signalsIn ops params orders fullDim s admits).vectors.lookup sym.id =
      vectorFor ops params fullDim sym := by
  have entries : (((solidCandidates params (s.listSymbols admits)).filterMap fun sym =>
      (fullDim.lookup (symbolStub sym.id)).map fun v => (symbolStub sym.id, v)).filterMap fun e =>
        (stubContent e.1).map fun content => (content, normalize ops e.2)) =
      (s.listSymbols admits).filterMap fun sym =>
        (vectorFor ops params fullDim sym).map fun v => (sym.id, v) := by
    rw [solidCandidates, List.filterMap_filter, List.filterMap_filterMap]
    refine List.filterMap_congr fun sym _ => ?_
    rw [vectorFor]
    by_cases long : params.minLines ≤ sym.lineEnd - sym.lineStart + 1
    · rw [if_pos (decide_eq_true long), if_pos long]
      cases stored : fullDim.lookup (symbolStub sym.id) with
      | none => rw [show fullDim.lookup ("symbol-stub::" ++ sym.id) = none from stored]; rfl
      | some v =>
          rw [show fullDim.lookup ("symbol-stub::" ++ sym.id) = some v from stored]
          simp [stubContent_symbolStub]
    · rw [if_neg long, if_neg (by simpa using long)]
      rfl
  have functional : ∀ v, (sym.id, v) ∈ ((s.listSymbols admits).filterMap fun sym =>
      (vectorFor ops params fullDim sym).map fun v => (sym.id, v)) ↔
      vectorFor ops params fullDim sym = some v := fun v => by
    rw [List.mem_filterMap]
    constructor
    · rintro ⟨other, mem', found⟩
      obtain ⟨w, isVector, same⟩ := Option.map_eq_some_iff.mp found
      obtain ⟨sameId, rfl⟩ := Prod.mk.inj same
      rwa [listSymbols_unique mem mem' sameId.symm]
    · intro isVector
      exact ⟨sym, mem, by rw [isVector, Option.map_some]⟩
  have found : ∀ v, (signalsIn ops params orders fullDim s admits).vectors.lookup sym.id = some v ↔
      vectorFor ops params fullDim sym = some v := fun v => by
    show (vectorsOf ops fullDim (solidCandidates params (s.listSymbols admits))).lookup sym.id =
      some v ↔ _
    rw [vectorsOf, entries, Rows.lookup_upsertAll, AList.lookup_empty,
      Option.or_none, lastOf_eq_some_iff fun w mem w' mem' => Option.some.inj
        (((functional w).mp mem).symm.trans ((functional w').mp mem')), functional]
  exact Option.ext found

end Signals

/-! ## Clones -/

section Redundancy

variable {F : Type} {ops : SolidFloats F} {thresholds : SolidThresholds F} {params : SolidParams}
  {orders : ClusterOrders} {fullDim : Rows String (List F)} {s : ContentStore}
  {admits : SymbolRow → Bool} {sym a b : SymbolRecord} {key : String × Nat}

theorem mem_comparable : sym ∈ comparable ops params fullDim s admits key ↔
    sym ∈ s.listSymbols admits ∧ (vectorFor ops params fullDim sym).isSome = true ∧
      bucketKey sym = key := by
  rw [comparable, List.mem_filter, decide_eq_true_eq]

variable (ops params fullDim s admits key) in
theorem nodup_comparable : (comparable ops params fullDim s admits key).Nodup :=
  nodup_listSymbols.filter _

/-- The symbols that are put into buckets. -/
abbrev withVector (ops : SolidFloats F) (params : SolidParams) (orders : ClusterOrders)
    (fullDim : Rows String (List F)) (s : ContentStore) (admits : SymbolRow → Bool) :
    List SymbolRecord :=
  (solidCandidates params (s.listSymbols admits)).filter fun sym =>
    decide (sym.id ∈ (signalsIn ops params orders fullDim s admits).vectors)

variable (orders) in
theorem withVector_filter (key : String × Nat) :
    ((withVector ops params orders fullDim s admits).filter fun sym => bucketKey sym = key) =
      comparable ops params fullDim s admits key := by
  rw [comparable, withVector, solidCandidates, List.filter_filter, List.filter_filter]
  refine List.filter_congr fun sym mem => ?_
  have stored : sym.id ∈ (signalsIn ops params orders fullDim s admits).vectors ↔
      (vectorFor ops params fullDim sym).isSome = true := by
    rw [← AList.lookup_isSome, lookup_vectors mem]
  have long : (vectorFor ops params fullDim sym).isSome = true →
      params.minLines ≤ sym.lineEnd - sym.lineStart + 1 := by
    intro isSome
    by_contra short
    rw [vectorFor, if_neg short] at isSome
    cases isSome
  rw [Bool.eq_iff_iff]
  simp only [Bool.and_eq_true, decide_eq_true_eq, stored]
  exact ⟨fun both => ⟨both.1.2, both.1.1⟩, fun both => ⟨⟨both.2, both.1⟩, long both.1⟩⟩

/-- What is compared is what was gathered. -/
theorem pairCosine_eq (mem : a ∈ s.listSymbols admits) (mem' : b ∈ s.listSymbols admits) :
    pairCosine ops (signalsIn ops params orders fullDim s admits) a b =
      cosineFor ops params fullDim a b := by
  rw [pairCosine, Signals.vector, Signals.vector, lookup_vectors mem, lookup_vectors mem', cosineFor]

theorem pairJaccard_eq (mem : a ∈ s.listSymbols admits) (mem' : b ∈ s.listSymbols admits) :
    pairJaccard ops (signalsIn ops params orders fullDim s admits) a b = jaccardFor ops s a b := by
  rw [pairJaccard, reach_eq mem, reach_eq mem', jaccardFor]

/-- A bucket that is not too large to be compared. -/
def Few (ops : SolidFloats F) (params : SolidParams) (fullDim : Rows String (List F))
    (s : ContentStore) (admits : SymbolRow → Bool) (key : String × Nat) : Prop :=
  (comparable ops params fullDim s admits key).length *
    ((comparable ops params fullDim s admits key).length - 1) / 2 ≤ params.maxPairs

theorem twins_iff (few : Few ops params fullDim s admits key) :
    ([a, b].Sublist (comparable ops params fullDim s admits key) ∧
        redundant ops thresholds (signalsIn ops params orders fullDim s admits) a b = true) ↔
      Twins ops thresholds params fullDim s admits a b ∧ bucketKey a = key := by
  constructor
  · rintro ⟨earlier, linked⟩
    obtain ⟨mem, -, isKey⟩ := mem_comparable.mp (earlier.subset (by simp : a ∈ [a, b]))
    obtain ⟨mem', -, -⟩ := mem_comparable.mp (earlier.subset (by simp : b ∈ [a, b]))
    subst isKey
    rw [redundant, decide_eq_true_eq, pairCosine_eq mem mem', pairJaccard_eq mem mem',
      Signals.vector, Signals.vector, lookup_vectors mem, lookup_vectors mem'] at linked
    exact ⟨⟨earlier, few, linked.1, linked.2.1, linked.2.2⟩, rfl⟩
  · rintro ⟨twins, rfl⟩
    obtain ⟨mem, -, -⟩ := mem_comparable.mp (twins.earlier.subset (by simp : a ∈ [a, b]))
    obtain ⟨mem', -, -⟩ := mem_comparable.mp (twins.earlier.subset (by simp : b ∈ [a, b]))
    rw [redundant, decide_eq_true_eq, pairCosine_eq mem mem', pairJaccard_eq mem mem',
      Signals.vector, Signals.vector, lookup_vectors mem, lookup_vectors mem']
    exact ⟨twins.earlier, twins.sameLength, twins.near, twins.overlapping⟩

theorem Twins.mem_iff (twins : Twins ops thresholds params fullDim s admits a b) :
    a ∈ comparable ops params fullDim s admits key ↔
      b ∈ comparable ops params fullDim s admits key := by
  have mem := mem_comparable.mp (twins.earlier.subset (by simp : a ∈ [a, b]))
  have mem' := mem_comparable.mp (twins.earlier.subset (by simp : b ∈ [a, b]))
  rw [mem_comparable, mem_comparable, mem'.2.2]
  exact ⟨fun isIn => ⟨mem'.1, mem'.2.1, isIn.2.2⟩, fun isIn => ⟨mem.1, mem.2.1, isIn.2.2⟩⟩

/-- The clusters of a bucket. -/
abbrev bucketClusters (ops : SolidFloats F) (thresholds : SolidThresholds F)
    (params : SolidParams) (orders : ClusterOrders) (fullDim : Rows String (List F))
    (s : ContentStore) (admits : SymbolRow → Bool) (key : String × Nat) :
    List (List SymbolRecord) :=
  UnionFind.clusters orders.clusters
    (redundant ops thresholds (signalsIn ops params orders fullDim s admits))
    (comparable ops params fullDim s admits key)

/-- The clusters of a bucket are whole classes of clones. -/
theorem bucketClusters_whole (few : Few ops params fullDim s admits key) {l : List SymbolRecord}
    (mem : l ∈ bucketClusters ops thresholds params orders fullDim s admits key) (isIn : a ∈ l)
    (b : SymbolRecord) : b ∈ l ↔ Clones ops thresholds params fullDim s admits a b := by
  have clusters := UnionFind.clusters_spec orders.clusters
    (redundant ops thresholds (signalsIn ops params orders fullDim s admits))
    (nodup_comparable ops params fullDim s admits key)
  have isIn' := (clusters.sublist l mem).subset isIn
  have isKey := (mem_comparable.mp isIn').2.2
  rw [clusters.whole l mem a isIn b]
  have rels : (fun a b => [a, b].Sublist (comparable ops params fullDim s admits key) ∧
      redundant ops thresholds (signalsIn ops params orders fullDim s admits) a b = true) =
      fun x y => Twins ops thresholds params fullDim s admits x y ∧ bucketKey x = bucketKey a := by
    funext x y
    rw [isKey]
    exact propext (twins_iff few)
  rw [rels]
  constructor
  · intro both
    exact both.2.mono fun x y related => related.1
  · intro clones
    have inside := eqvGen_within (fun x => x ∈ comparable ops params fullDim s admits key)
      (fun x y twins => propext twins.mem_iff) clones
    refine ⟨inside.1.mp isIn', (eqvGen_within bucketKey (fun x y twins => ?_) clones).2⟩
    exact (mem_comparable.mp (twins.earlier.subset (by simp : y ∈ [x, y]))).2.2.symm

/-- The links among some symbols. -/
abbrev linksIn (ops : SolidFloats F) (thresholds : SolidThresholds F) (params : SolidParams)
    (orders : ClusterOrders) (fullDim : Rows String (List F)) (s : ContentStore)
    (admits : SymbolRow → Bool) (l : List SymbolRecord) : List (SymbolRecord × SymbolRecord) :=
  (pairsOf l).filter fun e =>
    redundant ops thresholds (signalsIn ops params orders fullDim s admits) e.1 e.2

/-- The edges of a bucket that lie inside a cluster are the links among its members. -/
theorem inner_eq {l : List SymbolRecord}
    (sub : l.Sublist (comparable ops params fullDim s admits key)) :
    ((linksIn ops thresholds params orders fullDim s admits
        (comparable ops params fullDim s admits key)).filter
          fun e => decide (e.1 ∈ l ∧ e.2 ∈ l)) =
      linksIn ops thresholds params orders fullDim s admits l := by
  have pairs := pairsOf_filter (comparable ops params fullDim s admits key)
    (fun x => decide (x ∈ l))
  rw [filter_of_sublist sub (nodup_comparable ..)] at pairs
  rw [linksIn, linksIn, pairs, List.filter_filter, List.filter_filter]
  refine List.filter_congr fun e _ => ?_
  rw [Bool.and_comm, Bool.decide_and]

theorem mem_linksIn (few : Few ops params fullDim s admits key) {l : List SymbolRecord}
    (mem : l ∈ bucketClusters ops thresholds params orders fullDim s admits key)
    (sub : l.Sublist (comparable ops params fullDim s admits key)) (isIn : a ∈ l) :
    (a, b) ∈ linksIn ops thresholds params orders fullDim s admits l ↔
      Twins ops thresholds params fullDim s admits a b := by
  have isKey := (mem_comparable.mp (sub.subset isIn)).2.2
  rw [← inner_eq sub, List.mem_filter, decide_eq_true_eq, linksIn, List.mem_filter, mem_pairsOf]
  dsimp only
  rw [twins_iff few]
  constructor
  · intro both
    exact both.1.1
  · intro twins
    exact ⟨⟨twins, isKey⟩, isIn, (bucketClusters_whole few mem isIn b).mpr (.rel _ _ twins)⟩

variable (orders) in
/-- A report is about its whole cluster. -/
theorem redundancyOf_exact (few : Few ops params fullDim s admits key) {l : List SymbolRecord}
    (mem : l ∈ bucketClusters ops thresholds params orders fullDim s admits key)
    {f : Redundancy F}
    (found : redundancyOf ops params (signalsIn ops params orders fullDim s admits)
      (linksIn ops thresholds params orders fullDim s admits
        (comparable ops params fullDim s admits key)) l = some f) :
    f.Exact ops thresholds params fullDim s admits l := by
  have sub := (UnionFind.clusters_spec orders.clusters
    (redundant ops thresholds (signalsIn ops params orders fullDim s admits))
    (nodup_comparable ..)).sublist l mem
  have listed : ∀ a ∈ l, a ∈ s.listSymbols admits := fun a isIn =>
    (mem_comparable.mp (sub.subset isIn)).1
  have ends : ∀ e ∈ linksIn ops thresholds params orders fullDim s admits l,
      e.1 ∈ s.listSymbols admits ∧ e.2 ∈ s.listSymbols admits := fun e isIn => by
    obtain ⟨first, second⟩ := mem_of_mem_pairsOf (List.mem_filter.mp isIn).1
    exact ⟨listed _ first, listed _ second⟩
  rw [redundancyOf] at found
  by_cases single : l.length < 2
  · rw [if_pos single] at found
    cases found
  rw [if_neg single, inner_eq sub] at found
  obtain ⟨c, best, rfl⟩ := Option.map_eq_some_iff.mp found
  have canonical := split_of_scanBest
    (fun a b c first second => by
      rw [decide_eq_true_eq] at first second ⊢
      exact second.trans first)
    (fun a b c first second => by
      rw [decide_eq_true_eq] at first ⊢
      rw [decide_eq_false_iff_not, not_le] at second
      exact second.le.trans first) best
  refine
    { several := Nat.not_lt.mp single
      ordered := sub.trans List.filter_sublist
      whole := fun a isIn => bucketClusters_whole few mem isIn
      total := rfl
      shown := rfl
      canonical := ?_
      averages := ?_
      crossModule := ?_ }
  · obtain ⟨front, back, whole, beats, unbeaten⟩ := canonical
    exact ⟨front, c, back, whole, rfl, fun m isIn => of_decide_eq_true (beats m isIn),
      fun m isIn => not_le.mp (of_decide_eq_false (unbeaten m isIn))⟩
  · refine ⟨linksIn ops thresholds params orders fullDim s admits l, List.filter_sublist,
      fun a isIn b => mem_linksIn few mem sub isIn, ?_, ?_⟩
    · refine congrArg (average ops) (List.map_congr_left fun e isLink => ?_)
      exact pairCosine_eq (ends e isLink).1 (ends e isLink).2
    · refine congrArg (average ops) (List.map_congr_left fun e isLink => ?_)
      exact pairJaccard_eq (ends e isLink).1 (ends e isLink).2
  · rw [decide_eq_true_eq, Finset.one_lt_card]
    simp

/-- A cluster of two or more is reported. -/
theorem redundancyOf_isSome {signals : Signals F} {edges : List (SymbolRecord × SymbolRecord)}
    {l : List SymbolRecord} :
    (redundancyOf ops params signals edges l).isSome = decide (2 ≤ l.length) := by
  rw [redundancyOf]
  by_cases single : l.length < 2
  · rw [if_pos single, Option.isSome_none, decide_eq_false (by omega)]
  · rw [if_neg single, Option.isSome_map, decide_eq_true (by omega), Option.isSome_iff_ne_none]
    intro none
    rw [scanBest_eq_none.mp none] at single
    exact single (by decide)

/-- The classes of the clones of one bucket. -/
def classesIn (ops : SolidFloats F) (thresholds : SolidThresholds F) (params : SolidParams)
    (orders : ClusterOrders) (fullDim : Rows String (List F)) (s : ContentStore)
    (admits : SymbolRow → Bool) (bucket : List SymbolRecord) : List (List SymbolRecord) :=
  if bucket.length < 2 then []
  else if params.maxPairs < bucket.length * (bucket.length - 1) / 2 then []
  else
    (UnionFind.clusters orders.clusters
      (redundant ops thresholds (signalsIn ops params orders fullDim s admits)) bucket).filter
        fun l => 2 ≤ l.length

theorem redundancyIn_exact :
    List.Forall₂ (fun f l => f.Exact ops thresholds params fullDim s admits l)
      (redundancyIn ops thresholds params orders (signalsIn ops params orders fullDim s admits)
        (comparable ops params fullDim s admits key))
      (classesIn ops thresholds params orders fullDim s admits
        (comparable ops params fullDim s admits key)) := by
  rw [redundancyIn, classesIn]
  by_cases single : (comparable ops params fullDim s admits key).length < 2
  · rw [if_pos single, if_pos single]
    exact .nil
  rw [if_neg single, if_neg single]
  by_cases many : params.maxPairs < (comparable ops params fullDim s admits key).length *
      ((comparable ops params fullDim s admits key).length - 1) / 2
  · rw [if_pos many, if_pos many]
    exact .nil
  rw [if_neg many, if_neg many]
  have reported := forall₂_filterMap
    (P := fun f l => f.Exact ops thresholds params fullDim s admits l) _ _
    fun l mem f found => redundancyOf_exact orders (Nat.not_lt.mp many) mem found
  simp only [redundancyOf_isSome] at reported
  exact reported

/-- The buckets that are read. -/
theorem mem_read_buckets {e : Sigma fun _ : String × Nat => List SymbolRecord} :
    e ∈ orders.buckets.read (buckets bucketKey (withVector ops params orders fullDim s admits)) ↔
      e.2 ≠ [] ∧ e.2 = comparable ops params fullDim s admits e.1 := by
  rw [(orders.buckets.perm _).mem_iff, ← withVector_filter orders]
  exact (Rows.mem_entries_iff _ _ _).trans (holds_buckets bucketKey _ e.1 e.2)

theorem bucketKey_of_mem {l : List SymbolRecord}
    (isClass : l ∈ classesIn ops thresholds params orders fullDim s admits
      (comparable ops params fullDim s admits key)) (isIn : a ∈ l) : bucketKey a = key := by
  rw [classesIn] at isClass
  split at isClass
  · cases isClass
  · split at isClass
    · cases isClass
    · have sub := (UnionFind.clusters_spec orders.clusters _ (nodup_comparable ..)).sublist l
        (List.mem_filter.mp isClass).1
      exact (mem_comparable.mp (sub.subset isIn)).2.2

variable (orders) in
/-- The class of a clone is in its bucket. -/
theorem exists_class (clones : Clones ops thresholds params fullDim s admits a b)
    (other : a ≠ b) : ∃ l ∈ classesIn ops thresholds params orders fullDim s admits
      (comparable ops params fullDim s admits (bucketKey a)), a ∈ l := by
  have related : ∃ c, Twins ops thresholds params fullDim s admits a c ∨
      Twins ops thresholds params fullDim s admits c a :=
    ((eqvGen_eq_or clones).resolve_left other).1
  have place : a ∈ comparable ops params fullDim s admits (bucketKey a) ∧
      Few ops params fullDim s admits (bucketKey a) := by
    obtain ⟨c, twins | twins⟩ := related
    · exact ⟨twins.earlier.subset (by simp), twins.few⟩
    · have isIn : a ∈ comparable ops params fullDim s admits (bucketKey c) :=
        twins.earlier.subset (by simp)
      rw [(mem_comparable.mp isIn).2.2]
      exact ⟨isIn, twins.few⟩
  have clusters := UnionFind.clusters_spec orders.clusters
    (redundant ops thresholds (signalsIn ops params orders fullDim s admits))
    (nodup_comparable ops params fullDim s admits (bucketKey a))
  obtain ⟨l, mem, isIn⟩ := clusters.cover a place.1
  have isIn' : b ∈ l := (bucketClusters_whole place.2 mem isIn b).mpr clones
  have several : 2 ≤ l.length := two_le_length isIn isIn' other
  refine ⟨l, ?_, isIn⟩
  have length := (clusters.sublist l mem).length_le
  rw [classesIn, if_neg (by omega), if_neg (Nat.not_lt.mpr place.2), List.mem_filter]
  exact ⟨mem, decide_eq_true several⟩

/-- **The redundancy findings are the classes of two or more clones**, each once. -/
theorem redundancies_spec (ops : SolidFloats F) (thresholds : SolidThresholds F)
    (params : SolidParams) (orders : ClusterOrders) (fullDim : Rows String (List F))
    (s : ContentStore) (admits : SymbolRow → Bool) :
    ∃ classes : List (List SymbolRecord),
      List.Forall₂ (fun f members => f.Exact ops thresholds params fullDim s admits members)
        (redundancies ops thresholds params orders fullDim s admits) classes ∧
      classes.Pairwise List.Disjoint ∧
      ∀ a b, a ≠ b → Clones ops thresholds params fullDim s admits a b →
        ∃ members ∈ classes, a ∈ members := by
  have isBucket : ∀ e ∈ orders.buckets.read
      (buckets bucketKey (withVector ops params orders fullDim s admits)),
      e.2 = comparable ops params fullDim s admits e.1 := fun e mem => (mem_read_buckets.mp mem).2
  refine ⟨(orders.buckets.read (buckets bucketKey
    (withVector ops params orders fullDim s admits))).flatMap fun e =>
      classesIn ops thresholds params orders fullDim s admits e.2, ?_, ?_, fun a b other clones => ?_⟩
  · rw [redundancies, detectRedundancy]
    refine List.rel_flatMap (R := fun e e' => e = e' ∧ e ∈ orders.buckets.read
      (buckets bucketKey (withVector ops params orders fullDim s admits)))
      (List.forall₂_same.mpr fun e mem => ⟨rfl, mem⟩) ?_
    rintro e e' ⟨rfl, mem⟩
    dsimp only
    rw [isBucket e mem]
    exact redundancyIn_exact
  · refine List.pairwise_flatMap.mpr ⟨fun e mem => ?_, ?_⟩
    · rw [isBucket e mem, classesIn]
      split
      · exact .nil
      · split
        · exact .nil
        · exact (UnionFind.clusters_spec orders.clusters _ (nodup_comparable ..)).apart.filter _
    · have keys := ((orders.buckets.perm (buckets bucketKey
        (withVector ops params orders fullDim s admits))).map Sigma.fst).nodup_iff.mpr
          (buckets bucketKey (withVector ops params orders fullDim s admits)).nodupKeys
      refine (List.pairwise_map.mp keys).imp_of_mem fun {e e'} mem mem' other l isClass l' isClass' a
        isIn isIn' => other ?_
      rw [isBucket e mem] at isClass
      rw [isBucket e' mem'] at isClass'
      rw [← bucketKey_of_mem isClass isIn, bucketKey_of_mem isClass' isIn']
  · obtain ⟨l, isClass, isIn⟩ := exists_class orders clones other
    refine ⟨l, List.mem_flatMap.mpr
      ⟨⟨bucketKey a, _⟩, mem_read_buckets.mpr ⟨?_, rfl⟩, isClass⟩, isIn⟩
    show comparable ops params fullDim s admits (bucketKey a) ≠ []
    intro none
    rw [none, classesIn, if_pos (by simp)] at isClass
    cases isClass

end Redundancy

/-! ## Containers -/

section Containers

variable {params : SolidParams} {s : ContentStore} {admits : SymbolRow → Bool}

theorem lookup_addContainer (byKey : Rows (String × String × String) SymbolRecord)
    (c : SymbolRecord) (key : String × String × String) :
    (addContainer byKey c).lookup key =
      if key = containerKey c then
        some ((byKey.lookup key).elim c fun prev => if c.lineStart < prev.lineStart then c else prev)
      else byKey.lookup key := by
  rw [addContainer]
  by_cases here : key = containerKey c
  · subst here
    rw [if_pos rfl]
    cases found : byKey.lookup (containerKey c) with
    | none => rw [AList.lookup_insert, Option.elim_none]
    | some prev =>
        rw [Option.elim_some]
        dsimp only
        split
        · rw [AList.lookup_insert]
        · exact found
  · rw [if_neg here]
    split
    · exact AList.lookup_insert_ne here
    · split
      · exact AList.lookup_insert_ne here
      · rfl

/-- Of the containers with one key the first of those that start first is kept. -/
theorem lookup_foldl_addContainer (cs : List SymbolRecord) (key : String × String × String) :
    (cs.foldl addContainer ∅).lookup key =
      scanBest (fun a b => a.lineStart < b.lineStart) (cs.filter fun c => containerKey c = key) := by
  induction cs using List.reverseRecOn with
  | nil => rfl
  | append_singleton cs c ih =>
      rw [List.foldl_append, List.foldl_cons, List.foldl_nil, lookup_addContainer, ih,
        List.filter_append, List.filter_singleton]
      by_cases here : key = containerKey c
      · rw [if_pos here, decide_eq_true here.symm, cond_true, scanBest_concat]
        simp only [decide_eq_true_eq]
      · rw [if_neg here, decide_eq_false (Ne.symm here), cond_false, List.append_nil]

/-- The containers that are kept. -/
theorem mem_containersByKey {e : Sigma fun _ : String × String × String => SymbolRecord}
    (mem : e ∈ (containersByKey params (s.listSymbols admits)).entries) :
    containerKey e.2 = e.1 ∧ IsContainer params s admits e.2 ∧
      ∀ other, IsContainer params s admits other → containerKey other = containerKey e.2 →
        e.2.lineStart ≤ other.lineStart := by
  have found := (Rows.mem_entries_iff _ _ _).mp mem
  rw [containersByKey, lookup_foldl_addContainer] at found
  obtain ⟨isIn, isKey⟩ := List.mem_filter.mp (scanBest_mem found)
  obtain ⟨listed, isKind⟩ := List.mem_filter.mp isIn
  have isKey := of_decide_eq_true isKey
  refine ⟨isKey, ⟨listed, of_decide_eq_true isKind⟩, fun other isOther same => ?_⟩
  have least := scanBest_least (α := SymbolRecord)
    (fun a b c first second => by
      rw [decide_eq_true_eq] at first second ⊢
      omega)
    (fun a => decide_eq_false (Nat.lt_irrefl _)) found other
    (List.mem_filter.mpr ⟨List.mem_filter.mpr ⟨isOther.1, decide_eq_true isOther.2⟩,
      decide_eq_true (same.trans isKey)⟩)
  exact Nat.not_lt.mp (of_decide_eq_false least)

/-- Some container is kept of each key. -/
theorem exists_container {c : SymbolRecord} (isContainer : IsContainer params s admits c) :
    ∃ c', (⟨containerKey c, c'⟩ : Sigma fun _ : String × String × String => SymbolRecord) ∈
      (containersByKey params (s.listSymbols admits)).entries := by
  cases found : (containersByKey params (s.listSymbols admits)).lookup (containerKey c) with
  | some c' => exact ⟨c', (Rows.mem_entries_iff _ _ _).mpr found⟩
  | none =>
      rw [containersByKey, lookup_foldl_addContainer, scanBest_eq_none] at found
      have isIn : c ∈ ((s.listSymbols admits).filter fun sym =>
          sym.kind ∈ params.containerKinds).filter fun c' => containerKey c' = containerKey c :=
        List.mem_filter.mpr ⟨List.mem_filter.mpr ⟨isContainer.1, decide_eq_true isContainer.2⟩,
          decide_eq_true rfl⟩
      rw [found] at isIn
      exact absurd isIn List.not_mem_nil

end Containers

section Cohesion

variable {F : Type} {ops : SolidFloats F} {thresholds : SolidThresholds F} {params : SolidParams}
  {orders : ClusterOrders} {fullDim : Rows String (List F)} {s : ContentStore}
  {admits : SymbolRow → Bool} {container a b : SymbolRecord}

variable (s admits container) in
theorem nodup_methodsOf : (methodsOf container (s.listSymbols admits)).Nodup :=
  nodup_listSymbols.filter _

theorem cohere_iff :
    ([a, b].Sublist (methodsOf container (s.listSymbols admits)) ∧
        cohesive ops thresholds (signalsIn ops params orders fullDim s admits) a b = true) ↔
      Cohere ops thresholds params fullDim s admits container a b := by
  have linked : ∀ earlier : [a, b].Sublist (methodsOf container (s.listSymbols admits)),
      cohesive ops thresholds (signalsIn ops params orders fullDim s admits) a b = true ↔
        (∃ id, id ∈ referred s [.calls] a ∧ id ∈ referred s [.calls] b) ∨
        ∃ va vb, vectorFor ops params fullDim a = some va ∧
          vectorFor ops params fullDim b = some vb ∧ va.length = vb.length ∧
            ops.atLeast (cosineSimilarity ops va vb) thresholds.srpCohesion = true := by
    intro earlier
    have mem : a ∈ s.listSymbols admits := (List.mem_filter.mp (earlier.subset (by simp))).1
    have mem' : b ∈ s.listSymbols admits := (List.mem_filter.mp (earlier.subset (by simp))).1
    rw [cohesive, lookup_callees mem, lookup_callees mem', lookup_vectors mem, lookup_vectors mem',
      Bool.or_eq_true, decide_eq_true_eq]
    refine or_congr ?_ ?_
    · rw [Nat.one_le_iff_ne_zero, Finset.card_ne_zero]
      refine exists_congr fun id => ?_
      rw [Finset.mem_inter]
    · cases vectorFor ops params fullDim a with
      | none => simp [nearby]
      | some va =>
          cases vectorFor ops params fullDim b with
          | none => simp [nearby]
          | some vb => simp [nearby]
  constructor
  · rintro ⟨earlier, isLinked⟩
    exact ⟨earlier, (linked earlier).mp isLinked⟩
  · rintro ⟨earlier, isLinked⟩
    exact ⟨earlier, (linked earlier).mpr isLinked⟩

/-- The clusters of the methods of a container. -/
abbrev methodClusters (ops : SolidFloats F) (thresholds : SolidThresholds F)
    (params : SolidParams) (orders : ClusterOrders) (fullDim : Rows String (List F))
    (s : ContentStore) (admits : SymbolRow → Bool) (container : SymbolRecord) :
    List (List SymbolRecord) :=
  UnionFind.clusters orders.clusters
    (cohesive ops thresholds (signalsIn ops params orders fullDim s admits))
    (methodsOf container (s.listSymbols admits))

theorem methodClusters_spec :
    Clusters (Coherent ops thresholds params fullDim s admits container)
      (methodsOf container (s.listSymbols admits))
      (methodClusters ops thresholds params orders fullDim s admits container) := by
  have clusters := UnionFind.clusters_spec orders.clusters
    (cohesive ops thresholds (signalsIn ops params orders fullDim s admits))
    (nodup_methodsOf s admits container)
  have rels : (fun a b => [a, b].Sublist (methodsOf container (s.listSymbols admits)) ∧
      cohesive ops thresholds (signalsIn ops params orders fullDim s admits) a b = true) =
      Cohere ops thresholds params fullDim s admits container := by
    funext a b
    exact propext cohere_iff
  rwa [rels] at clusters

theorem Cohere.methods (cohere : Cohere ops thresholds params fullDim s admits container a b) :
    a ∈ methodsOf container (s.listSymbols admits) ∧
      b ∈ methodsOf container (s.listSymbols admits) :=
  ⟨cohere.earlier.subset (by simp), cohere.earlier.subset (by simp)⟩

theorem coherent_methods (coherent : Coherent ops thresholds params fullDim s admits container a b)
    (other : a ≠ b) : a ∈ methodsOf container (s.listSymbols admits) ∧
      b ∈ methodsOf container (s.listSymbols admits) := by
  obtain ⟨⟨c, first⟩, d, second⟩ := (eqvGen_eq_or coherent).resolve_left other
  exact ⟨first.elim (fun cohere => cohere.methods.1) fun cohere => cohere.methods.2,
    second.elim (fun cohere => cohere.methods.1) fun cohere => cohere.methods.2⟩

variable (orders) in
theorem splits_iff : Splits ops thresholds params fullDim s admits container ↔
    4 ≤ (methodsOf container (s.listSymbols admits)).length ∧
      2 ≤ ((methodClusters ops thresholds params orders fullDim s admits container).filter
        fun g => 2 ≤ g.length).length := by
  rw [Splits, methodClusters_spec.two_large_iff (nodup_methodsOf ..)]
  refine and_congr_right fun _ => ?_
  constructor
  · rintro ⟨a, b, c, d, other, other', coherent, coherent', apart⟩
    obtain ⟨memA, memB⟩ := coherent_methods coherent other
    obtain ⟨memC, memD⟩ := coherent_methods coherent' other'
    exact ⟨a, memA, b, memB, c, memC, d, memD, other, other', coherent, coherent', apart⟩
  · rintro ⟨a, -, b, -, c, -, d, -, other, other', coherent, coherent', apart⟩
    exact ⟨a, b, c, d, other, other', coherent, coherent', apart⟩

/-- A container is reported if it splits, and the report is about all its classes. -/
theorem lowCohesionOf_isSome :
    (lowCohesionOf ops thresholds params orders (signalsIn ops params orders fullDim s admits)
      (s.listSymbols admits) container).isSome = true ↔
        Splits ops thresholds params fullDim s admits container := by
  rw [splits_iff orders, lowCohesionOf]
  by_cases small : (methodsOf container (s.listSymbols admits)).length < 4
  · rw [if_pos small]
    exact iff_of_false (by simp) fun both => absurd both.1 (by omega)
  · rw [if_neg small]
    dsimp only
    split
    · next large => exact iff_of_true rfl ⟨by omega, large⟩
    · next few => exact iff_of_false (by simp) fun both => few both.2

theorem lowCohesionOf_exact (isContainer : IsContainer params s admits container)
    (first : ∀ other, IsContainer params s admits other →
      containerKey other = containerKey container → container.lineStart ≤ other.lineStart)
    {f : LowCohesion} (found : lowCohesionOf ops thresholds params orders
      (signalsIn ops params orders fullDim s admits) (s.listSymbols admits) container = some f) :
    f.Exact ops thresholds params fullDim s admits container := by
  have splits : Splits ops thresholds params fullDim s admits container :=
    lowCohesionOf_isSome.mp (by rw [found]; rfl)
  obtain ⟨several, large⟩ := (splits_iff orders).mp splits
  rw [lowCohesionOf, if_neg (by omega)] at found
  dsimp only at found
  rw [if_pos large] at found
  obtain rfl := Option.some.inj found
  refine ⟨isContainer, first, splits, rfl, rfl, ?_⟩
  refine ⟨(methodClusters ops thresholds params orders fullDim s admits container).mergeSort
    fun g g' => g'.length ≤ g.length, methodClusters_spec.perm (List.mergeSort_perm _ _), ?_, ?_⟩
  · exact pairwise_mergeSort_key (fun g : List SymbolRecord => OrderDual.toDual g.length) _
  · have sorted := List.map_mergeSort
      (r := fun g g' : List SymbolRecord => decide (g'.length ≤ g.length))
      (s := fun g g' : List SolidSymbolRef => decide (g'.length ≤ g.length))
      (f := fun g => g.map toRef)
      (l := methodClusters ops thresholds params orders fullDim s admits container)
      fun g _ g' _ => by rw [List.length_map, List.length_map]
    dsimp only
    rw [← sorted, List.map_map]
    rfl

/-- Whether a container splits depends on its key alone. -/
theorem splits_congr {c c' : SymbolRecord} (same : containerKey c = containerKey c')
    (splits : Splits ops thresholds params fullDim s admits c) :
    Splits ops thresholds params fullDim s admits c' := by
  obtain ⟨sameFile, samePath, sameName⟩ : c.filePath = c'.filePath ∧ c.modulePath = c'.modulePath ∧
      c.name = c'.name := by simpa [containerKey] using same
  have methods : methodsOf c (s.listSymbols admits) = methodsOf c' (s.listSymbols admits) := by
    rw [methodsOf, methodsOf, sameFile, samePath, sameName]
  have rels : Cohere ops thresholds params fullDim s admits c =
      Cohere ops thresholds params fullDim s admits c' := by
    funext a b
    refine propext ⟨fun cohere => ⟨?_, cohere.linked⟩, fun cohere => ⟨?_, cohere.linked⟩⟩
    · rw [← methods]
      exact cohere.earlier
    · rw [methods]
      exact cohere.earlier
  rw [Splits, Coherent, rels, methods] at splits
  exact splits

/-- **The cohesion findings are the containers that fall apart into two or more classes of
methods**, each once. -/
theorem lowCohesion_spec (ops : SolidFloats F) (thresholds : SolidThresholds F)
    (params : SolidParams) (orders : ClusterOrders) (fullDim : Rows String (List F))
    (s : ContentStore) (admits : SymbolRow → Bool) :
    ∃ containers : List SymbolRecord,
      List.Forall₂ (fun f c => f.Exact ops thresholds params fullDim s admits c)
        (lowCohesion ops thresholds params orders fullDim s admits) containers ∧
      containers.Pairwise (fun c c' => containerKey c ≠ containerKey c') ∧
      ∀ c, IsContainer params s admits c → Splits ops thresholds params fullDim s admits c →
        ∃ c' ∈ containers, containerKey c' = containerKey c := by
  have kept := fun e (mem : e ∈ orders.containers.read
      (containersByKey params (s.listSymbols admits))) =>
    mem_containersByKey ((orders.containers.perm _).mem_iff.mp mem)
  refine ⟨((orders.containers.read (containersByKey params (s.listSymbols admits))).map
    Sigma.snd).filter fun c => (lowCohesionOf ops thresholds params orders
      (signalsIn ops params orders fullDim s admits) (s.listSymbols admits) c).isSome, ?_, ?_, ?_⟩
  · have reported := forall₂_filterMap
      (P := fun f c => f.Exact ops thresholds params fullDim s admits c)
      (lowCohesionOf ops thresholds params orders
        (signalsIn ops params orders fullDim s admits) (s.listSymbols admits))
      ((orders.containers.read (containersByKey params (s.listSymbols admits))).map Sigma.snd)
      fun c mem f found => by
        obtain ⟨e, isIn, rfl⟩ := List.mem_map.mp mem
        exact lowCohesionOf_exact (kept e isIn).2.1 (kept e isIn).2.2 found
    rwa [List.filterMap_map] at reported
  · refine List.Pairwise.filter _ (List.pairwise_map.mpr ?_)
    have keys := ((orders.containers.perm (containersByKey params (s.listSymbols admits))).map
      Sigma.fst).nodup_iff.mpr (containersByKey params (s.listSymbols admits)).nodupKeys
    refine (List.pairwise_map.mp keys).imp_of_mem fun {e e'} mem mem' other same => other ?_
    rw [← (kept e mem).1, ← (kept e' mem').1, same]
  · intro c isContainer splits
    obtain ⟨c', mem⟩ := exists_container isContainer
    have same : containerKey c' = containerKey c := (mem_containersByKey mem).1
    have isRead := (orders.containers.perm _).mem_iff.mpr mem
    refine ⟨c', List.mem_filter.mpr ⟨List.mem_map.mpr ⟨_, isRead, rfl⟩, ?_⟩, same⟩
    exact lowCohesionOf_isSome.mpr (splits_congr same.symm splits)

end Cohesion

end Ministr.Service
