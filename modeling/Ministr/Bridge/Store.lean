/-
# Bridge.Store — which rows the stored links point at

`store_bridge_links` inserts a row for every endpoint, computes the links and then looks for
the row of each side of a link.  A link carries copies of its endpoints, under a new key where
the match was by normalised keys, so the search goes by what a copy keeps: the file, the line
and the role.  It stops at the first endpoint of that place.

`storeBridgeLinks_exact_iff` says when this finds the right rows: every endpoint that takes
part in a link is the first of its file, line and role.  A second endpoint of one place, linked
or not, is never pointed at; the unique index then keeps one of the links that fell together.
-/
import Ministr.Bridge.Linker

namespace Ministr.Bridge

open Ministr.Theory

set_option autoImplicit false

/-! ## The tables -/

/-- `bridge_endpoints` and `bridge_links`.  Ids are handed out in order and never again; a link
is unique for its two ids. -/
structure BridgeTables where
  endpoints : Rows Nat BridgeEndpoint
  links : Rows (Nat × Nat) (BridgeKind × ℚ)
  nextId : Nat
  numbered : ∀ id ∈ endpoints, id < nextId
  linked : ∀ key ∈ links, key.1 < nextId ∧ key.2 < nextId

namespace BridgeTables

def empty : BridgeTables where
  endpoints := ∅
  links := ∅
  nextId := 1
  numbered := fun id mem => absurd mem (AList.notMem_empty id)
  linked := fun key mem => absurd mem (AList.notMem_empty key)

def insertEndpoint (t : BridgeTables) (ep : BridgeEndpoint) : BridgeTables where
  endpoints := t.endpoints.insert t.nextId ep
  links := t.links
  nextId := t.nextId + 1
  numbered := by
    intro id mem
    rcases (AList.mem_insert _).mp mem with rfl | old
    · omega
    · have := t.numbered id old
      omega
  linked := by
    intro key mem
    have := t.linked key mem
    omega

/-- `insert_bridge_endpoints`: the rows, and their ids in order. -/
def insertBridgeEndpoints (t : BridgeTables) : List BridgeEndpoint → BridgeTables × List Nat
  | [] => (t, [])
  | ep :: eps =>
      let later := (t.insertEndpoint ep).insertBridgeEndpoints eps
      (later.1, t.nextId :: later.2)

/-- `insert_bridge_links`: `INSERT OR REPLACE`, in order; a link to a row that is not there
violates a foreign key. -/
def insertBridgeLinks (t : BridgeTables) (records : List ((Nat × Nat) × (BridgeKind × ℚ))) :
    Option BridgeTables :=
  if known : ∀ record ∈ records, record.1.1 < t.nextId ∧ record.1.2 < t.nextId then
    some { t with
      links := t.links.upsertAll records
      linked := by
        intro key mem
        rcases Rows.mem_upsertAll.mp mem with old | ⟨record, listed, rfl⟩
        · exact t.linked key old
        · exact known record listed }
  else none

end BridgeTables

/-- What the search compares: the file, the line and the role. -/
def samePlace (ep target : BridgeEndpoint) : Bool :=
  ep.filePath = target.filePath && ep.line = target.line && ep.role = target.role

/-- `find_endpoint_id`, over the endpoints with their ids. -/
def findEndpointId (rows : List (BridgeEndpoint × Nat)) (target : BridgeEndpoint) : Option Nat :=
  (rows.find? fun row => samePlace row.1 target).map Prod.snd

/-- The row of one link. -/
def linkRecord (rows : List (BridgeEndpoint × Nat)) (l : BridgeLink) :
    Option ((Nat × Nat) × (BridgeKind × ℚ)) := do
  let exportId ← findEndpointId rows l.exported
  let importId ← findEndpointId rows l.imported
  some ((exportId, importId), (l.kind, l.confidence))

section Store

variable (chars : CaseTables) (order order' : GroupOrder)

/-- `store_bridge_links`, without a failing insert of an endpoint; `linker` is whether there
is a linker. -/
def BridgeTables.storeBridgeLinks (linker : Bool) (endpoints : List BridgeEndpoint)
    (t : BridgeTables) : BridgeTables :=
  if linker && !endpoints.isEmpty then
    let links := link chars order order' endpoints
    let (u, ids) := t.insertBridgeEndpoints endpoints
    (u.insertBridgeLinks (links.filterMap (linkRecord (endpoints.zip ids)))).getD u
  else t

/-! ## What should be stored -/

/-- The pairs of rows whose endpoints belong together. -/
def rowPairs (rows : List (BridgeEndpoint × Nat)) :
    List ((BridgeEndpoint × Nat) × (BridgeEndpoint × Nat)) :=
  (rows ×ˢ rows).filter fun p => decide (Paired chars (rows.map Prod.fst) p.1.1 p.2.1)

/-- The link row of a pair of rows. -/
def rowLink (p : (BridgeEndpoint × Nat) × (BridgeEndpoint × Nat)) :
    Sigma fun _ : Nat × Nat => BridgeKind × ℚ :=
  ⟨(p.1.2, p.2.2), ((pairLink chars (p.1.1, p.2.1)).kind, (pairLink chars (p.1.1, p.2.1)).confidence)⟩

/-- No earlier row is of the same file, line and role. -/
def FirstOfPlace (rows : List (BridgeEndpoint × Nat)) (row : BridgeEndpoint × Nat) : Prop :=
  ∀ other ∈ rows, other.2 < row.2 → samePlace other.1 row.1 = false

end Store

/-! ## Ids -/

theorem insertBridgeEndpoints_spec (t : BridgeTables) (eps : List BridgeEndpoint) :
    eps.zip (t.insertBridgeEndpoints eps).2 = eps.zipIdx t.nextId ∧
      (t.insertBridgeEndpoints eps).1.links = t.links ∧
      (t.insertBridgeEndpoints eps).1.nextId = t.nextId + eps.length := by
  induction eps generalizing t with
  | nil => exact ⟨rfl, rfl, rfl⟩
  | cons ep eps ih =>
      obtain ⟨ids, links, next⟩ := ih (t.insertEndpoint ep)
      refine ⟨?_, links, ?_⟩
      · rw [List.zipIdx_cons]
        exact congrArg (_ :: ·) ids
      · have step : (t.insertEndpoint ep).nextId = t.nextId + 1 := rfl
        rw [step] at next
        show ((t.insertEndpoint ep).insertBridgeEndpoints eps).1.nextId = _
        rw [next, List.length_cons]
        omega

/-- The rows hold the endpoints. -/
theorem lookup_insertBridgeEndpoints (t : BridgeTables) (eps : List BridgeEndpoint)
    {row : BridgeEndpoint × Nat} (listed : row ∈ eps.zipIdx t.nextId) :
    (t.insertBridgeEndpoints eps).1.endpoints.lookup row.2 = some row.1 := by
  have kept : ∀ (eps : List BridgeEndpoint) (u : BridgeTables) (id : Nat) (ep : BridgeEndpoint),
      u.endpoints.lookup id = some ep →
      (u.insertBridgeEndpoints eps).1.endpoints.lookup id = some ep := by
    intro eps
    induction eps with
    | nil => exact fun u id ep found => found
    | cons e eps ih =>
        intro u id ep found
        refine ih (u.insertEndpoint e) id ep ?_
        have old := u.numbered id ((Rows.mem_iff_lookup _ _).mpr ⟨ep, found⟩)
        have other : id ≠ u.nextId := by omega
        show (u.endpoints.insert u.nextId e).lookup id = some ep
        rw [Rows.lookup_insert_if, if_neg other]
        exact found
  induction eps generalizing t with
  | nil => cases listed
  | cons ep eps ih =>
      rw [List.zipIdx_cons] at listed
      rcases List.mem_cons.mp listed with rfl | later
      · refine kept eps (t.insertEndpoint ep) t.nextId ep ?_
        show (t.endpoints.insert t.nextId ep).lookup t.nextId = some ep
        rw [Rows.lookup_insert_if, if_pos rfl]
      · exact ih (t.insertEndpoint ep) later

section Rows

variable {rows : List (BridgeEndpoint × Nat)}

/-- The rows are in the order of their ids. -/
theorem pairwise_zipIdx (eps : List BridgeEndpoint) (first : Nat) :
    (eps.zipIdx first).Pairwise fun a b => a.2 < b.2 := by
  induction eps generalizing first with
  | nil => exact .nil
  | cons ep eps ih =>
      rw [List.zipIdx_cons]
      refine List.pairwise_cons.mpr ⟨fun row later => ?_, ih (first + 1)⟩
      have := List.le_snd_of_mem_zipIdx later
      show first < row.2
      omega

theorem eq_of_snd (ordered : rows.Pairwise fun a b => a.2 < b.2) {a b : BridgeEndpoint × Nat}
    (memA : a ∈ rows) (memB : b ∈ rows) (same : a.2 = b.2) : a = b := by
  by_contra other
  rcases pair_sublist_or memA memB other with ab | ba
  · have := List.pairwise_iff_forall_sublist.mp ordered ab
    omega
  · have := List.pairwise_iff_forall_sublist.mp ordered ba
    omega

/-- The search ends at the first row of the place. -/
theorem find_place_iff (ordered : rows.Pairwise fun a b => a.2 < b.2)
    {row : BridgeEndpoint × Nat} (listed : row ∈ rows) {target : BridgeEndpoint} :
    rows.find? (fun r => samePlace r.1 target) = some row ↔
      samePlace row.1 target = true ∧
        ∀ other ∈ rows, other.2 < row.2 → samePlace other.1 target = false := by
  constructor
  · intro found
    obtain ⟨here, front, back, rfl, before⟩ := List.find?_eq_some_iff_append.mp found
    refine ⟨here, fun other mem less => ?_⟩
    rcases List.mem_append.mp mem with mem | mem
    · simpa using before other mem
    · have later : row.2 ≤ other.2 := by
        rcases List.mem_cons.mp mem with rfl | mem
        · exact le_refl _
        · exact ((List.pairwise_cons.mp (List.pairwise_append.mp ordered).2.1).1 other mem).le
      omega
  · rintro ⟨here, before⟩
    obtain ⟨front, back, rfl⟩ := List.append_of_mem listed
    refine List.find?_eq_some_iff_append.mpr ⟨here, front, back, rfl, fun other mem => ?_⟩
    have less := (List.pairwise_append.mp ordered).2.2 other mem row List.mem_cons_self
    simpa using before other (List.mem_append_left _ mem) less

theorem samePlace_iff {ep target : BridgeEndpoint} :
    samePlace ep target = true ↔
      ep.filePath = target.filePath ∧ ep.line = target.line ∧ ep.role = target.role := by
  simp [samePlace, and_assoc]

theorem samePlace_self (ep : BridgeEndpoint) : samePlace ep ep = true :=
  samePlace_iff.mpr ⟨rfl, rfl, rfl⟩

theorem samePlace_congr {a b : BridgeEndpoint} (same : samePlace a b = true) (ep : BridgeEndpoint) :
    samePlace ep a = samePlace ep b := by
  obtain ⟨file, line, role⟩ := samePlace_iff.mp same
  simp only [samePlace, file, line, role]

theorem findEndpointId_congr {a b : BridgeEndpoint} (same : samePlace a b = true) :
    findEndpointId rows a = findEndpointId rows b := by
  unfold findEndpointId
  simp only [samePlace_congr same]

/-- Its own place leads to a row exactly when it is the first there. -/
theorem findEndpointId_eq_iff (ordered : rows.Pairwise fun a b => a.2 < b.2)
    {row : BridgeEndpoint × Nat} (listed : row ∈ rows) :
    findEndpointId rows row.1 = some row.2 ↔ FirstOfPlace rows row := by
  unfold findEndpointId
  rw [Option.map_eq_some_iff]
  constructor
  · rintro ⟨found, first, same⟩
    have mem := List.mem_of_find?_eq_some first
    cases eq_of_snd ordered mem listed same
    exact ((find_place_iff ordered listed).mp first).2
  · intro first
    exact ⟨row, (find_place_iff ordered listed).mpr ⟨samePlace_self _, first⟩, rfl⟩

/-- The row a search ends at is the first of its place. -/
theorem firstOfPlace_of_find (ordered : rows.Pairwise fun a b => a.2 < b.2)
    {row : BridgeEndpoint × Nat} (listed : row ∈ rows) {target : BridgeEndpoint}
    (found : findEndpointId rows target = some row.2) : FirstOfPlace rows row := by
  obtain ⟨r, first, same⟩ := Option.map_eq_some_iff.mp found
  cases eq_of_snd ordered (List.mem_of_find?_eq_some first) listed same
  obtain ⟨here, before⟩ := (find_place_iff ordered listed).mp first
  intro other mem less
  rw [samePlace_congr here]
  exact before other mem less

theorem findEndpointId_listed {target : BridgeEndpoint} {id : Nat}
    (found : findEndpointId rows target = some id) : ∃ row ∈ rows, row.2 = id := by
  obtain ⟨row, first, same⟩ := Option.map_eq_some_iff.mp found
  exact ⟨row, List.mem_of_find?_eq_some first, same⟩

end Rows

/-! ## Links and their rows -/

section Links

variable {chars : CaseTables}

theorem pairLink_exported (p : BridgeEndpoint × BridgeEndpoint) :
    samePlace (pairLink chars p).exported p.1 = true := by
  unfold pairLink
  split <;> exact samePlace_self _

theorem pairLink_imported (p : BridgeEndpoint × BridgeEndpoint) :
    samePlace (pairLink chars p).imported p.2 = true := by
  unfold pairLink
  split <;> exact samePlace_self _

theorem linkRecord_pairLink {rows : List (BridgeEndpoint × Nat)}
    {p : BridgeEndpoint × BridgeEndpoint} {record : (Nat × Nat) × (BridgeKind × ℚ)} :
    linkRecord rows (pairLink chars p) = some record ↔
      findEndpointId rows p.1 = some record.1.1 ∧ findEndpointId rows p.2 = some record.1.2 ∧
        record.2 = ((pairLink chars p).kind, (pairLink chars p).confidence) := by
  unfold linkRecord
  rw [findEndpointId_congr (pairLink_exported p), findEndpointId_congr (pairLink_imported p)]
  cases findEndpointId rows p.1 with
  | none => simp
  | some e =>
      cases findEndpointId rows p.2 with
      | none => simp
      | some i =>
          simp only [Option.bind_eq_bind, Option.bind_some, Option.some.injEq, Prod.ext_iff,
            and_assoc]
          tauto

theorem mem_rowPairs {rows : List (BridgeEndpoint × Nat)}
    {p : (BridgeEndpoint × Nat) × (BridgeEndpoint × Nat)} :
    p ∈ rowPairs chars rows ↔ p.1 ∈ rows ∧ p.2 ∈ rows ∧
      Paired chars (rows.map Prod.fst) p.1.1 p.2.1 := by
  rw [rowPairs, List.mem_filter, List.mem_product, decide_eq_true_eq, and_assoc]

theorem map_rowPairs (rows : List (BridgeEndpoint × Nat)) :
    (rowPairs chars rows).map (fun p => (p.1.1, p.2.1)) = pairs chars (rows.map Prod.fst) := by
  have whole : rows.map Prod.fst ×ˢ rows.map Prod.fst =
      (rows ×ˢ rows).map fun p => (p.1.1, p.2.1) := by
    simp [SProd.sprod, List.product, List.map_flatMap, List.flatMap_map, Function.comp_def]
  rw [pairs, whole, List.filter_map, rowPairs]
  rfl

variable (chars) in
/-- The links, as links of pairs of rows. -/
theorem rowPairs_link (order order' : GroupOrder) (rows : List (BridgeEndpoint × Nat)) :
    ((rowPairs chars rows).map fun p => pairLink chars (p.1.1, p.2.1)).Perm
      (link chars order order' (rows.map Prod.fst)) := by
  have perm := @link_perm chars order (rows.map Prod.fst) order'
  rw [← map_rowPairs, List.map_map] at perm
  exact perm.symm

variable (chars) in
/-- The records, as records of pairs of rows. -/
theorem records_perm (order order' : GroupOrder) (rows : List (BridgeEndpoint × Nat)) :
    ((link chars order order' (rows.map Prod.fst)).filterMap (linkRecord rows)).Perm
      ((rowPairs chars rows).filterMap fun p => linkRecord rows (pairLink chars (p.1.1, p.2.1))) := by
  have perm := (rowPairs_link chars order order' rows).filterMap (linkRecord rows)
  rw [List.filterMap_map] at perm
  exact perm.symm

/-- The first of their places, all pairs of rows have their own records. -/
theorem records_eq {rows : List (BridgeEndpoint × Nat)}
    (ordered : rows.Pairwise fun a b => a.2 < b.2)
    (first : ∀ p ∈ rowPairs chars rows, FirstOfPlace rows p.1 ∧ FirstOfPlace rows p.2) :
    (rowPairs chars rows).filterMap (fun p => linkRecord rows (pairLink chars (p.1.1, p.2.1))) =
      (rowPairs chars rows).map fun p => ((rowLink chars p).1, (rowLink chars p).2) := by
  rw [← List.filterMap_eq_map]
  refine List.filterMap_congr fun p mem => ?_
  obtain ⟨memE, memI, -⟩ := mem_rowPairs.mp mem
  obtain ⟨firstE, firstI⟩ := first p mem
  exact linkRecord_pairLink.mpr ⟨(findEndpointId_eq_iff ordered memE).mpr firstE,
    (findEndpointId_eq_iff ordered memI).mpr firstI, rfl⟩

/-- The ids of a pair tell it from the others. -/
theorem nodup_rowLink {rows : List (BridgeEndpoint × Nat)}
    (ordered : rows.Pairwise fun a b => a.2 < b.2) :
    ((rowPairs chars rows).map fun p => (rowLink chars p).1).Nodup := by
  have nodup : rows.Nodup := ordered.imp fun less same => by
    rw [same] at less
    omega
  refine List.Nodup.map_on (fun p memP q memQ same => ?_) ((nodup.product nodup).filter _)
  obtain ⟨memPE, memPI, -⟩ := mem_rowPairs.mp memP
  obtain ⟨memQE, memQI, -⟩ := mem_rowPairs.mp memQ
  obtain ⟨sameE, sameI⟩ := Prod.mk.inj same
  exact Prod.ext (eq_of_snd ordered memPE memQE sameE) (eq_of_snd ordered memPI memQI sameI)

end Links

/-! ## The stored links -/

section Stored

variable (chars : CaseTables) (order order' : GroupOrder) (endpoints : List BridgeEndpoint)
  (t : BridgeTables)

/-- What a call with a linker leaves: the rows of the endpoints, and the records of the links
written over what was there. -/
theorem storeBridgeLinks_spec :
    (∀ row ∈ endpoints.zipIdx t.nextId,
        (t.storeBridgeLinks chars order order' true endpoints).endpoints.lookup row.2 = some row.1) ∧
      (t.storeBridgeLinks chars order order' true endpoints).links =
        t.links.upsertAll ((link chars order order' endpoints).filterMap
          (linkRecord (endpoints.zipIdx t.nextId))) := by
  obtain ⟨ids, links, next⟩ := insertBridgeEndpoints_spec t endpoints
  by_cases empty : endpoints = []
  · subst empty
    have none : link chars order order' [] = [] :=
      List.perm_nil.mp (@link_perm chars order [] order')
    rw [none]
    exact ⟨fun row mem => absurd mem List.not_mem_nil, rfl⟩
  · have known : ∀ record ∈ (link chars order order' endpoints).filterMap
        (linkRecord (endpoints.zipIdx t.nextId)),
        record.1.1 < (t.insertBridgeEndpoints endpoints).1.nextId ∧
          record.1.2 < (t.insertBridgeEndpoints endpoints).1.nextId := by
      intro record listed
      obtain ⟨l, -, found⟩ := List.mem_filterMap.mp listed
      obtain ⟨e, foundE, found⟩ := Option.bind_eq_some_iff.mp found
      obtain ⟨i, foundI, same⟩ := Option.bind_eq_some_iff.mp found
      cases same
      obtain ⟨rowE, memE, rfl⟩ := findEndpointId_listed foundE
      obtain ⟨rowI, memI, rfl⟩ := findEndpointId_listed foundI
      have lastE := List.snd_lt_of_mem_zipIdx memE
      have lastI := List.snd_lt_of_mem_zipIdx memI
      show rowE.2 < _ ∧ rowI.2 < _
      rw [next]
      omega
    have stored : t.storeBridgeLinks chars order order' true endpoints =
        ((t.insertBridgeEndpoints endpoints).1.insertBridgeLinks
          ((link chars order order' endpoints).filterMap
            (linkRecord (endpoints.zipIdx t.nextId)))).getD (t.insertBridgeEndpoints endpoints).1 := by
      rw [← ids]
      exact if_pos (by simp [empty])
    rw [stored, BridgeTables.insertBridgeLinks, dif_pos known, Option.getD_some]
    refine ⟨fun row mem => lookup_insertBridgeEndpoints t endpoints mem, ?_⟩
    exact congrArg (fun table => Rows.upsertAll table _) links

/-- Ids of new rows are in no link that was there. -/
theorem new_ids_not_linked {row row' : BridgeEndpoint × Nat}
    (mem : row ∈ endpoints.zipIdx t.nextId) : (row.2, row'.2) ∉ t.links := by
  intro held
  have old := t.linked _ held
  have new := List.le_snd_of_mem_zipIdx mem
  simp only at old
  omega

variable {chars order order' endpoints t}

/-- A pair whose row was stored was found by its places. -/
theorem firstOfPlace_of_stored
    (exact : (t.storeBridgeLinks chars order order' true endpoints).links.entries.Perm
      ((rowPairs chars (endpoints.zipIdx t.nextId)).map (rowLink chars) ++ t.links.entries))
    {p : (BridgeEndpoint × Nat) × (BridgeEndpoint × Nat)}
    (mem : p ∈ rowPairs chars (endpoints.zipIdx t.nextId)) :
    FirstOfPlace (endpoints.zipIdx t.nextId) p.1 ∧ FirstOfPlace (endpoints.zipIdx t.nextId) p.2 := by
  have ordered := pairwise_zipIdx endpoints t.nextId
  have records := records_perm chars order order' (endpoints.zipIdx t.nextId)
  rw [List.zipIdx_map_fst] at records
  rw [(storeBridgeLinks_spec chars order order' endpoints t).2] at exact
  obtain ⟨memE, memI, -⟩ := mem_rowPairs.mp mem
  have listed := exact.mem_iff.mpr (List.mem_append_left _ (List.mem_map_of_mem mem))
  have key : (p.1.2, p.2.2) ∈ t.links.upsertAll ((link chars order order' endpoints).filterMap
      (linkRecord (endpoints.zipIdx t.nextId))) :=
    (Rows.mem_iff_lookup _ _).mpr ⟨_, (Rows.mem_entries_iff _ _ _).mp listed⟩
  -- the ids are new, so they came from a search
  rcases Rows.mem_upsertAll.mp key with old | ⟨record, made, same⟩
  · exact absurd old (new_ids_not_linked endpoints t memE)
  · obtain ⟨q, memQ, found⟩ := List.mem_filterMap.mp (records.mem_iff.mp made)
    obtain ⟨foundE, foundI, -⟩ := linkRecord_pairLink.mp found
    rw [same] at foundE foundI
    exact ⟨firstOfPlace_of_find ordered memE foundE, firstOfPlace_of_find ordered memI foundI⟩

theorem stored_of_firstOfPlace
    (first : ∀ p ∈ rowPairs chars (endpoints.zipIdx t.nextId),
      FirstOfPlace (endpoints.zipIdx t.nextId) p.1 ∧ FirstOfPlace (endpoints.zipIdx t.nextId) p.2) :
    (t.storeBridgeLinks chars order order' true endpoints).links.entries.Perm
      ((rowPairs chars (endpoints.zipIdx t.nextId)).map (rowLink chars) ++ t.links.entries) := by
  have ordered := pairwise_zipIdx endpoints t.nextId
  have records := records_perm chars order order' (endpoints.zipIdx t.nextId)
  rw [List.zipIdx_map_fst, records_eq ordered first] at records
  rw [(storeBridgeLinks_spec chars order order' endpoints t).2]
  have listed : ∀ record ∈ (link chars order order' endpoints).filterMap
      (linkRecord (endpoints.zipIdx t.nextId)), record.1 ∉ t.links := by
    intro record made
    obtain ⟨p, mem, rfl⟩ := List.mem_map.mp (records.mem_iff.mp made)
    exact new_ids_not_linked endpoints t (mem_rowPairs.mp mem).1
  have distinct : (((link chars order order' endpoints).filterMap
      (linkRecord (endpoints.zipIdx t.nextId))).map Prod.fst).Nodup := by
    refine (records.map Prod.fst).nodup_iff.mpr ?_
    rw [List.map_map]
    exact nodup_rowLink ordered
  refine (Rows.upsertAll_perm listed distinct).trans (List.Perm.append_right _ ?_)
  have made := records.map fun record =>
    (⟨record.1, record.2⟩ : Sigma fun _ : Nat × Nat => BridgeKind × ℚ)
  rw [List.map_map] at made
  exact made

variable (chars order order' endpoints t)

/-- **The stored links are the computed links exactly when every endpoint that takes part in one
is the first of its file, line and role.** -/
theorem storeBridgeLinks_exact_iff :
    (∀ row ∈ endpoints.zipIdx t.nextId,
        (t.storeBridgeLinks chars order order' true endpoints).endpoints.lookup row.2 = some row.1) ∧
      ((rowPairs chars (endpoints.zipIdx t.nextId)).map fun p => pairLink chars (p.1.1, p.2.1)).Perm
        (link chars order order' endpoints) ∧
      ((t.storeBridgeLinks chars order order' true endpoints).links.entries.Perm
          ((rowPairs chars (endpoints.zipIdx t.nextId)).map (rowLink chars) ++ t.links.entries) ↔
        ∀ p ∈ rowPairs chars (endpoints.zipIdx t.nextId),
          FirstOfPlace (endpoints.zipIdx t.nextId) p.1 ∧
            FirstOfPlace (endpoints.zipIdx t.nextId) p.2) := by
  refine ⟨(storeBridgeLinks_spec chars order order' endpoints t).1, ?_,
    fun exact p mem => firstOfPlace_of_stored exact mem, stored_of_firstOfPlace⟩
  have links := rowPairs_link chars order order' (endpoints.zipIdx t.nextId)
  rw [List.zipIdx_map_fst] at links
  exact links

end Stored

/-- Two exports of one line and two imports of another: both links point at the first of each. -/
theorem twoCommands_misstored :
    ¬ (BridgeTables.empty.storeBridgeLinks .ascii .filled .filled true
        twoCommands).links.entries.Perm
      ((rowPairs .ascii (twoCommands.zipIdx 1)).map (rowLink .ascii) ++
        BridgeTables.empty.links.entries) := by
  intro exact
  have mem : ((command "save" .exporting, 2), (command "save" .importing, 4)) ∈
      rowPairs .ascii (twoCommands.zipIdx 1) :=
    mem_rowPairs.mpr ⟨by decide, by decide, rfl, rfl, rfl, .inl rfl⟩
  have first := (firstOfPlace_of_stored exact mem).1
  have clash := first (command "greet" .exporting, 1) (by decide) (by decide)
  exact absurd clash (by decide)


end Ministr.Bridge
