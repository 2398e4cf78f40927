/-
# Bridge.Linker — joining the endpoints of a bridge

`BridgeLinker::link` groups the endpoints by kind and binding key and pairs the exports of a
group with its imports.  What has no partner that way is grouped once more, by kind and
normalised key, and paired with the confidence capped.  Both groupings are hash maps, read
in an order nobody fixes (`HashOrder`).

* `link_perm` — whatever the orders are, the links are those of the intended join
  (`Paired`, `pairLink`), each once;
* `link_deterministic_iff` — the list is the same for all orders exactly when no two groups
  of one pass have links of equal confidence, since the final sort looks at nothing else.
-/
import Ministr.Bridge.Case
import Ministr.Theory.Grouping
import Ministr.Theory.StableSort
import Mathlib.Data.Rat.Defs
import Mathlib.Algebra.Order.Ring.Rat

namespace Ministr.Bridge

open Ministr.Theory

set_option autoImplicit false

/-! ## Endpoints and links -/

inductive BridgeKind where
  | tauriCommand
  | tauriEvent
  | napi
  | wasmBindgen
  | pyO3
  | httpRoute
  | ffi
  | cgo
  | jni
  | uniFfi
  | grpc
  | flutterChannel
  | electronIpc
  deriving DecidableEq, Repr

/-- Whether an endpoint defines a binding or consumes it: `Export` or `Import`. -/
inductive EndpointRole where
  | exporting
  | importing
  deriving DecidableEq, Repr

inductive ConfidenceLevel where
  | exact
  | registrationValidated
  | caseTransformed
  | fuzzy
  deriving DecidableEq, Repr

def ConfidenceLevel.score : ConfidenceLevel → ℚ
  | .exact | .registrationValidated => 1
  | .caseTransformed => 9 / 10
  | .fuzzy => 7 / 10

structure BridgeEndpoint where
  bindingKey : String
  kind : BridgeKind
  role : EndpointRole
  language : String
  filePath : String
  line : Nat
  symbolName : String
  confidence : ℚ
  deriving DecidableEq, Repr

/-- A matched pair: the sides `export` and `import` with the kind and the confidence. -/
structure BridgeLink where
  exported : BridgeEndpoint
  imported : BridgeEndpoint
  kind : BridgeKind
  confidence : ℚ
  deriving DecidableEq, Repr

/-- `BridgeLink::new`; its assertions are checked in debug builds only. -/
def BridgeLink.new (exported imported : BridgeEndpoint) : BridgeLink where
  exported := exported
  imported := imported
  kind := exported.kind
  confidence := min exported.confidence imported.confidence

/-- The exports and the imports of one key. -/
abbrev EndpointGroup := List BridgeEndpoint × List BridgeEndpoint

abbrev GroupKey := BridgeKind × String

/-- An order in which a map of groups is read. -/
abbrev GroupOrder := HashOrder GroupKey EndpointGroup

def BridgeEndpoint.isExport (ep : BridgeEndpoint) : Bool := decide (ep.role = .exporting)

def BridgeEndpoint.exactKey (ep : BridgeEndpoint) : GroupKey := (ep.kind, ep.bindingKey)

/-! ## The two passes -/

/-- What the first pass fills: the links and the two sets of matched keys. -/
structure ExactPass where
  links : List BridgeLink
  matchedExports : List GroupKey
  matchedImports : List GroupKey

/-- One group of the first pass. -/
def ExactPass.visit (pass : ExactPass) (group : Sigma fun _ : GroupKey => EndpointGroup) :
    ExactPass :=
  if !group.2.1.isEmpty && !group.2.2.isEmpty then
    { links := pass.links ++ (joinOf group).map fun p => .new p.1 p.2
      matchedExports := group.1 :: pass.matchedExports
      matchedImports := group.1 :: pass.matchedImports }
  else pass

def exactGroups (endpoints : List BridgeEndpoint) : Rows GroupKey EndpointGroup :=
  groupTable BridgeEndpoint.exactKey BridgeEndpoint.isExport endpoints

def exactPass (order : GroupOrder) (endpoints : List BridgeEndpoint) : ExactPass :=
  (order.read (exactGroups endpoints)).foldl ExactPass.visit ⟨[], [], []⟩

def ExactPass.isMatched (pass : ExactPass) (ep : BridgeEndpoint) : Bool :=
  match ep.role with
  | .exporting => decide (ep.exactKey ∈ pass.matchedExports)
  | .importing => decide (ep.exactKey ∈ pass.matchedImports)

section Linker

variable (chars : CaseTables)

def BridgeEndpoint.normKey (ep : BridgeEndpoint) : GroupKey :=
  (ep.kind, chars.normalizeBindingKey ep.bindingKey)

/-- The second grouping, of the endpoints the first pass has not matched. -/
def normalizedGroups (pass : ExactPass) (endpoints : List BridgeEndpoint) :
    Rows GroupKey EndpointGroup :=
  groupTable (BridgeEndpoint.normKey chars) BridgeEndpoint.isExport
    (endpoints.filter fun ep => !pass.isMatched ep)

/-- The link of a pair that matches by normalised keys. -/
def normalizedLink (exported imported : BridgeEndpoint) : BridgeLink :=
  let normalizedKey := chars.normalizeBindingKey exported.bindingKey
  let cap := ConfidenceLevel.caseTransformed.score
  .new { exported with bindingKey := normalizedKey, confidence := min exported.confidence cap }
    { imported with bindingKey := normalizedKey, confidence := min imported.confidence cap }

def groupLinks (group : Sigma fun _ : GroupKey => EndpointGroup) : List BridgeLink :=
  ((joinOf group).filter fun p => decide (p.1.bindingKey ≠ p.2.bindingKey)).map
    fun p => normalizedLink chars p.1 p.2

/-- Descending confidence. -/
def byConfidence (a b : BridgeLink) : Bool := decide (b.confidence ≤ a.confidence)

def link (order order' : GroupOrder) (endpoints : List BridgeEndpoint) : List BridgeLink :=
  let pass := exactPass order endpoints
  let normalized := (order'.read (normalizedGroups chars pass endpoints)).flatMap (groupLinks chars)
  (pass.links ++ normalized).mergeSort byConfidence

/-! ## The intended join -/

/-- Some endpoint of the other role has the same kind and key. -/
def HasPartner (endpoints : List BridgeEndpoint) (ep : BridgeEndpoint) : Prop :=
  ∃ other ∈ endpoints, other.role ≠ ep.role ∧ other.exactKey = ep.exactKey

instance (endpoints : List BridgeEndpoint) (ep : BridgeEndpoint) :
    Decidable (HasPartner endpoints ep) := inferInstanceAs (Decidable (∃ _ ∈ _, _))

/-- An export and an import that belong together. -/
def Paired (endpoints : List BridgeEndpoint) (e i : BridgeEndpoint) : Prop :=
  e.role = .exporting ∧ i.role = .importing ∧ e.kind = i.kind ∧
    (e.bindingKey = i.bindingKey ∨
      e.bindingKey ≠ i.bindingKey ∧
        chars.normalizeBindingKey e.bindingKey = chars.normalizeBindingKey i.bindingKey ∧
        ¬ HasPartner endpoints e ∧ ¬ HasPartner endpoints i)

instance (endpoints : List BridgeEndpoint) (e i : BridgeEndpoint) :
    Decidable (Paired chars endpoints e i) := inferInstanceAs (Decidable (_ ∧ _))

/-- The confidence a pair should have. -/
def pairConfidence (p : BridgeEndpoint × BridgeEndpoint) : ℚ :=
  if p.1.bindingKey = p.2.bindingKey then min p.1.confidence p.2.confidence
  else min (min p.1.confidence p.2.confidence) ConfidenceLevel.caseTransformed.score

/-- The pairs of the intended join. -/
def pairs (endpoints : List BridgeEndpoint) : List (BridgeEndpoint × BridgeEndpoint) :=
  (endpoints ×ˢ endpoints).filter fun p => decide (Paired chars endpoints p.1 p.2)

/-- The link of a pair: as it is, or under the normalised key. -/
def pairLink (p : BridgeEndpoint × BridgeEndpoint) : BridgeLink :=
  if p.1.bindingKey = p.2.bindingKey then .new p.1 p.2 else normalizedLink chars p.1 p.2

/-- The links are those of the intended join, each pair once, with its confidence. -/
def IntendedJoin (endpoints : List BridgeEndpoint) (links : List BridgeLink) : Prop :=
  links.Perm ((pairs chars endpoints).map (pairLink chars)) ∧
    ∀ p ∈ pairs chars endpoints, (pairLink chars p).confidence = pairConfidence p

/-- No two pairs that match by equal keys, and no two that match by normalised keys only,
have one confidence and different keys. -/
def NoTies (endpoints : List BridgeEndpoint) : Prop :=
  ∀ p ∈ pairs chars endpoints, ∀ q ∈ pairs chars endpoints, pairConfidence p = pairConfidence q →
    (p.1.bindingKey = p.2.bindingKey → q.1.bindingKey = q.2.bindingKey →
      p.1.exactKey = q.1.exactKey) ∧
    (p.1.bindingKey ≠ p.2.bindingKey → q.1.bindingKey ≠ q.2.bindingKey →
      p.1.normKey chars = q.1.normKey chars)

/-! ## The first pass -/

variable {chars}

theorem joinOf_eq_nil {group : Sigma fun _ : GroupKey => EndpointGroup}
    (alone : ¬ (!group.2.1.isEmpty && !group.2.2.isEmpty) = true) : joinOf group = [] := by
  obtain ⟨key, exports, imports⟩ := group
  cases exports with
  | nil => rfl
  | cons e exports =>
      cases imports with
      | nil => simp [joinOf, SProd.sprod, List.product]
      | cons i imports => simp at alone

theorem foldl_visit (groups : List (Sigma fun _ : GroupKey => EndpointGroup)) (pass : ExactPass) :
    (groups.foldl ExactPass.visit pass).links =
        pass.links ++ (groups.flatMap joinOf).map (fun p => .new p.1 p.2) ∧
      ∀ k, (k ∈ (groups.foldl ExactPass.visit pass).matchedExports ↔ k ∈ pass.matchedExports ∨
          ∃ g ∈ groups, g.1 = k ∧ joinOf g ≠ []) ∧
        (k ∈ (groups.foldl ExactPass.visit pass).matchedImports ↔ k ∈ pass.matchedImports ∨
          ∃ g ∈ groups, g.1 = k ∧ joinOf g ≠ []) := by
  induction groups generalizing pass with
  | nil => simp
  | cons g groups ih =>
      obtain ⟨links, matched⟩ := ih (pass.visit g)
      rw [List.foldl_cons]
      by_cases both : (!g.2.1.isEmpty && !g.2.2.isEmpty) = true
      · have held : joinOf g ≠ [] := by
          obtain ⟨key, exports, imports⟩ := g
          cases exports with
          | nil => simp at both
          | cons e exports =>
              cases imports with
              | nil => simp at both
              | cons i imports => simp [joinOf]
        have visited : pass.visit g = ⟨pass.links ++ (joinOf g).map fun p => .new p.1 p.2,
            g.1 :: pass.matchedExports, g.1 :: pass.matchedImports⟩ := if_pos both
        rw [visited] at links matched ⊢
        refine ⟨by rw [links]; simp, fun k => ?_⟩
        rw [(matched k).1, (matched k).2]
        simp only [List.mem_cons, exists_eq_or_imp, held, ne_eq, not_false_eq_true, and_true,
          eq_comm (a := k)]
        tauto
      · have alone := joinOf_eq_nil both
        have visited : pass.visit g = pass := if_neg both
        rw [visited] at links matched ⊢
        refine ⟨by rw [links]; simp [alone], fun k => ?_⟩
        rw [(matched k).1, (matched k).2]
        simp [alone]

variable (order : GroupOrder) {endpoints : List BridgeEndpoint}

theorem exactPass_links :
    (exactPass order endpoints).links =
      ((order.read (exactGroups endpoints)).flatMap joinOf).map fun p => .new p.1 p.2 :=
  (foldl_visit _ _).1

/-- The matched keys are those with an export and an import, in whatever order the groups
are read. -/
theorem exists_group_iff (k : GroupKey) :
    (∃ g ∈ order.read (exactGroups endpoints), g.1 = k ∧ joinOf g ≠ []) ↔
      (∃ e ∈ endpoints, e.isExport = true ∧ e.exactKey = k) ∧
        ∃ i ∈ endpoints, i.isExport = false ∧ i.exactKey = k := by
  constructor
  · rintro ⟨⟨k', group⟩, mem, rfl, held⟩
    obtain ⟨-, rfl⟩ := (mem_entries_groupTable endpoints _ _).mp ((order.perm _).mem_iff.mp mem)
    obtain ⟨p, inside⟩ := List.exists_mem_of_ne_nil _ held
    obtain ⟨listed, left, right, keyL, keyR⟩ := (mem_joinOf_groupOf endpoints _ p).mp inside
    obtain ⟨inL, inR⟩ := List.mem_product.mp listed
    exact ⟨⟨p.1, inL, left, keyL⟩, ⟨p.2, inR, right, keyR⟩⟩
  · rintro ⟨⟨e, inE, left, keyE⟩, ⟨i, inI, right, keyI⟩⟩
    refine ⟨⟨k, groupOf BridgeEndpoint.exactKey BridgeEndpoint.isExport endpoints k⟩,
      (order.perm _).mem_iff.mpr ((mem_entries_groupTable endpoints _ _).mpr
        ⟨⟨e, inE, keyE⟩, rfl⟩), rfl, ?_⟩
    exact List.ne_nil_of_mem ((mem_joinOf_groupOf endpoints k (e, i)).mpr
      ⟨List.mem_product.mpr ⟨inE, inI⟩, left, right, keyE, keyI⟩)

theorem isExport_iff (ep : BridgeEndpoint) : ep.isExport = true ↔ ep.role = .exporting := by
  rw [BridgeEndpoint.isExport, decide_eq_true_eq]

theorem isExport_eq_false_iff (ep : BridgeEndpoint) :
    ep.isExport = false ↔ ep.role = .importing := by
  cases role : ep.role <;> simp [BridgeEndpoint.isExport, role]

theorem isMatched_iff {ep : BridgeEndpoint} (listed : ep ∈ endpoints) :
    (exactPass order endpoints).isMatched ep = true ↔ HasPartner endpoints ep := by
  have matched := (foldl_visit (order.read (exactGroups endpoints)) ⟨[], [], []⟩).2 ep.exactKey
  simp only [List.not_mem_nil, false_or] at matched
  rw [exists_group_iff order] at matched
  have test : (exactPass order endpoints).isMatched ep = true ↔
      (∃ e ∈ endpoints, e.isExport = true ∧ e.exactKey = ep.exactKey) ∧
        ∃ i ∈ endpoints, i.isExport = false ∧ i.exactKey = ep.exactKey := by
    rw [ExactPass.isMatched]
    cases ep.role with
    | exporting => rw [decide_eq_true_eq]; exact matched.1
    | importing => rw [decide_eq_true_eq]; exact matched.2
  rw [test]
  constructor
  · rintro ⟨⟨e, inE, left, keyE⟩, ⟨i, inI, right, keyI⟩⟩
    have roleE : e.role = .exporting := by simpa [BridgeEndpoint.isExport] using left
    have roleI := (isExport_eq_false_iff i).mp right
    cases role : ep.role with
    | exporting => exact ⟨i, inI, by simp [roleI, role], keyI⟩
    | importing => exact ⟨e, inE, by simp [roleE, role], keyE⟩
  · rintro ⟨other, inOther, different, sameKey⟩
    cases role : ep.role with
    | exporting =>
        refine ⟨⟨ep, listed, by simp [BridgeEndpoint.isExport, role], rfl⟩, other, inOther, ?_,
          sameKey⟩
        cases roleO : other.role with
        | exporting => exact absurd (roleO.trans role.symm) different
        | importing => exact (isExport_eq_false_iff other).mpr roleO
    | importing =>
        refine ⟨⟨other, inOther, ?_, sameKey⟩, ep, listed, (isExport_eq_false_iff ep).mpr role, rfl⟩
        cases roleO : other.role with
        | exporting => simp [BridgeEndpoint.isExport, roleO]
        | importing => exact absurd (roleO.trans role.symm) different

/-! ## The links as a join -/

/-- The endpoints the second pass sees. -/
def unmatched (endpoints : List BridgeEndpoint) : List BridgeEndpoint :=
  endpoints.filter fun ep => !decide (HasPartner endpoints ep)

theorem normalizedGroups_eq :
    normalizedGroups chars (exactPass order endpoints) endpoints =
      groupTable (BridgeEndpoint.normKey chars) BridgeEndpoint.isExport (unmatched endpoints) := by
  rw [normalizedGroups, unmatched]
  congr 1
  refine List.filter_congr fun ep mem => ?_
  rw [Bool.not_inj_iff, Bool.eq_iff_iff, isMatched_iff order mem, decide_eq_true_eq]

variable (chars) in
/-- The exact pairs, as the nested loops over all endpoints find them. -/
theorem exactLinks_perm :
    (exactPass order endpoints).links.Perm
      (((pairs chars endpoints).filter fun p => decide (p.1.bindingKey = p.2.bindingKey)).map
        (pairLink chars)) := by
  have joined := join_perm endpoints (order.perm (exactGroups endpoints))
  have same : ((endpoints ×ˢ endpoints).filter fun p => p.1.isExport && !p.2.isExport &&
      decide (p.1.exactKey = p.2.exactKey)) =
      (pairs chars endpoints).filter fun p => decide (p.1.bindingKey = p.2.bindingKey) := by
    rw [pairs, List.filter_filter]
    refine List.filter_congr fun p _ => ?_
    rw [Bool.eq_iff_iff]
    simp only [Bool.and_eq_true, Bool.not_eq_true', isExport_iff, isExport_eq_false_iff,
      decide_eq_true_eq]
    simp only [BridgeEndpoint.exactKey, Prod.mk.injEq, Paired]
    tauto
  rw [exactPass_links, ← same]
  refine (joined.map _).trans (List.Perm.of_eq (List.map_congr_left fun p mem => ?_))
  rw [same] at mem
  have keys : p.1.bindingKey = p.2.bindingKey := by simpa using (List.mem_filter.mp mem).2
  rw [pairLink, if_pos keys]

theorem normalizedLinks_perm (order' : GroupOrder) :
    ((order'.read (normalizedGroups chars (exactPass order endpoints) endpoints)).flatMap
      (groupLinks chars)).Perm
      (((pairs chars endpoints).filter fun p => !decide (p.1.bindingKey = p.2.bindingKey)).map
        (pairLink chars)) := by
  have read := order'.perm (normalizedGroups chars (exactPass order endpoints) endpoints)
  rw [normalizedGroups_eq] at read ⊢
  have joined := join_perm (unmatched endpoints) read
  have same : ((unmatched endpoints ×ˢ unmatched endpoints).filter fun p =>
      p.1.isExport && !p.2.isExport && decide (p.1.normKey chars = p.2.normKey chars)).filter
        (fun p => decide (p.1.bindingKey ≠ p.2.bindingKey)) =
      (pairs chars endpoints).filter fun p => !decide (p.1.bindingKey = p.2.bindingKey) := by
    rw [unmatched, product_filter, pairs, List.filter_filter, List.filter_filter,
      List.filter_filter]
    refine List.filter_congr fun p _ => ?_
    rw [Bool.eq_iff_iff]
    simp only [Bool.and_eq_true, Bool.not_eq_true', isExport_iff, isExport_eq_false_iff,
      decide_eq_true_eq, decide_eq_false_iff_not, ne_eq]
    simp only [BridgeEndpoint.normKey, Prod.mk.injEq, Paired, ne_eq]
    tauto
  have flat : ∀ groups : List (Sigma fun _ : GroupKey => EndpointGroup),
      groups.flatMap (groupLinks chars) = ((groups.flatMap joinOf).filter
        fun p => decide (p.1.bindingKey ≠ p.2.bindingKey)).map
          fun p => normalizedLink chars p.1 p.2 := by
    intro groups
    rw [List.filter_flatMap, List.map_flatMap]
    rfl
  rw [flat, ← same]
  refine ((joined.filter _).map _).trans (List.Perm.of_eq (List.map_congr_left fun p mem => ?_))
  have keys : p.1.bindingKey ≠ p.2.bindingKey := by simpa using (List.mem_filter.mp mem).2
  rw [pairLink, if_neg keys]

/-- **The links are those of the intended join**, whatever the orders are. -/
theorem link_perm (order' : GroupOrder) :
    (link chars order order' endpoints).Perm ((pairs chars endpoints).map (pairLink chars)) := by
  refine (List.mergeSort_perm _ _).trans ?_
  refine ((exactLinks_perm chars order).append (normalizedLinks_perm order order')).trans ?_
  rw [← List.map_append]
  exact (List.filter_append_perm _ _).map _

variable (chars) in
theorem pairLink_confidence (p : BridgeEndpoint × BridgeEndpoint) :
    (pairLink chars p).confidence = pairConfidence p := by
  rw [pairLink, pairConfidence]
  split
  · rfl
  · exact min_min_min_comm _ _ _ _ |>.trans (by rw [min_self])

/-! ## The order of the links -/

theorem byConfidence_trans (a b c : BridgeLink) (ab : byConfidence a b) (bc : byConfidence b c) :
    byConfidence a c := by
  simp only [byConfidence, decide_eq_true_eq] at *
  exact bc.trans ab

theorem byConfidence_linear (a b : BridgeLink) : byConfidence a b || byConfidence b a := by
  simp only [byConfidence, Bool.or_eq_true, decide_eq_true_eq]
  exact le_total _ _

theorem tied_byConfidence (a b : BridgeLink) :
    tied byConfidence a b = true ↔ a.confidence = b.confidence := by
  simp only [tied, byConfidence, Bool.and_eq_true, decide_eq_true_eq]
  exact ⟨fun both => le_antisymm both.2 both.1, fun eq => ⟨eq.ge, eq.le⟩⟩

/-- The links of one group of the first pass. -/
def exactBlock (group : Sigma fun _ : GroupKey => EndpointGroup) : List BridgeLink :=
  ((joinOf group).filter fun _ => true).map fun p => .new p.1 p.2

theorem link_eq (order order' : GroupOrder) :
    link chars order order' endpoints =
      ((order.read (exactGroups endpoints)).flatMap exactBlock ++
        (order'.read (groupTable (BridgeEndpoint.normKey chars) BridgeEndpoint.isExport
          (unmatched endpoints))).flatMap (groupLinks chars)).mergeSort byConfidence := by
  have blocks : (exactPass order endpoints).links =
      (order.read (exactGroups endpoints)).flatMap exactBlock := by
    rw [exactPass_links, List.map_flatMap]
    refine List.flatMap_congr fun group _ => ?_
    rw [exactBlock, List.filter_true]
  rw [link, normalizedGroups_eq, blocks]

/-- The key under which a link was made. -/
def BridgeLink.groupKey (l : BridgeLink) : GroupKey := (l.exported.kind, l.exported.bindingKey)

theorem mem_pairs {p : BridgeEndpoint × BridgeEndpoint} :
    p ∈ pairs chars endpoints ↔ p ∈ endpoints ×ˢ endpoints ∧ Paired chars endpoints p.1 p.2 := by
  rw [pairs, List.mem_filter, decide_eq_true_eq]

theorem mem_unmatched {ep : BridgeEndpoint} :
    ep ∈ unmatched endpoints ↔ ep ∈ endpoints ∧ ¬ HasPartner endpoints ep := by
  rw [unmatched, List.mem_filter, Bool.not_eq_true', decide_eq_false_iff_not]

/-- When the order in which the groups of one pass are read does not show: `IsOf` are the
pairs of the pass and `f` makes their links. -/
theorem pass_order_iff {among : List BridgeEndpoint} {key : BridgeEndpoint → GroupKey}
    {f : BridgeEndpoint × BridgeEndpoint → BridgeLink}
    {keep : BridgeEndpoint × BridgeEndpoint → Bool} {IsOf : BridgeEndpoint × BridgeEndpoint → Prop}
    (named : ∀ p, (f p).groupKey = key p.1)
    (isOf_iff : ∀ p, p ∈ pairs chars endpoints ∧ IsOf p ↔ p ∈ among ×ˢ among ∧
      p.1.isExport = true ∧ p.2.isExport = false ∧ key p.1 = key p.2 ∧ keep p = true)
    (score : ∀ p, IsOf p → (f p).confidence = pairConfidence p) (front back : List BridgeLink) :
    (∀ listing : List (Sigma fun _ : GroupKey => EndpointGroup),
      listing.Perm (groupTable key BridgeEndpoint.isExport among).entries →
      (front ++ listing.flatMap (fun g => ((joinOf g).filter keep).map f) ++ back).mergeSort
          byConfidence =
        (front ++ (groupTable key BridgeEndpoint.isExport among).entries.flatMap
          (fun g => ((joinOf g).filter keep).map f) ++ back).mergeSort byConfidence) ↔
      ∀ p ∈ pairs chars endpoints, ∀ q ∈ pairs chars endpoints,
        pairConfidence p = pairConfidence q → IsOf p → IsOf q → key p.1 = key q.1 := by
  refine (mergeSort_join_iff byConfidence_trans byConfidence_linear f keep BridgeLink.groupKey named
    among front back).trans ?_
  constructor
  · intro apart p memP q memQ same ofP ofQ
    have listedP := (isOf_iff p).mp ⟨memP, ofP⟩
    have listedQ := (isOf_iff q).mp ⟨memQ, ofQ⟩
    refine apart p listedP.1 q listedQ.1 listedP.2 listedQ.2 ((tied_byConfidence _ _).mpr ?_)
    rw [score p ofP, score q ofQ, same]
  · intro apart p memP q memQ okP okQ tie
    obtain ⟨pairP, ofP⟩ := (isOf_iff p).mpr ⟨memP, okP⟩
    obtain ⟨pairQ, ofQ⟩ := (isOf_iff q).mpr ⟨memQ, okQ⟩
    refine apart p pairP q pairQ ?_ ofP ofQ
    rw [← score p ofP, ← score q ofQ]
    exact (tied_byConfidence _ _).mp tie

variable (chars endpoints)

theorem exact_order_iff (front back : List BridgeLink) :
    (∀ listing : List (Sigma fun _ : GroupKey => EndpointGroup),
      listing.Perm (exactGroups endpoints).entries →
      (front ++ listing.flatMap exactBlock ++ back).mergeSort byConfidence =
        (front ++ (exactGroups endpoints).entries.flatMap exactBlock ++ back).mergeSort
          byConfidence) ↔
      ∀ p ∈ pairs chars endpoints, ∀ q ∈ pairs chars endpoints,
        pairConfidence p = pairConfidence q → p.1.bindingKey = p.2.bindingKey →
        q.1.bindingKey = q.2.bindingKey → p.1.exactKey = q.1.exactKey := by
  refine pass_order_iff (fun _ => rfl) (fun p => ?_) (fun p keys => ?_) front back
  · rw [mem_pairs, Paired, isExport_iff, isExport_eq_false_iff, BridgeEndpoint.exactKey,
      BridgeEndpoint.exactKey, Prod.mk.injEq]
    tauto
  · rw [pairConfidence, if_pos keys]
    rfl

theorem normalized_order_iff (front back : List BridgeLink) :
    (∀ listing : List (Sigma fun _ : GroupKey => EndpointGroup),
      listing.Perm (groupTable (BridgeEndpoint.normKey chars) BridgeEndpoint.isExport
        (unmatched endpoints)).entries →
      (front ++ listing.flatMap (groupLinks chars) ++ back).mergeSort byConfidence =
        (front ++ (groupTable (BridgeEndpoint.normKey chars) BridgeEndpoint.isExport
          (unmatched endpoints)).entries.flatMap (groupLinks chars) ++ back).mergeSort
            byConfidence) ↔
      ∀ p ∈ pairs chars endpoints, ∀ q ∈ pairs chars endpoints,
        pairConfidence p = pairConfidence q → p.1.bindingKey ≠ p.2.bindingKey →
        q.1.bindingKey ≠ q.2.bindingKey → p.1.normKey chars = q.1.normKey chars := by
  refine pass_order_iff (fun _ => rfl) (fun p => ?_) (fun p keys => ?_) front back
  · rw [mem_pairs, Paired, isExport_iff, isExport_eq_false_iff, BridgeEndpoint.normKey,
      BridgeEndpoint.normKey, Prod.mk.injEq, List.mem_product, List.mem_product, mem_unmatched,
      mem_unmatched, decide_eq_true_eq]
    tauto
  · have same := pairLink_confidence chars p
    rwa [pairLink, if_neg keys] at same

/-- The list is the same for all orders exactly when nothing is tied across groups. -/
theorem link_deterministic_iff :
    (∀ order order' other other' : GroupOrder,
      link chars order order' endpoints = link chars other other' endpoints) ↔
      NoTies chars endpoints := by
  constructor
  · intro same
    have exactOnly := (exact_order_iff chars endpoints [] _).mp fun listing perm => by
      obtain ⟨order, read⟩ := HashOrder.exists_read perm
      have here := same order .filled .filled .filled
      rw [link_eq, link_eq, read] at here
      simpa only [List.nil_append, HashOrder.filled_read] using here
    have normalizedOnly := (normalized_order_iff chars endpoints _ []).mp fun listing perm => by
      obtain ⟨order, read⟩ := HashOrder.exists_read perm
      have here := same .filled order .filled .filled
      rw [link_eq, link_eq, read] at here
      simpa only [List.append_nil, HashOrder.filled_read] using here
    exact fun p memP q memQ score =>
      ⟨exactOnly p memP q memQ score, normalizedOnly p memP q memQ score⟩
  · intro apart order order' other other'
    have settle : ∀ o o' : GroupOrder, link chars o o' endpoints =
        link chars .filled .filled endpoints := by
      intro o o'
      have first := fun back => (exact_order_iff chars endpoints [] back).mpr
        (fun p memP q memQ score => (apart p memP q memQ score).1) _
        (o.perm (exactGroups endpoints))
      have second := fun front => (normalized_order_iff chars endpoints front []).mpr
        (fun p memP q memQ score => (apart p memP q memQ score).2) _ (o'.perm _)
      simp only [List.nil_append] at first
      simp only [List.append_nil] at second
      rw [link_eq, link_eq, first, second]
      rfl
    rw [settle, settle other]

/-- **The linker computes the intended join, and one list whatever the hash order, exactly
when no two groups of one pass have links of one confidence.** -/
theorem link_intended_iff :
    ((∀ order order' : GroupOrder,
        IntendedJoin chars endpoints (link chars order order' endpoints)) ∧
      ∀ order order' other other' : GroupOrder,
        link chars order order' endpoints = link chars other other' endpoints) ↔
      NoTies chars endpoints := by
  rw [link_deterministic_iff, and_iff_right_iff_imp]
  exact fun _ order order' => ⟨link_perm order order', fun p _ => pairLink_confidence chars p⟩

/-- An endpoint of a Tauri command. -/
def command (key : String) (role : EndpointRole) : BridgeEndpoint where
  bindingKey := key
  kind := .tauriCommand
  role := role
  language := if role = .exporting then "rust" else "typescript"
  filePath := if role = .exporting then "src-tauri/src/main.rs" else "src/App.tsx"
  line := 10
  symbolName := key
  confidence := 1

/-- Two commands, each with its call. -/
def twoCommands : List BridgeEndpoint :=
  [command "greet" .exporting, command "save" .exporting, command "greet" .importing,
    command "save" .importing]

/-- Which of two plain matches comes first is left to the hash order. -/
theorem twoCommands_in_hash_order :
    ¬ ((∀ order order' : GroupOrder,
        IntendedJoin .ascii twoCommands (link .ascii order order' twoCommands)) ∧
      ∀ order order' other other' : GroupOrder,
        link .ascii order order' twoCommands = link .ascii other other' twoCommands) := by
  rintro ⟨-, same⟩
  have apart := (link_deterministic_iff .ascii twoCommands).mp same
  have keys := (apart (command "greet" .exporting, command "greet" .importing) (by decide)
    (command "save" .exporting, command "save" .importing) (by decide) (by decide)).1 rfl rfl
  exact absurd keys (by decide)

end Linker

/-! ## Names in the two conventions -/

/-- A name in `snake_case`: one or more segments joined by underscores. -/
structure SnakeName where
  segments : List (List Char)
  named : segments ≠ []
  valid : ∀ segment ∈ segments, isSegment segment

def SnakeName.text (name : SnakeName) : String := snakeName name.segments

/-- **A name comes back from its camel case, and an export under it meets the import written
in camel case in one normalised group, exactly when every boundary between two segments
shows in the camel case.** -/
theorem snake_camel_grouped_iff (chars : CaseTables) (name : SnakeName) :
    (chars.normalizeBindingKey (chars.snakeToCamel name.text) = name.text ∧
      ∀ e i : BridgeEndpoint, e.kind = i.kind → e.bindingKey = name.text →
        i.bindingKey = chars.snakeToCamel name.text → e.normKey chars = i.normKey chars) ↔
      Recoverable name.segments := by
  have recovered : chars.normalizeBindingKey (chars.snakeToCamel name.text) = name.text ↔
      Recoverable name.segments := chars.normalize_snakeToCamel_iff name.named name.valid
  have fixed : chars.normalizeBindingKey name.text = name.text :=
    chars.normalize_snakeName name.named name.valid
  rw [← recovered, and_iff_left_iff_imp]
  intro back e i kinds snake camel
  rw [BridgeEndpoint.normKey, BridgeEndpoint.normKey, kinds, snake, camel, back, fixed]

/-- The name `a_b_c`. -/
def oneLetterSegments : SnakeName where
  segments := [['a'], ['b'], ['c']]
  named := by decide
  valid := by decide

/-- `aBC` is read back as `a_bc`, whatever Unicode says beyond ASCII. -/
theorem oneLetterSegments_lost :
    oneLetterSegments.text = "a_b_c" ∧
      ¬ ∃ chars : CaseTables,
        chars.normalizeBindingKey (chars.snakeToCamel oneLetterSegments.text) =
          oneLetterSegments.text := by
  refine ⟨by decide, fun ⟨chars, back⟩ => ?_⟩
  have shown := (chars.normalize_snakeToCamel_iff oneLetterSegments.named
    oneLetterSegments.valid).mp back
  exact absurd shown (by decide)

end Ministr.Bridge
