/-
# Bridge.Semantic — the fallback on names that mean the same

`link_with_fallback` runs the linker and pairs what is left by the similarity of the symbol
names.  What is left is recognised by file, binding key and line, and the keys it looks for
are those of the links: an endpoint that was linked under a normalised key and is not itself
written in normal form is not found, and is offered again.  The pairs are then formed across
all kinds at once.  `linkWithFallback_extends_iff` says when neither shows.

The vectors are the embedder's, and the arithmetic on them is that of floating point
(`Floats`); nothing here depends on what it computes.
-/
import Ministr.Bridge.Linker
import Mathlib.Data.Rat.Sqrt

namespace Ministr.Bridge

open Ministr.Theory

set_option autoImplicit false

/-! ## The fallback -/

/-- The operations on `f32` that are used. -/
structure Floats (F : Type) where
  zero : F
  add : F → F → F
  mul : F → F → F
  div : F → F → F
  sqrt : F → F
  isZero : F → Bool
  atLeast : F → F → Bool

inductive SemanticFallbackError where
  | dimensionMismatch (expected actual : Nat)
  | emptyVectors
  | embedding (message : String)
  deriving DecidableEq, Repr

section Fallback

variable {F : Type} (ops : Floats F)

def Floats.sum (xs : List F) : F := xs.foldl ops.add ops.zero

def cosineSimilarity (a b : List F) : F :=
  if a.length ≠ b.length ∨ a.isEmpty then ops.zero
  else
    let dot := ops.sum (a.zipWith ops.mul b)
    let normA := ops.sqrt (ops.sum (a.map fun x => ops.mul x x))
    let normB := ops.sqrt (ops.sum (b.map fun x => ops.mul x x))
    if ops.isZero normA || ops.isZero normB then ops.zero else ops.div dot (ops.mul normA normB)

/-- `EmbeddingFn::embed_batch`. -/
abbrev Embedder (F : Type) := List String → Except SemanticFallbackError (List (List F))

/-- What `collect_unmatched` knows an endpoint by. -/
def BridgeEndpoint.site (ep : BridgeEndpoint) : String × String × Nat :=
  (ep.filePath, ep.bindingKey, ep.line)

def matchedSites (links : List BridgeLink) : List (String × String × Nat) :=
  links.flatMap fun l => [l.exported.site, l.imported.site]

def collectUnmatched (endpoints : List BridgeEndpoint) (links : List BridgeLink) :
    List BridgeEndpoint × List BridgeEndpoint :=
  let rest := endpoints.filter fun ep => !decide (ep.site ∈ matchedSites links)
  (rest.filter fun ep => ep.isExport, rest.filter fun ep => !ep.isExport)

def symbolNames (sides : List BridgeEndpoint × List BridgeEndpoint) : List String :=
  sides.1.map BridgeEndpoint.symbolName ++ sides.2.map BridgeEndpoint.symbolName

/-- The pairs whose vectors are similar enough; the first vectors are those of the exports. -/
def similarPairs (threshold : F) (sides : List BridgeEndpoint × List BridgeEndpoint)
    (embeddings : List (List F)) : List (BridgeEndpoint × BridgeEndpoint) :=
  let exports := sides.1.zip (embeddings.take sides.1.length)
  let imports := sides.2.zip (embeddings.drop sides.1.length)
  ((exports ×ˢ imports).filter fun p =>
    ops.atLeast (cosineSimilarity ops p.1.2 p.2.2) threshold).map fun p => (p.1.1, p.2.1)

def fuzzyLink (p : BridgeEndpoint × BridgeEndpoint) : BridgeLink :=
  let fuzzy := ConfidenceLevel.fuzzy.score
  .new { p.1 with confidence := fuzzy }
    { p.2 with bindingKey := p.1.bindingKey, confidence := fuzzy }

def findMatches (threshold : F) (embed : Embedder F)
    (sides : List BridgeEndpoint × List BridgeEndpoint) :
    Except SemanticFallbackError (List BridgeLink) :=
  if sides.1.isEmpty || sides.2.isEmpty then .ok []
  else do
    let embeddings ← embed (symbolNames sides)
    if embeddings.length ≠ (symbolNames sides).length then
      .error (.dimensionMismatch (symbolNames sides).length embeddings.length)
    else .ok (((similarPairs ops threshold sides embeddings).map fuzzyLink).mergeSort byConfidence)

variable (chars : CaseTables)

def linkWithFallback (order order' : GroupOrder) (threshold : F) (embed : Embedder F)
    (endpoints : List BridgeEndpoint) : Except SemanticFallbackError (List BridgeLink) := do
  let links := link chars order order' endpoints
  let sides := collectUnmatched endpoints links
  if !sides.1.isEmpty && !sides.2.isEmpty then
    let semanticLinks ← findMatches ops threshold embed sides
    return links ++ semanticLinks
  else return links

/-! ## What it promises -/

/-- One vector for each name. -/
def OneVectorEach (embed : Embedder F) : Prop :=
  ∀ names, ∃ vectors, embed names = .ok vectors ∧ vectors.length = names.length

/-- The pairs the fallback links when it is given `sides`. -/
def offeredPairs (threshold : F) (embed : Embedder F)
    (sides : List BridgeEndpoint × List BridgeEndpoint) : List (BridgeEndpoint × BridgeEndpoint) :=
  similarPairs ops threshold sides ((embed (symbolNames sides)).toOption.getD [])

/-- The endpoint is a side of one of the links of the linker. -/
def TakesPart (endpoints : List BridgeEndpoint) (ep : BridgeEndpoint) : Prop :=
  ∃ p ∈ pairs chars endpoints, p.1 = ep ∨ p.2 = ep

/-- The result is the links of the linker and then those of further pairs, each of an export
and an import of one kind that take part in no link yet. -/
def Extends (order order' : GroupOrder) (threshold : F) (embed : Embedder F)
    (endpoints : List BridgeEndpoint) : Prop :=
  let links := link chars order order' endpoints
  let further := offeredPairs ops threshold embed (collectUnmatched endpoints links)
  linkWithFallback ops chars order order' threshold embed endpoints =
      .ok (links ++ further.map fuzzyLink) ∧
    links.Perm ((pairs chars endpoints).map (pairLink chars)) ∧
    ∀ p ∈ further, p.1.role = .exporting ∧ p.2.role = .importing ∧ p.1.kind = p.2.kind ∧
      ¬ TakesPart chars endpoints p.1 ∧ ¬ TakesPart chars endpoints p.2

/-- The key a pair is linked under. -/
def linkedKey (p : BridgeEndpoint × BridgeEndpoint) : String :=
  if p.1.bindingKey = p.2.bindingKey then p.1.bindingKey
  else chars.normalizeBindingKey p.1.bindingKey

/-- Some endpoint of this file and line is linked under this key. -/
def Recorded (endpoints : List BridgeEndpoint) (ep : BridgeEndpoint) : Prop :=
  ∃ p ∈ pairs chars endpoints, ep.bindingKey = linkedKey chars p ∧
    (ep.filePath = p.1.filePath ∧ ep.line = p.1.line ∨
      ep.filePath = p.2.filePath ∧ ep.line = p.2.line)

instance (endpoints : List BridgeEndpoint) (ep : BridgeEndpoint) :
    Decidable (Recorded chars endpoints ep) := inferInstanceAs (Decidable (∃ _ ∈ _, _))

/-- The exports and the imports that are not recorded. -/
def unrecorded (endpoints : List BridgeEndpoint) : List BridgeEndpoint × List BridgeEndpoint :=
  let rest := endpoints.filter fun ep => !decide (Recorded chars endpoints ep)
  (rest.filter fun ep => ep.isExport, rest.filter fun ep => !ep.isExport)

/-- The endpoint matches by case only, and is not the side written in normal form. -/
def CaseMatched (endpoints : List BridgeEndpoint) (ep : BridgeEndpoint) : Prop :=
  chars.normalizeBindingKey ep.bindingKey ≠ ep.bindingKey ∧ ¬ HasPartner endpoints ep ∧
    ∃ other ∈ endpoints, other.role ≠ ep.role ∧ other.bindingKey ≠ ep.bindingKey ∧
      other.normKey chars = ep.normKey chars ∧ ¬ HasPartner endpoints other

instance (endpoints : List BridgeEndpoint) (ep : BridgeEndpoint) :
    Decidable (CaseMatched chars endpoints ep) := inferInstanceAs (Decidable (_ ∧ _))

/-! ## The call as one equation -/

variable {ops} {chars} {order order' : GroupOrder} {threshold : F} {embed : Embedder F}
  {endpoints : List BridgeEndpoint}

/-- The links of the fallback are of one confidence, so its sort leaves them as they are. -/
theorem mergeSort_fuzzyLinks (further : List (BridgeEndpoint × BridgeEndpoint)) :
    (further.map fuzzyLink).mergeSort byConfidence = further.map fuzzyLink := by
  refine List.mergeSort_of_pairwise (List.pairwise_of_forall_mem_list fun a memA b memB => ?_)
  obtain ⟨p, -, rfl⟩ := List.mem_map.mp memA
  obtain ⟨q, -, rfl⟩ := List.mem_map.mp memB
  exact decide_eq_true (le_refl _)

theorem similarPairs_eq_nil {sides : List BridgeEndpoint × List BridgeEndpoint}
    (alone : (sides.1.isEmpty || sides.2.isEmpty) = true) (embeddings : List (List F)) :
    similarPairs ops threshold sides embeddings = [] := by
  rcases Bool.or_eq_true_iff.mp alone with empty | empty
  · rw [similarPairs, List.isEmpty_iff.mp empty]
    rfl
  · rw [similarPairs, List.isEmpty_iff.mp empty]
    simp [SProd.sprod, List.product]

theorem findMatches_eq (oneEach : OneVectorEach embed)
    (sides : List BridgeEndpoint × List BridgeEndpoint) :
    findMatches ops threshold embed sides =
      .ok ((offeredPairs ops threshold embed sides).map fuzzyLink) := by
  obtain ⟨vectors, embedded, count⟩ := oneEach (symbolNames sides)
  rw [findMatches, offeredPairs, embedded]
  split
  · rename_i alone
    rw [similarPairs_eq_nil alone]
    rfl
  · have fits : ¬ vectors.length ≠ (symbolNames sides).length := not_not.mpr count
    simp only [bind, Except.bind, if_neg fits, mergeSort_fuzzyLinks, Except.toOption,
      Option.getD_some]

theorem linkWithFallback_eq (oneEach : OneVectorEach embed) :
    linkWithFallback ops chars order order' threshold embed endpoints =
      .ok (link chars order order' endpoints ++ (offeredPairs ops threshold embed
        (collectUnmatched endpoints (link chars order order' endpoints))).map fuzzyLink) := by
  rw [linkWithFallback, findMatches_eq oneEach]
  split
  · rfl
  · rename_i alone
    have empty : ((collectUnmatched endpoints (link chars order order' endpoints)).1.isEmpty ||
        (collectUnmatched endpoints (link chars order order' endpoints)).2.isEmpty) = true := by
      simpa only [Bool.and_eq_true, Bool.not_eq_true', not_and, Bool.not_eq_false,
        Bool.or_eq_true, ← Classical.or_iff_not_imp_left, imp_iff_not_or] using alone
    rw [offeredPairs, similarPairs_eq_nil empty]
    simp [pure, Except.pure]

/-! ## What is left after the linker -/

theorem pairLink_sites {p : BridgeEndpoint × BridgeEndpoint} :
    (pairLink chars p).exported.site = (p.1.filePath, linkedKey chars p, p.1.line) ∧
      (pairLink chars p).imported.site = (p.2.filePath, linkedKey chars p, p.2.line) := by
  rw [pairLink, linkedKey]
  split
  · rename_i keys
    exact ⟨rfl, by rw [keys]; rfl⟩
  · exact ⟨rfl, rfl⟩

theorem mem_matchedSites_iff (ep : BridgeEndpoint) :
    ep.site ∈ matchedSites (link chars order order' endpoints) ↔ Recorded chars endpoints ep := by
  have sites : ep.site ∈ matchedSites (link chars order order' endpoints) ↔
      ∃ p ∈ pairs chars endpoints, ep.site = (pairLink chars p).exported.site ∨
        ep.site = (pairLink chars p).imported.site := by
    simp only [matchedSites, List.mem_flatMap, (link_perm order order').mem_iff, List.mem_map,
      List.mem_cons, List.not_mem_nil, or_false, exists_exists_and_eq_and]
  rw [sites, Recorded]
  refine exists_congr fun p => and_congr_right fun _ => ?_
  rw [pairLink_sites.1, pairLink_sites.2, BridgeEndpoint.site, Prod.mk.injEq, Prod.mk.injEq,
    Prod.mk.injEq, Prod.mk.injEq]
  tauto

theorem collectUnmatched_link :
    collectUnmatched endpoints (link chars order order' endpoints) = unrecorded chars endpoints := by
  have same : (endpoints.filter fun ep =>
      !decide (ep.site ∈ matchedSites (link chars order order' endpoints))) =
      endpoints.filter fun ep => !decide (Recorded chars endpoints ep) := by
    refine List.filter_congr fun ep _ => ?_
    rw [Bool.not_inj_iff, decide_eq_decide, mem_matchedSites_iff]
  rw [collectUnmatched, unrecorded, same]

theorem mem_unrecorded {p : BridgeEndpoint × BridgeEndpoint} {embeddings : List (List F)}
    (offered : p ∈ similarPairs ops threshold (unrecorded chars endpoints) embeddings) :
    (p.1 ∈ endpoints ∧ ¬ Recorded chars endpoints p.1 ∧ p.1.role = .exporting) ∧
      p.2 ∈ endpoints ∧ ¬ Recorded chars endpoints p.2 ∧ p.2.role = .importing := by
  obtain ⟨q, inside, rfl⟩ := List.mem_map.mp offered
  obtain ⟨left, right⟩ := List.mem_product.mp (List.mem_filter.mp inside).1
  obtain ⟨restL, roleL⟩ := List.mem_filter.mp (List.of_mem_zip left).1
  obtain ⟨restR, roleR⟩ := List.mem_filter.mp (List.of_mem_zip right).1
  obtain ⟨listedL, openL⟩ := List.mem_filter.mp restL
  obtain ⟨listedR, openR⟩ := List.mem_filter.mp restR
  rw [Bool.not_eq_true', decide_eq_false_iff_not] at openL openR
  rw [Bool.not_eq_true', isExport_eq_false_iff] at roleR
  exact ⟨⟨listedL, openL, (isExport_iff _).mp roleL⟩, listedR, openR, roleR⟩

/-- Of the endpoints that are not recorded, those that match by case only are the ones that
take part in a link. -/
theorem takesPart_iff_caseMatched {ep : BridgeEndpoint} (listed : ep ∈ endpoints)
    (left : ¬ Recorded chars endpoints ep) :
    TakesPart chars endpoints ep ↔ CaseMatched chars endpoints ep := by
  constructor
  · rintro ⟨⟨e, i⟩, inside, side⟩
    obtain ⟨inE, inI⟩ := List.mem_product.mp (mem_pairs.mp inside).1
    obtain ⟨roleE, roleI, kinds, matches_⟩ : Paired chars endpoints e i := (mem_pairs.mp inside).2
    change e = ep ∨ i = ep at side
    have unseen : ep.bindingKey ≠ linkedKey chars (e, i) := by
      intro key
      rcases side with rfl | rfl
      · exact left ⟨_, inside, key, .inl ⟨rfl, rfl⟩⟩
      · exact left ⟨_, inside, key, .inr ⟨rfl, rfl⟩⟩
    rw [linkedKey] at unseen
    rcases matches_ with keys | ⟨keys, normal, aloneE, aloneI⟩
    · rw [if_pos keys] at unseen
      rcases side with rfl | rfl
      · exact absurd rfl unseen
      · exact absurd keys.symm unseen
    · rw [if_neg keys] at unseen
      rcases side with rfl | rfl
      · exact ⟨unseen.symm, aloneE, i, inI, by simp [roleE, roleI], Ne.symm keys,
          by simp [BridgeEndpoint.normKey, kinds, normal], aloneI⟩
      · exact ⟨fun eq => unseen (normal.trans eq).symm, aloneI, e, inE, by simp [roleE, roleI],
          keys, by simp [BridgeEndpoint.normKey, kinds, normal], aloneE⟩
  · rintro ⟨-, alone, other, inOther, roles, keys, normal, aloneOther⟩
    have kinds : other.kind = ep.kind := congrArg Prod.fst normal
    have normals : chars.normalizeBindingKey other.bindingKey =
        chars.normalizeBindingKey ep.bindingKey := congrArg Prod.snd normal
    cases roleEp : ep.role with
    | exporting =>
        have roleOther : other.role = .importing := by
          cases role : other.role with
          | exporting => exact absurd (role.trans roleEp.symm) roles
          | importing => rfl
        refine ⟨(ep, other), mem_pairs.mpr ⟨List.mem_product.mpr ⟨listed, inOther⟩, ?_⟩, .inl rfl⟩
        exact ⟨roleEp, roleOther, kinds.symm, .inr ⟨Ne.symm keys, normals.symm, alone, aloneOther⟩⟩
    | importing =>
        have roleOther : other.role = .exporting := by
          cases role : other.role with
          | exporting => rfl
          | importing => exact absurd (role.trans roleEp.symm) roles
        refine ⟨(other, ep), mem_pairs.mpr ⟨List.mem_product.mpr ⟨inOther, listed⟩, ?_⟩, .inr rfl⟩
        exact ⟨roleOther, roleEp, kinds, .inr ⟨keys, normals, aloneOther, alone⟩⟩

/-- **The fallback only extends the links exactly when, among the endpoints that are not
recorded, no similar export and import are of two kinds and none of them matches by case
only.** -/
theorem linkWithFallback_extends_iff (oneEach : OneVectorEach embed) :
    Extends ops chars order order' threshold embed endpoints ↔
      ¬ ∃ p ∈ offeredPairs ops threshold embed (unrecorded chars endpoints),
        p.1.kind ≠ p.2.kind ∨ CaseMatched chars endpoints p.1 ∨
          CaseMatched chars endpoints p.2 := by
  rw [Extends, linkWithFallback_eq oneEach, collectUnmatched_link]
  constructor
  · rintro ⟨-, -, sound⟩ ⟨p, offered, wrong⟩
    obtain ⟨⟨inE, openE, -⟩, inI, openI, -⟩ := mem_unrecorded offered
    obtain ⟨-, -, kinds, freeE, freeI⟩ := sound p offered
    rcases wrong with kinds' | caseE | caseI
    · exact kinds' kinds
    · exact freeE ((takesPart_iff_caseMatched inE openE).mpr caseE)
    · exact freeI ((takesPart_iff_caseMatched inI openI).mpr caseI)
  · intro right
    refine ⟨rfl, link_perm order order', fun p offered => ?_⟩
    obtain ⟨⟨inE, openE, roleE⟩, inI, openI, roleI⟩ := mem_unrecorded offered
    refine ⟨roleE, roleI, ?_, fun free => ?_, fun free => ?_⟩
    · by_contra kinds
      exact right ⟨p, offered, .inl kinds⟩
    · exact right ⟨p, offered, .inr (.inl ((takesPart_iff_caseMatched inE openE).mp free))⟩
    · exact right ⟨p, offered, .inr (.inr ((takesPart_iff_caseMatched inI openI).mp free))⟩

end Fallback

/-- Exact arithmetic in place of floating point. -/
def exactFloats : Floats ℚ where
  zero := 0
  add := (· + ·)
  mul := (· * ·)
  div := (· / ·)
  sqrt := Rat.sqrt
  isZero x := decide (x = 0)
  atLeast x y := decide (y ≤ x)

/-- An embedder for which all names mean the same. -/
def identicalEmbedder : Embedder ℚ := fun names => .ok (names.map fun _ => [1, 0, 0])

theorem identicalEmbedder_oneVectorEach : OneVectorEach identicalEmbedder :=
  fun _ => ⟨_, rfl, List.length_map _⟩

/-- Two ends of one command under names of their own: the fallback links them. -/
theorem linkWithFallback_extends_renamed :
    Extends exactFloats .ascii .filled .filled (17 / 20) identicalEmbedder
      [command "greet" .exporting, command "welcome" .importing] :=
  (linkWithFallback_extends_iff identicalEmbedder_oneVectorEach).mpr (by decide +kernel)

/-- A command, its call in camel case, and an export of another kind. -/
def strayExport : List BridgeEndpoint :=
  [command "get_user" .exporting, command "getUser" .importing,
    { command "load" .exporting with kind := .napi }]

/-- The call is linked to its command and then, across the kinds, to the other export. -/
theorem strayExport_linked_twice :
    OneVectorEach identicalEmbedder ∧
      ¬ ∃ order order' : GroupOrder,
        Extends exactFloats .ascii order order' (17 / 20) identicalEmbedder strayExport := by
  refine ⟨identicalEmbedder_oneVectorEach, ?_⟩
  rintro ⟨order, order', -, -, sound⟩
  rw [collectUnmatched_link] at sound
  obtain ⟨-, -, kinds, -⟩ := sound
    ({ command "load" .exporting with kind := .napi }, command "getUser" .importing)
    (by decide +kernel)
  cases kinds

end Ministr.Bridge
