/-
# Content.Distinct — what deduplicating the ids of a document promises

`deduplicate_ids` walks a document in pre-order and gives a section whose id is taken the
first free `id-2`, `id-3`, …, with its claims.  What it leaves behind is distinct, also
for the claims, and `insert_sections_recursive` then stores it row by row under these ids
(`insertSections_eq`): the renaming the store does by itself never happens.

What it does not promise is that the first section of an id keeps it.  The candidates are
compared with the ids seen so far, not with those to come, so `a`, `a`, `a-2` become `a`,
`a-2`, `a-2-2`.  `deduplicateIds_storable` says for which documents the firsts keep their
ids.
-/
import Ministr.Content.Store
import Ministr.Theory.Bytes
import Ministr.Theory.Renaming

namespace Ministr.Content

open Ministr.Theory

set_option autoImplicit false

/-! ## Numbered names -/

/-- The ids `deduplicate_ids` tries. -/
def numberedId (original : String) (n : Nat) : String := original ++ "-" ++ toString n

/-- The ids claims are made with. -/
def claimId (sectionId : String) (i : Nat) : String := sectionId ++ ":c" ++ toString i

theorem notMem_toString {c : Char} (nondigit : c.isDigit = false) (n : Nat) :
    c ∉ (toString n).toList := by
  intro mem
  rw [Nat.toString_eq_repr, Nat.toList_repr] at mem
  rw [Nat.isDigit_of_mem_toDigits (by decide) (by decide) mem] at nondigit
  cases nondigit

/-- A number after a letter can be read back. -/
theorem append_number_inj {c : Char} (nondigit : c.isDigit = false) {a b : List Char} {m n : Nat}
    (same : a ++ c :: (toString m).toList = b ++ c :: (toString n).toList) : a = b ∧ m = n := by
  have turned := congrArg List.reverse same
  simp only [List.reverse_append, List.reverse_cons, List.append_assoc, List.singleton_append]
    at turned
  obtain ⟨numbers, names⟩ := append_cons_inj
    (by simpa using notMem_toString nondigit m) (by simpa using notMem_toString nondigit n) turned
  refine ⟨List.reverse_injective names, ?_⟩
  have digits := List.reverse_injective numbers
  rw [Nat.toString_eq_repr, Nat.toString_eq_repr, Nat.toList_repr, Nat.toList_repr] at digits
  simpa using congrArg (fun ds => Nat.ofDigitChars 10 ds 0) digits

theorem numberedId_inj {a b : String} {m n : Nat} (same : numberedId a m = numberedId b n) :
    a = b ∧ m = n := by
  have text := congrArg String.toList same
  simp only [numberedId, String.toList_append, List.append_assoc] at text
  obtain ⟨names, numbers⟩ := append_number_inj (c := '-') rfl text
  exact ⟨String.toList_injective names, numbers⟩

theorem claimId_inj {a b : String} {m n : Nat} (same : claimId a m = claimId b n) :
    a = b ∧ m = n := by
  have text := congrArg String.toList same
  simp only [claimId, String.toList_append] at text
  obtain ⟨names, numbers⟩ := append_number_inj (c := 'c') (a := a.toList ++ [':'])
    (b := b.toList ++ [':']) rfl (by simpa using text)
  exact ⟨String.toList_injective (List.append_cancel_right names), numbers⟩

/-! ## One section -/

theorem firstFree_spec {seen : List String} {original id : String} {fuel start : Nat}
    (found : firstFree seen original fuel start = some id) :
    ∃ n, start ≤ n ∧ id = numberedId original n ∧ id ∉ seen ∧
      ∀ m, start ≤ m → m < n → numberedId original m ∈ seen := by
  induction fuel generalizing start with
  | zero => cases found
  | succ fuel ih =>
      simp only [firstFree] at found
      split at found
      · rename_i taken
        obtain ⟨n, le, rfl, free, smallest⟩ := ih found
        refine ⟨n, by omega, rfl, free, fun m from' less => ?_⟩
        rcases Nat.eq_or_lt_of_le from' with rfl | later
        · exact taken
        · exact smallest m later less
      · rename_i free
        cases found
        exact ⟨start, Nat.le_refl _, rfl, free, fun m from' less => by omega⟩

/-- With more candidates than ids, one is free. -/
theorem firstFree_isSome {seen : List String} {original : String} {fuel : Nat} (start : Nat)
    (room : seen.length < fuel) : (firstFree seen original fuel start).isSome := by
  induction fuel generalizing seen start with
  | zero => omega
  | succ fuel ih =>
      by_cases taken : numberedId original start ∈ seen
      · have next : firstFree seen original (fuel + 1) start =
            firstFree seen original fuel (start + 1) := if_pos taken
        rw [next]
        -- What is tried from here on does not need the candidate at hand.
        have smaller := @ih (seen.erase (numberedId original start)) (start + 1) (by
          rw [List.length_erase_of_mem taken]
          have := List.length_pos_of_mem taken
          omega)
        have same : ∀ fuel first, start < first →
            firstFree (seen.erase (numberedId original start)) original fuel first =
              firstFree seen original fuel first := by
          intro fuel
          induction fuel with
          | zero => exact fun _ _ => rfl
          | succ fuel ih =>
              intro first later
              have other : numberedId original first ≠ numberedId original start := fun eq => by
                have := (numberedId_inj eq).2
                omega
              simp only [firstFree]
              rw [ih (first + 1) (by omega)]
              exact if_congr (List.mem_erase_of_ne other) rfl rfl
        rwa [same fuel (start + 1) (by omega)] at smaller
      · have here : firstFree seen original (fuel + 1) start =
            some (numberedId original start) := if_neg taken
        rw [here]
        rfl

theorem deduplicate_isSome {seen : List String} (body : SectionBody)
    (room : seen.length < dedupCandidates) : (body.deduplicate seen).isSome := by
  unfold SectionBody.deduplicate
  split
  · rw [Option.isSome_map]
    exact firstFree_isSome 2 room
  · rfl

/-- A claim without its ids. -/
def Claim.anonymous (claim : Claim) : Claim := { claim with id := "", sectionId := "" }

/-- A section without its ids. -/
def SectionBody.anonymous (body : SectionBody) : SectionBody :=
  { body with id := "", claims := body.claims.map Claim.anonymous }

theorem anonymous_rename (body : SectionBody) (id : String) :
    (body.rename id).anonymous = body.anonymous := by
  have same : (body.rename id).claims.map Claim.anonymous = body.claims.map Claim.anonymous := by
    conv_rhs => rw [← List.zipIdx_map_fst 0 body.claims]
    rw [SectionBody.rename, List.map_map, List.map_map]
    rfl
  rw [SectionBody.anonymous, same]
  rfl

theorem deduplicate_cases {seen : List String} {body body' : SectionBody}
    (done : body.deduplicate seen = some body') :
    (body' = body ∧ body.id ∉ seen) ∨
      ∃ n, 2 ≤ n ∧ body.id ∈ seen ∧ body' = body.rename (numberedId body.id n) ∧
        numberedId body.id n ∉ seen ∧ ∀ m, 2 ≤ m → m < n → numberedId body.id m ∈ seen := by
  unfold SectionBody.deduplicate at done
  split at done
  · rename_i taken
    obtain ⟨id, found, rfl⟩ := Option.map_eq_some_iff.mp done
    obtain ⟨n, two, rfl, free, smallest⟩ := firstFree_spec found
    exact .inr ⟨n, two, taken, rfl, free, smallest⟩
  · rename_i free
    cases done
    exact .inl ⟨rfl, free⟩

/-! ## The walk over the document -/

namespace Sections

theorem ids_cons (head : SectionBody) (children rest : Sections) :
    (cons head children rest).ids = head.id :: (children.ids ++ rest.ids) := by
  simp [ids, bodies]

/-- The parts of a walk over a section, its children and what follows. -/
theorem dedup_cons {seen seen' : List String} {head : SectionBody} {children rest out : Sections}
    (done : (cons head children rest).dedup seen = some (out, seen')) :
    ∃ head' children' rest' seen₁, head.deduplicate seen = some head' ∧
      children.dedup (head'.id :: seen) = some (children', seen₁) ∧
      rest.dedup seen₁ = some (rest', seen') ∧ out = cons head' children' rest' := by
  simp only [dedup] at done
  split at done
  · cases done
  rename_i head' named
  split at done
  · cases done
  rename_i children' seen₁ ranChildren
  split at done
  · cases done
  rename_i rest' seen₂ ranRest
  cases done
  exact ⟨head', children', rest', seen₁, named, ranChildren, ranRest, rfl⟩

theorem dedup_seen {seen seen' : List String} {sections out : Sections}
    (done : sections.dedup seen = some (out, seen')) : seen' = out.ids.reverse ++ seen := by
  induction sections generalizing seen seen' out with
  | nil =>
      cases done
      rfl
  | cons head children rest ihChildren ihRest =>
      obtain ⟨head', children', rest', seen₁, -, ranChildren, ranRest, rfl⟩ := dedup_cons done
      rw [ihRest ranRest, ihChildren ranChildren, ids_cons]
      simp

theorem length_ids_dedup {seen seen' : List String} {sections out : Sections}
    (done : sections.dedup seen = some (out, seen')) :
    out.ids.length = sections.ids.length := by
  induction sections generalizing seen seen' out with
  | nil =>
      cases done
      rfl
  | cons head children rest ihChildren ihRest =>
      obtain ⟨head', children', rest', seen₁, -, ranChildren, ranRest, rfl⟩ := dedup_cons done
      simp only [ids_cons, List.length_cons, List.length_append, ihChildren ranChildren,
        ihRest ranRest]

/-- With more candidates than sections the walk gets through. -/
theorem dedup_isSome (sections : Sections) {seen : List String}
    (room : seen.length + sections.ids.length ≤ dedupCandidates) :
    ∃ out seen', sections.dedup seen = some (out, seen') := by
  induction sections generalizing seen with
  | nil => exact ⟨nil, seen, rfl⟩
  | cons head children rest ihChildren ihRest =>
      rw [ids_cons, List.length_cons, List.length_append] at room
      obtain ⟨head', named⟩ := Option.isSome_iff_exists.mp
        (@deduplicate_isSome seen head (by omega))
      obtain ⟨children', seen₁, ranChildren⟩ := @ihChildren (head'.id :: seen)
        (by rw [List.length_cons]; omega)
      have length : seen₁.length = children.ids.length + (seen.length + 1) := by
        rw [dedup_seen ranChildren, List.length_append, List.length_reverse,
          length_ids_dedup ranChildren, List.length_cons]
      obtain ⟨rest', seen₂, ranRest⟩ := @ihRest seen₁ (by omega)
      exact ⟨cons head' children' rest', seen₂, by simp only [dedup, named, ranChildren, ranRest]⟩

/-- The walk renames id by id, in pre-order. -/
theorem dedup_renames {names out₀ seen seen' : List String} {sections out : Sections}
    (before : Renames numberedId names out₀) (same : ∀ id, id ∈ seen ↔ id ∈ out₀)
    (done : sections.dedup seen = some (out, seen')) :
    Renames numberedId (names ++ sections.ids) (out₀ ++ out.ids) := by
  induction sections generalizing names out₀ seen seen' out with
  | nil =>
      cases done
      simpa [ids, bodies] using before
  | cons head children rest ihChildren ihRest =>
      obtain ⟨head', children', rest', seen₁, named, ranChildren, ranRest, rfl⟩ := dedup_cons done
      have first : Renames numberedId (names ++ [head.id]) (out₀ ++ [head'.id]) := by
        rcases deduplicate_cases named with ⟨rfl, free⟩ | ⟨n, two, taken, rfl, free, smallest⟩
        · exact .keep before fun mem => free ((same _).mpr mem)
        · exact .rename before ((same _).mp taken) two (fun mem => free ((same _).mpr mem))
            fun m twoM less => (same _).mp (smallest m twoM less)
      have inner := ihChildren first (fun id => by simp [same, or_comm]) ranChildren
      have outer := ihRest inner (fun id => by
        rw [dedup_seen ranChildren]
        simp only [List.mem_append, List.mem_reverse, List.mem_cons, List.not_mem_nil, or_false,
          same]
        tauto) ranRest
      rw [ids_cons, ids_cons]
      simpa using outer

/-- Distinct ids are left alone. -/
theorem dedup_of_nodup {sections : Sections} {seen : List String} (distinct : sections.ids.Nodup)
    (fresh : ∀ id ∈ sections.ids, id ∉ seen) :
    sections.dedup seen = some (sections, sections.ids.reverse ++ seen) := by
  induction sections generalizing seen with
  | nil => rfl
  | cons head children rest ihChildren ihRest =>
      rw [ids_cons, List.nodup_cons, List.nodup_append] at distinct
      obtain ⟨own, nodupChildren, nodupRest, apart⟩ := distinct
      rw [ids_cons] at fresh ⊢
      have named : head.deduplicate seen = some head :=
        if_neg (fresh head.id List.mem_cons_self)
      have inner := @ihChildren (head.id :: seen) nodupChildren (by
        intro id mem taken
        rcases List.mem_cons.mp taken with rfl | taken
        · exact own (List.mem_append_left _ mem)
        · exact fresh id (List.mem_cons_of_mem _ (List.mem_append_left _ mem)) taken)
      have outer := @ihRest (children.ids.reverse ++ head.id :: seen) nodupRest (by
        intro id mem taken
        rcases List.mem_append.mp taken with taken | taken
        · exact apart id (List.mem_reverse.mp taken) id mem rfl
        rcases List.mem_cons.mp taken with rfl | taken
        · exact own (List.mem_append_right _ mem)
        · exact fresh id (List.mem_cons_of_mem _ (List.mem_append_right _ mem)) taken)
      simp only [dedup, named, inner, outer]
      simp

/-- The walk changes nothing but ids. -/
theorem anonymous_dedup {seen seen' : List String} {sections out : Sections}
    (done : sections.dedup seen = some (out, seen')) :
    out.mapBodies SectionBody.anonymous = sections.mapBodies SectionBody.anonymous := by
  induction sections generalizing seen seen' out with
  | nil =>
      cases done
      rfl
  | cons head children rest ihChildren ihRest =>
      obtain ⟨head', children', rest', seen₁, named, ranChildren, ranRest, rfl⟩ := dedup_cons done
      have same : head'.anonymous = head.anonymous := by
        rcases deduplicate_cases named with ⟨rfl, -⟩ | ⟨n, -, -, rfl, -, -⟩
        · rfl
        · exact anonymous_rename _ _
      rw [mapBodies, mapBodies, same, ihChildren ranChildren, ihRest ranRest]

end Sections

/-! ## Claims -/

/-- The claims are named after their section, in order. -/
def SectionBody.ClaimsNamed (body : SectionBody) : Prop :=
  ∀ i claim, body.claims[i]? = some claim → claim.id = claimId body.id i

theorem SectionBody.rename_claimsNamed (body : SectionBody) (id : String) :
    (body.rename id).ClaimsNamed ∧ ∀ claim ∈ (body.rename id).claims, claim.sectionId = id := by
  constructor
  · intro i claim found
    simp only [SectionBody.rename, List.getElem?_map, Option.map_eq_some_iff,
      List.getElem?_zipIdx] at found
    obtain ⟨⟨old, j⟩, ⟨_, -, eq⟩, rfl⟩ := found
    simp only [Prod.mk.injEq] at eq
    obtain ⟨rfl, rfl⟩ := eq
    simp [claimId, SectionBody.rename]
  · intro claim mem
    simp only [SectionBody.rename, List.mem_map] at mem
    obtain ⟨_, -, rfl⟩ := mem
    rfl

/-- What every section has and every renamed one gets, every section of the result has. -/
theorem Sections.dedup_forall {P : SectionBody → Prop} {seen seen' : List String}
    {sections out : Sections} (done : sections.dedup seen = some (out, seen'))
    (all : ∀ body ∈ sections.bodies, P body) (renamed : ∀ body id, P (SectionBody.rename body id)) :
    ∀ body ∈ out.bodies, P body := by
  induction sections generalizing seen seen' out with
  | nil =>
      cases done
      exact nofun
  | cons head children rest ihChildren ihRest =>
      obtain ⟨head', children', rest', seen₁, named, ranChildren, ranRest, rfl⟩ := dedup_cons done
      simp only [bodies, List.forall_mem_cons, List.forall_mem_append] at all ⊢
      refine ⟨?_, ihChildren ranChildren all.2.1, ihRest ranRest all.2.2⟩
      rcases deduplicate_cases named with ⟨rfl, -⟩ | ⟨n, -, -, rfl, -, -⟩
      · exact all.1
      · exact renamed _ _

/-- The ids of all claims, in pre-order. -/
def claimIds (bodies : List SectionBody) : List String :=
  bodies.flatMap fun body => body.claims.map Claim.id

theorem SectionBody.ClaimsNamed.ids_eq {body : SectionBody} (named : body.ClaimsNamed) :
    body.claims.map Claim.id = (List.range body.claims.length).map (claimId body.id) := by
  refine List.ext_getElem? fun i => ?_
  rw [List.getElem?_map, List.getElem?_map]
  cases found : body.claims[i]? with
  | none =>
      rw [List.getElem?_eq_none_iff] at found
      simp [found]
  | some claim =>
      have bound := (List.getElem?_eq_some_iff.mp found).1
      simp [List.getElem?_range bound, named i claim found]

/-- Claims named after distinct sections are distinct. -/
theorem nodup_claimIds {bodies : List SectionBody} (named : ∀ body ∈ bodies, body.ClaimsNamed)
    (distinct : (bodies.map SectionBody.id).Nodup) : (claimIds bodies).Nodup := by
  rw [claimIds, List.nodup_flatMap]
  refine ⟨fun body mem => ?_, ?_⟩
  · rw [(named body mem).ids_eq]
    exact List.nodup_range.map fun i j same => (claimId_inj same).2
  · refine List.Pairwise.imp_of_mem ?_ (List.pairwise_map.mp distinct)
    intro a b memA memB apart id inA inB
    dsimp only at inA inB
    rw [(named a memA).ids_eq, List.mem_map] at inA
    rw [(named b memB).ids_eq, List.mem_map] at inB
    obtain ⟨i, -, rfl⟩ := inA
    obtain ⟨j, -, same⟩ := inB
    exact apart (claimId_inj same).1.symm

/-! ## Storing -/

namespace ContentStore

/-- The sections one after the other, each under its own id. -/
def insertEach (docId : String) : List SectionBody → InsertState → Except StorageError InsertState
  | [], st => .ok st
  | body :: bodies, st => do
      let st ← insertSection docId body.id body st
      insertEach docId bodies st

theorem insertEach_append (docId : String) (bodies more : List SectionBody) (st : InsertState) :
    insertEach docId (bodies ++ more) st =
      (insertEach docId bodies st >>= insertEach docId more) := by
  induction bodies generalizing st with
  | nil => rfl
  | cons body bodies ih =>
      rw [List.cons_append, insertEach, insertEach]
      cases insertSection docId body.id body st with
      | error e => rfl
      | ok st => exact ih st

theorem insertSection_seen {docId sectionId : String} {body : SectionBody} {st st' : InsertState}
    (done : insertSection docId sectionId body st = .ok st') : st'.seen = sectionId :: st.seen :=
  (insertSection_spec done).2.1

theorem insertEach_seen {docId : String} {bodies : List SectionBody} {st st' : InsertState}
    (done : insertEach docId bodies st = .ok st') :
    st'.seen = (bodies.map SectionBody.id).reverse ++ st.seen := by
  induction bodies generalizing st with
  | nil =>
      cases done
      rfl
  | cons body bodies ih =>
      obtain ⟨st₁, first, rest⟩ := bind_eq_ok.mp done
      rw [ih rest, insertSection_seen first]
      simp

/-- **With distinct ids the store never renames or skips a section.** -/
theorem insertSections_eq {docId : String} {sections : Sections} {st : InsertState}
    (distinct : sections.ids.Nodup) (fresh : ∀ id ∈ sections.ids, id ∉ st.seen) :
    insertSections docId sections st = insertEach docId sections.bodies st := by
  induction sections generalizing st with
  | nil => rfl
  | cons body children rest ihChildren ihRest =>
      rw [Sections.ids_cons, List.nodup_cons, List.nodup_append] at distinct
      obtain ⟨own, nodupChildren, nodupRest, apart⟩ := distinct
      rw [Sections.ids_cons] at fresh
      have named : storedId st body = some body.id := if_neg (fresh body.id List.mem_cons_self)
      rw [insertSections, named, Sections.bodies, insertEach]
      dsimp only
      cases first : insertSection docId body.id body st with
      | error e => rfl
      | ok st₁ =>
          have seen₁ := insertSection_seen first
          have freshChildren : ∀ id ∈ children.ids, id ∉ st₁.seen := by
            intro id mem taken
            rw [seen₁] at taken
            rcases List.mem_cons.mp taken with rfl | taken
            · exact own (List.mem_append_left _ mem)
            · exact fresh id (List.mem_cons_of_mem _ (List.mem_append_left _ mem)) taken
          show (insertSections docId children st₁ >>= insertSections docId rest) =
            insertEach docId (children.bodies ++ rest.bodies) st₁
          rw [insertEach_append, ihChildren nodupChildren freshChildren]
          cases second : insertEach docId children.bodies st₁ with
          | error e => rfl
          | ok st₂ =>
              refine ihRest nodupRest fun id mem taken => ?_
              rw [insertEach_seen second, seen₁] at taken
              rcases List.mem_append.mp taken with taken | taken
              · exact apart id (List.mem_reverse.mp taken) id mem rfl
              rcases List.mem_cons.mp taken with rfl | taken
              · exact own (List.mem_append_right _ mem)
              · exact fresh id (List.mem_cons_of_mem _ (List.mem_append_right _ mem)) taken

/-- The row of a section. -/
def sectionRow (docId : String) (body : SectionBody) (position : Nat) : SectionRow :=
  { documentId := docId, headingPath := body.headingPath, depth := body.depth, text := body.text,
    summary := body.summary, position }

/-- Every section and every claim has its row, and no other row changed. -/
structure StoredEach (docId : String) (bodies : List SectionBody) (st st' : InsertState) : Prop where
  sections : ∀ i body, bodies[i]? = some body →
    st'.sections.lookup body.id = some (sectionRow docId body (st.position + i))
  claims : ∀ body ∈ bodies, ∀ i claim, body.claims[i]? = some claim →
    st'.claims.lookup claim.id = some { sectionId := body.id, text := claim.text, position := i }
  otherSections : ∀ id, id ∉ bodies.map SectionBody.id →
    st'.sections.lookup id = st.sections.lookup id
  otherClaims : ∀ id, id ∉ claimIds bodies → st'.claims.lookup id = st.claims.lookup id
  position : st'.position = st.position + bodies.length

theorem insertClaims_fresh {sectionId : String} {entries : List (Claim × Nat)}
    {rows : Rows String ClaimRow} (distinct : (entries.map fun e => e.1.id).Nodup)
    (fresh : ∀ e ∈ entries, e.1.id ∉ rows) :
    ∃ rows', insertClaims sectionId false rows entries = .ok rows' ∧
      (∀ e ∈ entries, rows'.lookup e.1.id =
        some { sectionId, text := e.1.text, position := e.2 }) ∧
      ∀ id, id ∉ entries.map (fun e => e.1.id) → rows'.lookup id = rows.lookup id := by
  induction entries generalizing rows with
  | nil => exact ⟨rows, rfl, nofun, fun _ _ => rfl⟩
  | cons e entries ih =>
      obtain ⟨claim, position⟩ := e
      rw [List.map_cons, List.nodup_cons] at distinct
      obtain ⟨own, distinct⟩ := distinct
      have free : claim.id ∉ rows := fresh (claim, position) List.mem_cons_self
      obtain ⟨rows', done, stored, others⟩ :=
        @ih (rows.insert claim.id { sectionId, text := claim.text, position }) distinct (by
          intro e mem listed
          rcases (AList.mem_insert _).mp listed with same | listed
          · exact own (same ▸ List.mem_map_of_mem (f := fun e : Claim × Nat => e.1.id) mem)
          · exact fresh e (List.mem_cons_of_mem _ mem) listed)
      refine ⟨rows', ?_, ?_, ?_⟩
      · rw [insertClaims]
        exact (if_neg free).trans done
      · intro e mem
        rcases List.mem_cons.mp mem with rfl | mem
        · rw [others _ own, Rows.lookup_insert_if, if_pos rfl]
        · exact stored e mem
      · intro id absent
        rw [List.map_cons, List.mem_cons, not_or] at absent
        rw [others id absent.2, Rows.lookup_insert_if, if_neg absent.1]

theorem insertSection_fresh {docId : String} {body : SectionBody} {st : InsertState}
    (distinct : (body.claims.map Claim.id).Nodup) (free : body.id ∉ st.sections)
    (freeClaims : ∀ claim ∈ body.claims, claim.id ∉ st.claims) :
    ∃ st', insertSection docId body.id body st = .ok st' ∧ StoredEach docId [body] st st' := by
  have names : (body.claims.zipIdx.map fun e => e.1.id) = body.claims.map Claim.id := by
    conv_rhs => rw [← List.zipIdx_map_fst 0 body.claims, List.map_map]
    rfl
  have listed : ∀ e ∈ body.claims.zipIdx, e.1 ∈ body.claims := fun e mem => by
    rw [List.mem_zipIdx_iff_getElem?] at mem
    exact List.mem_of_getElem? mem
  obtain ⟨rows, done, stored, others⟩ := @insertClaims_fresh body.id body.claims.zipIdx st.claims
    (names ▸ distinct) fun e mem => freeClaims _ (listed e mem)
  refine ⟨_, by simp only [insertSection, if_neg free, ne_eq, not_true_eq_false, decide_false, done]; rfl,
    ?_, ?_, ?_, ?_, rfl⟩
  · intro i only found
    rw [List.getElem?_singleton] at found
    split at found
    · rename_i zero
      cases found
      subst zero
      rw [Rows.lookup_insert_if, if_pos rfl]
      rfl
    · cases found
  · intro only mem i claim found
    obtain rfl := List.mem_singleton.mp mem
    exact stored (claim, i) (List.mem_zipIdx_iff_getElem?.mpr found)
  · intro id absent
    rw [Rows.lookup_insert_if, if_neg (by simpa using absent)]
  · intro id absent
    refine others id ?_
    rw [names]
    simpa [claimIds] using absent

/-- Into tables without these ids, everything is stored. -/
theorem insertEach_fresh {docId : String} {bodies : List SectionBody} {st : InsertState}
    (distinct : (bodies.map SectionBody.id).Nodup) (distinctClaims : (claimIds bodies).Nodup)
    (free : ∀ id ∈ bodies.map SectionBody.id, id ∉ st.sections)
    (freeClaims : ∀ id ∈ claimIds bodies, id ∉ st.claims) :
    ∃ st', insertEach docId bodies st = .ok st' ∧ StoredEach docId bodies st st' := by
  induction bodies generalizing st with
  | nil => exact ⟨st, rfl, nofun, nofun, fun _ _ => rfl, fun _ _ => rfl, rfl⟩
  | cons body bodies ih =>
      have claimsHere : claimIds (body :: bodies) = body.claims.map Claim.id ++ claimIds bodies := by
        rw [claimIds, List.flatMap_cons, claimIds]
      rw [List.map_cons, List.nodup_cons] at distinct
      rw [claimsHere, List.nodup_append] at distinctClaims
      obtain ⟨own, distinct⟩ := distinct
      obtain ⟨ownClaims, laterClaims, apart⟩ := distinctClaims
      rw [claimsHere] at freeClaims
      obtain ⟨st₁, first, stored₁⟩ := @insertSection_fresh docId body st ownClaims
        (free body.id List.mem_cons_self) fun claim mem =>
          freeClaims claim.id (List.mem_append_left _ (List.mem_map_of_mem mem))
      have outside : ∀ id ∈ bodies.map SectionBody.id, id ∉ [body].map SectionBody.id := by
        intro id mem here
        rw [List.map_singleton, List.mem_singleton] at here
        exact own (here ▸ mem)
      have outsideClaims : ∀ id ∈ claimIds bodies, id ∉ claimIds [body] := by
        intro id mem here
        rw [claimIds, List.flatMap_singleton] at here
        exact apart id here id mem rfl
      obtain ⟨st', rest, stored⟩ := @ih st₁ distinct laterClaims
        (fun id mem listed => free id (List.mem_cons_of_mem _ mem) (by
          rw [Rows.mem_iff_lookup, stored₁.otherSections id (outside id mem)] at listed
          exact (Rows.mem_iff_lookup _ _).mpr listed))
        (fun id mem listed => freeClaims id (List.mem_append_right _ mem) (by
          rw [Rows.mem_iff_lookup, stored₁.otherClaims id (outsideClaims id mem)] at listed
          exact (Rows.mem_iff_lookup _ _).mpr listed))
      refine ⟨st', bind_eq_ok.mpr ⟨st₁, first, rest⟩, ?_, ?_, ?_, ?_, ?_⟩
      · intro i other found
        cases i with
        | zero =>
            cases found
            rw [stored.otherSections _ own]
            exact stored₁.sections 0 body rfl
        | succ i =>
            rw [stored.sections i other found, stored₁.position]
            congr 2
            show st.position + 1 + i = _
            omega
      · intro other mem i claim found
        rcases List.mem_cons.mp mem with rfl | mem
        · have here : claim.id ∈ other.claims.map Claim.id :=
            List.mem_map_of_mem (List.mem_of_getElem? found)
          rw [stored.otherClaims _ fun later => apart _ here _ later rfl]
          exact stored₁.claims other (List.mem_singleton_self _) i claim found
        · exact stored.claims other mem i claim found
      · intro id absent
        rw [List.map_cons, List.mem_cons, not_or] at absent
        rw [stored.otherSections id absent.2, stored₁.otherSections id (by simpa using absent.1)]
      · intro id absent
        rw [claimsHere, List.mem_append, not_or] at absent
        rw [stored.otherClaims id absent.2,
          stored₁.otherClaims id (by simpa [claimIds] using absent.1)]
      · rw [stored.position, stored₁.position]
        simp only [List.length_cons, List.length_nil]
        omega

end ContentStore

/-! ## The document as a whole -/

/-- What `deduplicate_ids` is for: distinct ids that the store can take over. -/
structure Deduplicated (doc doc' : DocumentTree) : Prop where
  ids : doc'.sections.ids.Nodup
  claims : (claimIds doc'.sections.bodies).Nodup
  named : ∀ body ∈ doc'.sections.bodies, body.ClaimsNamed
  owned : (∀ body ∈ doc.sections.bodies, ∀ claim ∈ body.claims, claim.sectionId = body.id) →
    ∀ body ∈ doc'.sections.bodies, ∀ claim ∈ body.claims, claim.sectionId = body.id
  firsts : ∀ i body, doc.sections.bodies[i]? = some body → body.id ∉ doc.sections.ids.take i →
    doc'.sections.bodies[i]? = some body
  onlyIds : doc'.sections.mapBodies SectionBody.anonymous =
      doc.sections.mapBodies SectionBody.anonymous ∧
    { doc' with sections := doc.sections } = doc
  again : doc'.deduplicateIds = some doc'
  stored : ∀ (docId : String) (st : ContentStore.InsertState), st.seen = [] → st.position = 0 →
    ContentStore.insertSections docId doc'.sections st =
        ContentStore.insertEach docId doc'.sections.bodies st ∧
      ((∀ id ∈ doc'.sections.ids, id ∉ st.sections) →
        (∀ id ∈ claimIds doc'.sections.bodies, id ∉ st.claims) →
          ∃ st', ContentStore.insertSections docId doc'.sections st = .ok st' ∧
            ContentStore.StoredEach docId doc'.sections.bodies st st')

section Document

variable {doc doc' : DocumentTree}

theorem deduplicateIds_eq_some (done : doc.deduplicateIds = some doc') :
    ∃ seen, doc.sections.dedup [] = some (doc'.sections, seen) ∧
      doc' = { doc with sections := doc'.sections } := by
  obtain ⟨⟨sections, seen⟩, ran, rfl⟩ := Option.map_eq_some_iff.mp done
  exact ⟨seen, ran, rfl⟩

theorem dedup_renames_ids (done : doc.deduplicateIds = some doc') :
    Renames numberedId doc.sections.ids doc'.sections.ids := by
  obtain ⟨seen, ran, -⟩ := deduplicateIds_eq_some done
  simpa using Sections.dedup_renames .nil (fun _ => Iff.rfl) ran

/-- A section is left alone or gets a new id. -/
theorem dedup_bodies {seen seen' : List String} {sections out : Sections}
    (done : sections.dedup seen = some (out, seen')) :
    List.Forall₂ (fun body body' => body' = body ∨ body'.id ≠ body.id)
      sections.bodies out.bodies := by
  induction sections generalizing seen seen' out with
  | nil =>
      cases done
      exact .nil
  | cons head children rest ihChildren ihRest =>
      obtain ⟨head', children', rest', seen₁, named, ranChildren, ranRest, rfl⟩ :=
        Sections.dedup_cons done
      refine .cons ?_ (List.rel_append (ihChildren ranChildren) (ihRest ranRest))
      rcases deduplicate_cases named with ⟨rfl, -⟩ | ⟨n, -, taken, rfl, free, -⟩
      · exact .inl rfl
      · refine .inr fun same => free ?_
        change numberedId head.id n = head.id at same
        rw [same]
        exact taken

/-- The firsts keep their ids exactly when they are kept as a whole. -/
theorem firsts_iff (done : doc.deduplicateIds = some doc') :
    (∀ i body, doc.sections.bodies[i]? = some body → body.id ∉ doc.sections.ids.take i →
        doc'.sections.bodies[i]? = some body) ↔
      FirstsKept doc.sections.ids doc'.sections.ids := by
  obtain ⟨seen, ran, -⟩ := deduplicateIds_eq_some done
  have bodies := dedup_bodies ran
  constructor
  · intro firsts i id found fresh
    rw [Sections.ids, List.getElem?_map, Option.map_eq_some_iff] at found
    obtain ⟨body, found, rfl⟩ := found
    rw [Sections.ids, List.getElem?_map, firsts i body found fresh, Option.map_some]
  · intro kept i body found fresh
    have same := kept i body.id (by rw [Sections.ids, List.getElem?_map, found, Option.map_some]) fresh
    rw [Sections.ids, List.getElem?_map, Option.map_eq_some_iff] at same
    obtain ⟨body', found', sameId⟩ := same
    obtain ⟨bound, rfl⟩ := List.getElem?_eq_some_iff.mp found
    obtain ⟨bound', rfl⟩ := List.getElem?_eq_some_iff.mp found'
    rcases bodies.get bound bound' with whole | other
    · rw [found']
      exact congrArg some whole
    · exact absurd sameId other

theorem Deduplicated.roomy (done : doc.deduplicateIds = some doc')
    (deduplicated : Deduplicated doc doc') : Roomy numberedId doc.sections.ids :=
  (firstsKept_iff numberedId_inj (dedup_renames_ids done)).mp
    ((firsts_iff done).mp deduplicated.firsts)

end Document

/-- **Deduplicated ids are distinct and storable, and the firsts keep theirs exactly when no
id is used up before it occurs**: for the first `base-n`, the sections named `base` before
it are no more than the numbers from 2 to `n` that no id before it carries. -/
theorem deduplicateIds_storable (doc : DocumentTree)
    (named : ∀ body ∈ doc.sections.bodies, body.ClaimsNamed)
    (fits : doc.sections.ids.length ≤ dedupCandidates) :
    (∃ doc', doc.deduplicateIds = some doc' ∧ Deduplicated doc doc') ↔
      Roomy numberedId doc.sections.ids := by
  constructor
  · rintro ⟨doc', done, deduplicated⟩
    exact deduplicated.roomy done
  · intro roomy
    obtain ⟨out, seen, ran⟩ := @Sections.dedup_isSome doc.sections [] (by simpa using fits)
    have done : doc.deduplicateIds = some { doc with sections := out } := by
      rw [DocumentTree.deduplicateIds, ran, Option.map_some]
    have distinct : out.ids.Nodup := (Sections.dedup_ids ran).1
    have renamed := Sections.dedup_forall ran named
      fun body id => (SectionBody.rename_claimsNamed body id).1
    have claims : (claimIds out.bodies).Nodup := nodup_claimIds renamed distinct
    refine ⟨_, done, distinct, claims, renamed, ?_, ?_, ⟨Sections.anonymous_dedup ran, rfl⟩, ?_, ?_⟩
    · intro owned
      exact Sections.dedup_forall ran owned fun body id => (SectionBody.rename_claimsNamed body id).2
    · rw [firsts_iff done]
      exact (firstsKept_iff numberedId_inj (dedup_renames_ids done)).mpr roomy
    · rw [DocumentTree.deduplicateIds, Sections.dedup_of_nodup distinct (fun _ _ => List.not_mem_nil),
        Option.map_some]
    · intro docId st start _
      have plain := @ContentStore.insertSections_eq docId out st distinct
        (fun id _ taken => by rw [start] at taken; cases taken)
      refine ⟨plain, fun free freeClaims => ?_⟩
      rw [plain]
      exact ContentStore.insertEach_fresh distinct claims free freeClaims

/-! ### Two headings of one name, and a third that looks like a number -/

def oneClaim (id : String) (text : String) : SectionBody :=
  { id, headingPath := ["Foo"], depth := 1, text, claims := [⟨claimId id 0, text, id⟩],
    summary := none }

/-- `# Foo`, `# Foo` and `# Foo 2`. -/
def thirdFoo : DocumentTree :=
  { id := "guide.md", title := "Foo", sourcePath := "guide.md", summary := none,
    sections := .cons (oneClaim "guide.md#foo" "One.") .nil
      (.cons (oneClaim "guide.md#foo" "Two.") .nil
        (.cons (oneClaim "guide.md#foo-2" "Three.") .nil .nil)) }

theorem thirdFoo_claimsNamed : ∀ body ∈ thirdFoo.sections.bodies, body.ClaimsNamed := by
  have one : ∀ id text, (oneClaim id text).ClaimsNamed := by
    intro id text i claim found
    obtain ⟨bound, rfl⟩ := List.getElem?_eq_some_iff.mp found
    obtain rfl : i = 0 := Nat.lt_one_iff.mp bound
    rfl
  simp [thirdFoo, Sections.bodies, one]

theorem deduplicateIds_storable_thirdFoo :
    (∀ body ∈ thirdFoo.sections.bodies, body.ClaimsNamed) ∧
      thirdFoo.sections.ids.length ≤ dedupCandidates ∧
      ((∃ doc', thirdFoo.deduplicateIds = some doc' ∧ Deduplicated thirdFoo doc') ↔
        Roomy numberedId thirdFoo.sections.ids) :=
  ⟨thirdFoo_claimsNamed, by decide,
    deduplicateIds_storable thirdFoo thirdFoo_claimsNamed (by decide)⟩

/-- `# Foo 2` loses its id to the second `# Foo`. -/
theorem thirdFoo_renamed :
    ¬ ∀ doc : DocumentTree, (∀ body ∈ doc.sections.bodies, body.ClaimsNamed) →
      doc.sections.ids.length ≤ dedupCandidates →
        ∃ doc', doc.deduplicateIds = some doc' ∧ Deduplicated doc doc' := by
  intro all
  obtain ⟨doc', done, deduplicated⟩ := all thirdFoo thirdFoo_claimsNamed (by decide)
  have room := deduplicated.roomy done 2 "guide.md#foo-2" rfl (by decide) "guide.md#foo" 2 rfl
    (Nat.le_refl 2)
  exact absurd room (by decide)

end Ministr.Content
