/-
# Index.CacheTokenSound — when an accepted dump is what a rebuild would make

The invariant of a serving process has two halves.  In memory: the mutations in
flight touch disjoint ids, the ids none of them touches agree between the index
and the rows, and each mutation will leave its own ids agreeing once what is left
of it is done (`Mutation.Completes`).  On disk: whoever holds a fingerprint that
is or will become the token vouches for the dump (`Vouched`) — the fingerprint is
of a past generation, or, as long as no mutation in flight has touched a row or
seen a dump, the dump is fresh.

A bump makes every fingerprint held so far a past one, so a mutation that runs to
its end never leaves a stale token behind.  A crash ends the mutations without the
bump; that is the case the condition has to exclude.
-/
import Ministr.Index.CacheToken

namespace Ministr.Index

open Ministr.Theory

set_option autoImplicit false

/-! ## Writes, read at one id -/

section Writes

variable {ι α : Type} [DecidableEq ι] [Component α]

theorem lookup_indexWrite_ne (live : VectorMap ι α) (w : Write ι α) {id : ι} (other : id ≠ w.1) :
    (indexWrite live w).lookup id = live.lookup id := by
  unfold indexWrite
  split
  · rw [VectorMap.lookup_put, if_neg fun h => other h.1]
  · rw [Rows.lookup_erase_if, if_neg other]

omit [Component α] in
theorem lookup_rowWrite_ne (rows : Rows ι (List α)) (w : Write ι α) {id : ι} (other : id ≠ w.1) :
    (rowWrite rows w).lookup id = rows.lookup id := by
  unfold rowWrite
  split
  · rw [Rows.lookup_insert_if, if_neg other]
  · rw [Rows.lookup_erase_if, if_neg other]

/-- What the writes leave at an id depends on what was there. -/
theorem lookup_indexWrites_congr {live live' : VectorMap ι α} {id : ι}
    (same : live.lookup id = live'.lookup id) (ws : List (Write ι α)) :
    (ws.foldl indexWrite live).lookup id = (ws.foldl indexWrite live').lookup id := by
  induction ws generalizing live live' with
  | nil => exact same
  | cons w ws ih =>
      apply ih
      unfold indexWrite
      split
      · rw [VectorMap.lookup_put, VectorMap.lookup_put, same]
      · rw [Rows.lookup_erase_if, Rows.lookup_erase_if, same]

omit [Component α] in
theorem lookup_rowWrites_congr {rows rows' : Rows ι (List α)} {id : ι}
    (same : rows.lookup id = rows'.lookup id) (ws : List (Write ι α)) :
    (ws.foldl rowWrite rows).lookup id = (ws.foldl rowWrite rows').lookup id := by
  induction ws generalizing rows rows' with
  | nil => exact same
  | cons w ws ih =>
      apply ih
      unfold rowWrite
      split
      · rw [Rows.lookup_insert_if, Rows.lookup_insert_if, same]
      · rw [Rows.lookup_erase_if, Rows.lookup_erase_if, same]

/-- All of a call's writes, on the index. -/
theorem foldl_indexWrite_writes (live : VectorMap ι α) (call : VectorCall ι α) :
    call.writes.foldl indexWrite live =
      match call with
      | .embedChunk entries => live.putAll entries
      | .deleteDocument removedVids => live.eraseAll removedVids := by
  cases call with
  | embedChunk entries =>
      simp only [VectorCall.writes, List.foldl_map]
      induction entries generalizing live with
      | nil => rfl
      | cons e entries ih => rw [List.foldl_cons, ih, VectorMap.putAll_cons]; rfl
  | deleteDocument ids => simp only [VectorCall.writes, List.foldl_map]; rfl

omit [Component α] in
/-- All of a call's writes, on the rows. -/
theorem foldl_rowWrite_writes (rows : Rows ι (List α)) (call : VectorCall ι α) :
    call.writes.foldl rowWrite rows =
      match call with
      | .embedChunk entries => rows.upsertAll entries
      | .deleteDocument removedVids => rows.eraseAll removedVids := by
  cases call with
  | embedChunk entries => simp only [VectorCall.writes, List.foldl_map]; rfl
  | deleteDocument ids => simp only [VectorCall.writes, List.foldl_map]; rfl

end Writes

/-! ## The invariant -/

section Invariant

variable {ι α : Type} [DecidableEq ι] [Component α]

/-- What the index should have under an id, given the rows. -/
def expected (rows : Rows ι (List α)) (id : ι) : Option (List α) :=
  (rows.lookup id).filter fun v => !degenerate v

/-- The call does its writes from the front, and what is left of it makes its ids
agree. -/
structure Mutation.Completes (j : Mutation ι α) (live : VectorMap ι α) (rows : Rows ι (List α)) :
    Prop where
  toIndex : j.toIndex <:+ j.writes
  toRows : j.toRows <:+ j.writes
  agrees : ∀ id ∈ j.ids,
    (j.toIndex.foldl indexWrite live).lookup id = expected (j.toRows.foldl rowWrite rows) id

/-- No mutation in flight has touched a row or seen a dump. -/
def AllPristine (mutations : Rows Nat (Mutation ι α)) : Prop :=
  ∀ task j, mutations.lookup task = some j → j.Pristine

/-- The fingerprint may stand beside the dump: it is of a past generation, or the
dump is fresh unless a mutation in flight has begun to show. -/
structure Vouched (store : VectorStore ι α) (dump : Option (VectorMap ι α))
    (mutations : Rows Nat (Mutation ι α)) (fp : VectorFingerprint) : Prop where
  past : fp.generation ≤ store.generation
  fresh : fp = store.fingerprint → AllPristine mutations →
    ∀ cached, dump = some cached → Fresh cached store

/-- The invariant of a serving process. -/
structure Serving (s : Machine ι α) (live : VectorMap ι α) (mutations : Rows Nat (Mutation ι α))
    (persists : Rows Nat PersistCall) : Prop where
  disjoint : ∀ task task' j j', mutations.lookup task = some j → mutations.lookup task' = some j' →
    task ≠ task' → ∀ id ∈ j.ids, id ∉ j'.ids
  completes : ∀ task j, mutations.lookup task = some j → j.Completes live s.store.rows
  untouched : ∀ id, (∀ task j, mutations.lookup task = some j → id ∉ j.ids) →
    live.lookup id = expected s.store.rows id
  token : ∀ fp, s.token = some fp → Vouched s.store s.dump mutations fp
  persistPast : ∀ task p g, persists.lookup task = some p → p.generation = some g →
    g ≤ s.store.generation
  pending : ∀ task count g, persists.lookup task = some ⟨count, some g, true⟩ →
    Vouched s.store s.dump mutations ⟨count, g⟩

/-- The token is of a generation the store has reached. -/
def TokenPast (s : Machine ι α) : Prop :=
  ∀ fp, s.token = some fp → fp.generation ≤ s.store.generation

/-- Whatever a restart would accept is fresh. -/
def AcceptsFresh (s : Machine ι α) : Prop :=
  ∀ cached, s.accepts = some cached → Fresh cached s.store

def Machine.Inv (s : Machine ι α) : Prop :=
  match s.process with
  | .down => TokenPast s ∧ AcceptsFresh s
  | .booting rebuilt fp swapped =>
      TokenPast s ∧ AcceptsFresh s ∧ Fresh rebuilt s.store ∧ fp = s.store.fingerprint ∧
        (swapped = true → s.dump = some rebuilt)
  | .up live mutations persists => Serving s live mutations persists

theorem fresh_iff_expected (m : VectorMap ι α) (store : VectorStore ι α) :
    Fresh m store ↔ ∀ id, m.lookup id = expected store.rows id := by
  unfold Fresh expected
  simp only [lookup_acceptedRows]

/-- With no mutation in flight the live index is fresh. -/
theorem Serving.live_fresh {s : Machine ι α} {live : VectorMap ι α}
    {mutations : Rows Nat (Mutation ι α)} {persists : Rows Nat PersistCall}
    (inv : Serving s live mutations persists) (idle : ∀ task, mutations.lookup task = none) :
    Fresh live s.store := by
  rw [fresh_iff_expected]
  intro id
  refine inv.untouched id fun task j found => ?_
  rw [idle task] at found
  cases found

/-- A process that starts with a fresh index and nothing in flight. -/
theorem serving_start {s : Machine ι α} {live : VectorMap ι α} (fresh : Fresh live s.store)
    (token : ∀ fp, s.token = some fp → Vouched s.store s.dump ∅ fp) : Serving s live ∅ ∅ := by
  refine ⟨?_, ?_, fun id _ => (fresh_iff_expected live s.store).mp fresh id, token, ?_, ?_⟩ <;>
    simp

/-! ## A mutation's steps -/

variable {s : Machine ι α} {live : VectorMap ι α} {mutations : Rows Nat (Mutation ι α)}
variable {persists : Rows Nat PersistCall}

omit [Component α] [DecidableEq ι] in
theorem AllPristine.of_insert {task : Nat} {j : Mutation ι α}
    (pristine : AllPristine (mutations.insert task j))
    (was : ∀ old, mutations.lookup task = some old → j.Pristine → old.Pristine) :
    AllPristine mutations := by
  intro task' old found
  by_cases same : task' = task
  · subst same
    exact was old found (pristine task' j (by rw [Rows.lookup_insert_if, if_pos rfl]))
  · exact pristine task' old (by rw [Rows.lookup_insert_if, if_neg same]; exact found)

/-- Replacing a mutation in flight by one with the same writes keeps the ids
apart. -/
theorem Serving.disjoint_replace (inv : Serving s live mutations persists) {task : Nat}
    {j j₁ : Mutation ι α} (found : mutations.lookup task = some j) (same : j₁.writes = j.writes) :
    ∀ t t' a b, (mutations.insert task j₁).lookup t = some a →
      (mutations.insert task j₁).lookup t' = some b → t ≠ t' → ∀ id ∈ a.ids, id ∉ b.ids := by
  have ids : j₁.ids = j.ids := congrArg (List.map Prod.fst) same
  intro t t' a b foundA foundB ne id mem
  rw [Rows.lookup_insert_if] at foundA foundB
  by_cases hereA : t = task
  · by_cases hereB : t' = task
    · exact absurd (hereA.trans hereB.symm) ne
    · rw [if_pos hereA] at foundA
      rw [if_neg hereB] at foundB
      cases foundA
      rw [ids] at mem
      exact inv.disjoint task t' j b found foundB (Ne.symm hereB) id mem
  · rw [if_neg hereA] at foundA
    by_cases hereB : t' = task
    · rw [if_pos hereB] at foundB
      cases foundB
      rw [ids]
      exact inv.disjoint t task a j foundA found hereA id mem
    · rw [if_neg hereB] at foundB
      exact inv.disjoint t t' a b foundA foundB ne id mem

omit [DecidableEq ι] [Component α] in
/-- The ids no mutation touches are the same after such a replacement. -/
theorem untouched_replace {task : Nat} {j : Mutation ι α} (j₁ : Mutation ι α) {id : ι}
    (found : mutations.lookup task = some j) (same : j₁.writes = j.writes)
    (free : ∀ t a, (mutations.insert task j₁).lookup t = some a → id ∉ a.ids) :
    ∀ t a, mutations.lookup t = some a → id ∉ a.ids := by
  intro t a foundA
  by_cases here : t = task
  · subst here
    rw [found] at foundA
    cases foundA
    have ids : j₁.ids = j.ids := congrArg (List.map Prod.fst) same
    rw [← ids]
    exact free t j₁ (by rw [Rows.lookup_insert_if, if_pos rfl])
  · exact free t a (by rw [Rows.lookup_insert_if, if_neg here]; exact foundA)

/-- A call begins: its ids agree before it, so they will agree after it. -/
theorem Serving.begin {task : Nat} {call : VectorCall ι α}
    (inv : Serving s live mutations persists) (new : task ∉ mutations)
    (undisturbed : Undisturbed mutations call) (keeps : KeepsLive live call) :
    Serving { s with process := .up live (mutations.insert task (.begin call.writes)) persists }
      live (mutations.insert task (.begin call.writes)) persists := by
  have none : mutations.lookup task = none := by
    rw [AList.lookup_eq_none]
    exact new
  have weaker : AllPristine (mutations.insert task (.begin call.writes)) → AllPristine mutations :=
    fun pristine => pristine.of_insert fun old found => by rw [none] at found; cases found
  have agreed : ∀ id ∈ call.writes.map Prod.fst, live.lookup id = expected s.store.rows id :=
    fun id mem => inv.untouched id fun t j found clash => undisturbed t j found id clash mem
  refine ⟨fun t t' a b foundA foundB ne id memA => ?_, fun t a foundA => ?_, fun id free => ?_,
    fun fp held => ?_, inv.persistPast, fun t count g held => ?_⟩
  · rw [Rows.lookup_insert_if] at foundA foundB
    by_cases hereA : t = task
    · by_cases hereB : t' = task
      · exact absurd (hereA.trans hereB.symm) ne
      · rw [if_pos hereA] at foundA
        rw [if_neg hereB] at foundB
        cases foundA
        exact fun memB => undisturbed t' b foundB id memB memA
    · rw [if_neg hereA] at foundA
      by_cases hereB : t' = task
      · rw [if_pos hereB] at foundB
        cases foundB
        exact undisturbed t a foundA id memA
      · rw [if_neg hereB] at foundB
        exact inv.disjoint t t' a b foundA foundB ne id memA
  · rw [Rows.lookup_insert_if] at foundA
    by_cases here : t = task
    · rw [if_pos here] at foundA
      cases foundA
      refine ⟨List.suffix_refl _, List.suffix_refl _, fun id mem => ?_⟩
      have before := agreed id mem
      simp only [Mutation.begin]
      rw [foldl_indexWrite_writes, foldl_rowWrite_writes]
      cases call with
      | embedChunk entries => exact (batch_agrees_iff entries id before).mpr (keeps id)
      | deleteDocument ids =>
          simp only [expected, Rows.lookup_eraseAll]
          split
          · rfl
          · exact before
    · rw [if_neg here] at foundA
      exact inv.completes t a foundA
  · refine inv.untouched id fun t a foundA => free t a ?_
    rw [Rows.lookup_insert_if, if_neg fun same => by rw [same, none] at foundA; cases foundA]
    exact foundA
  · exact ⟨(inv.token fp held).past, fun same pristine =>
      (inv.token fp held).fresh same (weaker pristine)⟩
  · exact ⟨(inv.pending t count g held).past, fun same pristine =>
      (inv.pending t count g held).fresh same (weaker pristine)⟩

/-- One index write: only ids of its own call change. -/
theorem Serving.indexStep {task : Nat} {j : Mutation ι α} {w : Write ι α} {rest : List (Write ι α)}
    (inv : Serving s live mutations persists) (found : mutations.lookup task = some j)
    (next : j.toIndex = w :: rest) :
    Serving
      { s with process := .up (indexWrite live w) (mutations.insert task { j with toIndex := rest }) persists }
      (indexWrite live w) (mutations.insert task { j with toIndex := rest }) persists := by
  have own := inv.completes task j found
  have mine : w.1 ∈ j.ids :=
    List.mem_map_of_mem (own.toIndex.subset (by rw [next]; exact List.mem_cons_self))
  have weaker : AllPristine (mutations.insert task { j with toIndex := rest }) →
      AllPristine mutations := fun pristine => pristine.of_insert fun old found' now => by
    rw [found] at found'
    cases found'
    exact now
  refine ⟨inv.disjoint_replace found rfl, fun t a foundA => ?_, fun id free => ?_, fun fp held => ?_,
    inv.persistPast, fun t count g held => ?_⟩
  · rw [Rows.lookup_insert_if] at foundA
    by_cases here : t = task
    · rw [if_pos here] at foundA
      cases foundA
      refine ⟨(List.suffix_cons w rest).trans (next ▸ own.toIndex), own.toRows, fun id mem => ?_⟩
      have := own.agrees id mem
      rw [next] at this
      exact this
    · rw [if_neg here] at foundA
      have other := inv.completes t a foundA
      refine ⟨other.toIndex, other.toRows, fun id mem => ?_⟩
      have apart : id ≠ w.1 := fun same =>
        inv.disjoint t task a j foundA found here id mem (same ▸ mine)
      rw [lookup_indexWrites_congr (lookup_indexWrite_ne live w apart)]
      exact other.agrees id mem
  · have free' := untouched_replace { j with toIndex := rest } found rfl free
    have apart : id ≠ w.1 := fun same => free' task j found (same ▸ mine)
    rw [lookup_indexWrite_ne live w apart]
    exact inv.untouched id free'
  · exact ⟨(inv.token fp held).past, fun same pristine =>
      (inv.token fp held).fresh same (weaker pristine)⟩
  · exact ⟨(inv.pending t count g held).past, fun same pristine =>
      (inv.pending t count g held).fresh same (weaker pristine)⟩

/-- One row write: from here on its call shows, so nothing is vouched for. -/
theorem Serving.rowStep {task : Nat} {j : Mutation ι α} {w : Write ι α} {rest : List (Write ι α)}
    (inv : Serving s live mutations persists) (found : mutations.lookup task = some j)
    (next : j.toRows = w :: rest) :
    Serving
      { s with
        store := { s.store with rows := rowWrite s.store.rows w }
        process := .up live (mutations.insert task { j with toRows := rest }) persists }
      live (mutations.insert task { j with toRows := rest }) persists := by
  have own := inv.completes task j found
  have mine : w.1 ∈ j.ids :=
    List.mem_map_of_mem (own.toRows.subset (by rw [next]; exact List.mem_cons_self))
  have shows_ : ¬ AllPristine (mutations.insert task { j with toRows := rest }) := by
    intro pristine
    have now := (pristine task { j with toRows := rest }
      (by rw [Rows.lookup_insert_if, if_pos rfl])).1
    have bound := own.toRows.length_le
    rw [next, List.length_cons] at bound
    simp only at now
    omega
  refine ⟨inv.disjoint_replace found rfl, fun t a foundA => ?_, fun id free => ?_, fun fp held => ?_,
    inv.persistPast, fun t count g held => ?_⟩
  · rw [Rows.lookup_insert_if] at foundA
    by_cases here : t = task
    · rw [if_pos here] at foundA
      cases foundA
      refine ⟨own.toIndex, (List.suffix_cons w rest).trans (next ▸ own.toRows), fun id mem => ?_⟩
      have := own.agrees id mem
      rw [next] at this
      exact this
    · rw [if_neg here] at foundA
      have other := inv.completes t a foundA
      refine ⟨other.toIndex, other.toRows, fun id mem => ?_⟩
      have apart : id ≠ w.1 := fun same =>
        inv.disjoint t task a j foundA found here id mem (same ▸ mine)
      rw [other.agrees id mem]
      simp only [expected]
      rw [lookup_rowWrites_congr (lookup_rowWrite_ne s.store.rows w apart)]
  · have free' := untouched_replace { j with toRows := rest } found rfl free
    rw [inv.untouched id free']
    simp only [expected]
    have apart : id ≠ w.1 := fun same => free' task j found (same ▸ mine)
    rw [lookup_rowWrite_ne s.store.rows w apart]
  · exact ⟨(inv.token fp held).past, fun _ pristine => absurd pristine shows_⟩
  · exact ⟨(inv.pending t count g held).past, fun _ pristine => absurd pristine shows_⟩

omit [Component α] in
/-- A bump makes every fingerprint held so far a past one. -/
theorem Vouched.bump {store : VectorStore ι α} {dump : Option (VectorMap ι α)}
    [Component α] {mutations mutations' : Rows Nat (Mutation ι α)} {fp : VectorFingerprint}
    (vouched : Vouched store dump mutations fp) :
    Vouched store.bumpVectorGeneration dump mutations' fp := by
  have past := vouched.past
  refine ⟨Nat.le_succ_of_le past, fun same => ?_⟩
  have : fp.generation = store.generation + 1 := by rw [same]; rfl
  omega

/-- The end of a call: its ids agree, and no fingerprint is current. -/
theorem Serving.bump {task : Nat} {j : Mutation ι α} (inv : Serving s live mutations persists)
    (found : mutations.lookup task = some j) (indexDone : j.toIndex = []) (rowsDone : j.toRows = []) :
    Serving
      { s with
        store := s.store.bumpVectorGeneration
        process := .up live (mutations.erase task) persists }
      live (mutations.erase task) persists := by
  have kept : ∀ t a, (mutations.erase task).lookup t = some a →
      t ≠ task ∧ mutations.lookup t = some a := by
    intro t a foundA
    rw [Rows.lookup_erase_if] at foundA
    split at foundA
    · cases foundA
    · rename_i other
      exact ⟨other, foundA⟩
  refine ⟨fun t t' a b foundA foundB => ?_, fun t a foundA => ?_, fun id free => ?_,
    fun fp held => (inv.token fp held).bump, fun t p g held gen => ?_,
    fun t count g held => (inv.pending t count g held).bump⟩
  · exact inv.disjoint t t' a b (kept t a foundA).2 (kept t' b foundB).2
  · exact inv.completes t a (kept t a foundA).2
  · by_cases mine : id ∈ j.ids
    · have done := (inv.completes task j found).agrees id mine
      rw [indexDone, rowsDone] at done
      exact done
    · refine inv.untouched id fun t a foundA => ?_
      by_cases here : t = task
      · subst here
        rw [found] at foundA
        cases foundA
        exact mine
      · exact free t a (by rw [Rows.lookup_erase_if, if_neg here]; exact foundA)
  · exact Nat.le_succ_of_le (inv.persistPast t p g held gen)

/-! ## A persist's steps -/

/-- Swapping the directory: with nothing in flight the new dump is fresh, and
otherwise every call in flight has now been dumped under. -/
theorem Serving.swapDirectory {task count generation : Nat}
    (inv : Serving s live mutations persists)
    (found : persists.lookup task = some ⟨count, some generation, false⟩) :
    Serving
      { s with
        dump := some live
        token := none
        process := .up live (mutations.mapVals fun j => { j with dumped := true })
          (persists.insert task ⟨count, some generation, true⟩) }
      live (mutations.mapVals fun j => { j with dumped := true })
      (persists.insert task ⟨count, some generation, true⟩) := by
  have was : ∀ t a, (mutations.mapVals fun j => { j with dumped := true }).lookup t = some a →
      ∃ b, mutations.lookup t = some b ∧ a = { b with dumped := true } := by
    intro t a foundA
    rw [Rows.lookup_mapVals, Option.map_eq_some_iff] at foundA
    obtain ⟨b, foundB, rfl⟩ := foundA
    exact ⟨b, foundB, rfl⟩
  have vouch : ∀ fp : VectorFingerprint, fp.generation ≤ s.store.generation →
      Vouched s.store (some live) (mutations.mapVals fun j => { j with dumped := true }) fp := by
    refine fun fp past => ⟨past, fun _ pristine cached held => ?_⟩
    cases held
    refine inv.live_fresh fun t => ?_
    cases foundT : mutations.lookup t with
    | none => rfl
    | some b =>
        have now := (pristine t { b with dumped := true } (by
          rw [Rows.lookup_mapVals, foundT]
          rfl)).2
        cases now
  have past : generation ≤ s.store.generation := inv.persistPast task _ generation found rfl
  refine ⟨fun t t' a a' foundA foundA' ne id mem => ?_, fun t a foundA => ?_, fun id free => ?_,
    fun fp held => (by cases held), fun t p g held gen => ?_, fun t count' g held => ?_⟩
  · obtain ⟨b, foundB, rfl⟩ := was t a foundA
    obtain ⟨b', foundB', rfl⟩ := was t' a' foundA'
    exact inv.disjoint t t' b b' foundB foundB' ne id mem
  · obtain ⟨b, foundB, rfl⟩ := was t a foundA
    have done := inv.completes t b foundB
    exact ⟨done.toIndex, done.toRows, done.agrees⟩
  · refine inv.untouched id fun t b foundB => free t { b with dumped := true } ?_
    rw [Rows.lookup_mapVals, foundB]
    rfl
  · rw [Rows.lookup_insert_if] at held
    split at held
    · cases held
      cases gen
      exact past
    · exact inv.persistPast t p g held gen
  · refine vouch ⟨count', g⟩ ?_
    rw [Rows.lookup_insert_if] at held
    split at held
    · cases held
      exact past
    · exact inv.persistPast t _ g held rfl

/-- The steps of a persist that change nothing but its own record. -/
theorem Serving.setPersist {task : Nat} {p : PersistCall} (inv : Serving s live mutations persists)
    (past : ∀ g, p.generation = some g → g ≤ s.store.generation) (early : p.swapped = false) :
    Serving { s with process := .up live mutations (persists.insert task p) } live mutations
      (persists.insert task p) := by
  refine ⟨inv.disjoint, inv.completes, inv.untouched, inv.token, fun t q g held gen => ?_,
    fun t count g held => ?_⟩
  · rw [Rows.lookup_insert_if] at held
    split at held
    · cases held
      exact past g gen
    · exact inv.persistPast t q g held gen
  · rw [Rows.lookup_insert_if] at held
    split at held
    · cases held
      cases early
    · exact inv.pending t count g held

theorem Serving.writeToken {task count generation : Nat} (inv : Serving s live mutations persists)
    (found : persists.lookup task = some ⟨count, some generation, true⟩) :
    Serving
      { s with
        token := some ⟨count, generation⟩
        process := .up live mutations (persists.erase task) }
      live mutations (persists.erase task) := by
  have kept : ∀ t p, (persists.erase task).lookup t = some p → persists.lookup t = some p := by
    intro t p held
    rw [Rows.lookup_erase_if] at held
    split at held
    · cases held
    · exact held
  refine ⟨inv.disjoint, inv.completes, inv.untouched, fun fp held => ?_, fun t p g held gen => ?_,
    fun t count' g held => ?_⟩
  · cases held
    exact inv.pending task count generation found
  · exact inv.persistPast t p g (kept t p held) gen
  · exact inv.pending t count' g (kept t _ held)

/-! ## Every step of a serving process -/

omit [DecidableEq ι] [Component α] in
theorem accepts_eq_some_iff {cached : VectorMap ι α} : s.accepts = some cached ↔
    0 < s.store.fingerprint.count ∧ s.token = some s.store.fingerprint ∧ s.dump = some cached := by
  unfold Machine.accepts
  split
  · rename_i current
    exact ⟨fun held => ⟨current.1, current.2, held⟩, fun h => h.2.2⟩
  · rename_i stale
    exact ⟨fun held => (by cases held), fun h => absurd ⟨h.1, h.2.1⟩ stale⟩

/-- A crash leaves an acceptable token only where the condition vouches for it. -/
theorem Serving.crash (inv : Serving s live mutations persists)
    (pristine : s.accepts.isSome → AllPristine mutations) :
    Machine.Inv { s with process := .down } := by
  refine ⟨fun fp held => (inv.token fp held).past, fun cached accepted => ?_⟩
  have accepted' : s.accepts = some cached := accepted
  obtain ⟨-, token, held⟩ := accepts_eq_some_iff.mp accepted'
  exact (inv.token _ token).fresh rfl (pristine (by rw [accepted']; rfl)) cached held

theorem serve_inv {t : Machine ι α} {e : CacheEvent ι α} (inv : Serving s live mutations persists)
    (up : s.process = .up live mutations persists) (admissible : s.Admissible e)
    (taken : s.serve live mutations persists e = some t) : t.Inv := by
  unfold Machine.Admissible at admissible
  rw [up] at admissible
  cases e with
  | begin task call =>
      simp only [Machine.serve] at taken
      split at taken
      · cases taken
      · rename_i new
        cases taken
        exact inv.begin (fun mem => new (Or.inl mem)) admissible.1 admissible.2
  | indexStep task =>
      simp only [Machine.serve] at taken
      split at taken
      · rename_i j found
        split at taken
        · rename_i w rest next
          cases taken
          exact inv.indexStep found next
        · cases taken
      · cases taken
  | rowStep task =>
      simp only [Machine.serve] at taken
      split at taken
      · rename_i j found
        split at taken
        · rename_i w rest _ next
          cases taken
          exact inv.rowStep found next
        · cases taken
      · cases taken
  | bump task =>
      simp only [Machine.serve] at taken
      split at taken
      · rename_i j found
        split at taken
        · rename_i indexDone rowsDone
          cases taken
          exact inv.bump found indexDone rowsDone
        · cases taken
      · cases taken
  | readCount task =>
      simp only [Machine.serve] at taken
      split at taken
      · cases taken
      · cases taken
        exact inv.setPersist (fun g gen => by cases gen) rfl
  | readGeneration task =>
      simp only [Machine.serve] at taken
      split at taken
      · cases taken
        refine inv.setPersist (fun g gen => ?_) rfl
        cases gen
        exact le_refl _
      · cases taken
  | swapDirectory task =>
      simp only [Machine.serve] at taken
      split at taken
      · rename_i count generation found
        cases taken
        exact inv.swapDirectory found
      · cases taken
  | writeToken task =>
      simp only [Machine.serve] at taken
      split at taken
      · rename_i count generation found
        cases taken
        exact inv.writeToken found
      · cases taken
  | crash =>
      simp only [Machine.serve] at taken
      cases taken
      exact inv.crash admissible
  | restart => cases taken
  | bootSwap => cases taken
  | bootToken => cases taken

/-! ## Starting up -/

omit [Component α] in
theorem lookup_of_no_entries {m : VectorMap ι α} (none : m.entries = []) (id : ι) :
    m.lookup id = Option.none := by
  have empty : m = ∅ := AList.ext none
  rw [empty, AList.lookup_empty]

/-- A restart: an accepted dump is fresh, a rebuild is fresh by construction, and
the fallback is taken with nothing on either side. -/
theorem restart_inv (past : TokenPast s) (fresh : AcceptsFresh s)
    (condition : s.accepts = none → (acceptedRows s.store).entries = [] →
      ∀ cached, s.dump = some cached → cached.entries = []) :
    Machine.Inv { s with process := s.restart } := by
  unfold Machine.restart
  cases accepted : s.accepts with
  | some cached =>
      obtain ⟨-, -, held⟩ := accepts_eq_some_iff.mp accepted
      refine serving_start (fresh cached accepted) fun fp token => ⟨past fp token, ?_⟩
      intro _ _ d onDisk
      rw [show d = cached from Option.some.inj (onDisk.symm.trans held)]
      exact fresh cached accepted
  | none =>
      by_cases nothing : (acceptedRows s.store).entries = []
      · have bare := condition accepted nothing
        have matches_ : ∀ d : VectorMap ι α, d.entries = [] → Fresh d s.store := by
          intro d none id
          rw [lookup_of_no_entries none, lookup_of_no_entries nothing]
        simp only [nothing, List.isEmpty_nil, if_true]
        refine serving_start (matches_ _ ?_) fun fp token =>
          ⟨past fp token, fun _ _ d onDisk => matches_ d (bare d onDisk)⟩
        cases held : s.dump with
        | none => rfl
        | some d => exact bare d held
      · have some_ : (acceptedRows s.store).entries.isEmpty = false := by
          simpa using nothing
        simp only [some_, Bool.false_eq_true, if_false]
        exact ⟨past, fresh, fun _ => rfl, rfl, fun swapped => by cases swapped⟩

theorem boot_inv {t : Machine ι α} {rebuilt : VectorMap ι α} {fp : VectorFingerprint}
    {swapped : Bool} {e : CacheEvent ι α} (inv : s.Inv)
    (booting : s.process = .booting rebuilt fp swapped)
    (taken : s.boot rebuilt fp swapped e = some t) : t.Inv := by
  unfold Machine.Inv at inv
  rw [booting] at inv
  obtain ⟨past, accepts, fresh, rfl, dumped⟩ := inv
  cases e with
  | bootSwap =>
      simp only [Machine.boot] at taken
      split at taken
      · cases taken
      · cases taken
        refine ⟨fun fp held => (by cases held), fun cached accepted => ?_, fresh, rfl, fun _ => rfl⟩
        have token := (accepts_eq_some_iff.mp accepted).2.1
        cases token
  | bootToken =>
      simp only [Machine.boot] at taken
      split at taken
      · rename_i swapped
        cases taken
        refine serving_start fresh fun fp held => ?_
        cases held
        refine ⟨le_refl _, fun _ _ d onDisk => ?_⟩
        have same := (dumped swapped).symm.trans onDisk
        cases same
        exact fresh
      · cases taken
  | crash =>
      cases taken
      exact ⟨past, accepts⟩
  | «begin» => cases taken
  | indexStep => cases taken
  | rowStep => cases taken
  | bump => cases taken
  | readCount => cases taken
  | readGeneration => cases taken
  | swapDirectory => cases taken
  | writeToken => cases taken
  | restart => cases taken

theorem step_inv {t : Machine ι α} {e : CacheEvent ι α} (inv : s.Inv) (admissible : s.Admissible e)
    (taken : s.step e = some t) : t.Inv := by
  unfold Machine.step at taken
  cases at_ : s.process with
  | down =>
      rw [at_] at taken
      unfold Machine.Inv at inv
      unfold Machine.Admissible at admissible
      rw [at_] at inv admissible
      cases e with
      | restart =>
          cases taken
          exact restart_inv inv.1 inv.2 admissible
      | _ => cases taken
  | booting rebuilt fp swapped =>
      rw [at_] at taken
      exact boot_inv inv at_ taken
  | up live mutations persists =>
      rw [at_] at taken
      unfold Machine.Inv at inv
      rw [at_] at inv
      exact serve_inv inv at_ admissible taken

theorem init_inv : (Machine.init : Machine ι α).Inv := by
  refine ⟨fun fp held => (by cases held), fun cached accepted => ?_⟩
  have token := (accepts_eq_some_iff.mp accepted).2.1
  cases token

theorem inv_accurate (s : Machine ι α) (inv : s.Inv) : s.Accurate := by
  unfold Machine.Accurate
  unfold Machine.Inv at inv
  split
  · rename_i down
    rw [down] at inv
    exact inv.2
  · trivial

/-- In every run of admissible steps, from a new corpus on, the dump a restart
would accept is in every state the one a rebuild would make. -/
theorem cacheToken_accurate (es : List (CacheEvent ι α))
    (admissible : EachStep Machine.step Machine.Admissible (Machine.init : Machine ι α) es) :
    Throughout Machine.step Machine.Accurate (Machine.init : Machine ι α) es := by
  refine Throughout.imp inv_accurate ?_
  exact throughout_of_eachStep (fun s e t inv ok taken => step_inv inv ok taken) init_inv admissible

end Invariant

/-- An embed chunk, a persist, and a crash with nothing in flight: the token the
persist wrote is accepted, and the run is admissible. -/
theorem cacheToken_accurate_clean :
    let es : List (CacheEvent String Int) :=
      [.restart, .begin 0 (.embedChunk [("a", [1, 0])]), .indexStep 0, .rowStep 0, .bump 0,
        .readCount 1, .readGeneration 1, .swapDirectory 1, .writeToken 1, .crash]
    ((exec Machine.step Machine.init es).bind Machine.accepts).map AList.keys = some ["a"] ∧
      Throughout Machine.step Machine.Accurate (Machine.init : Machine String Int) es := by
  intro es
  refine ⟨by decide, cacheToken_accurate es ?_⟩
  have keeps : KeepsLive (∅ : VectorMap String Int) (.embedChunk [("a", [1, 0])]) := by
    intro id v last bad
    obtain ⟨rfl, rfl⟩ : id = "a" ∧ v = [1, 0] := by simpa using mem_of_lastOf last
    exact absurd bad (by decide)
  refine .cons (fun _ _ _ held => by cases held) rfl ?_
  refine .cons ⟨fun _ _ found => (by cases found), keeps⟩ rfl ?_
  refine .cons trivial rfl (.cons trivial rfl (.cons trivial rfl ?_))
  refine .cons trivial rfl (.cons trivial rfl (.cons trivial rfl (.cons trivial rfl ?_)))
  exact .cons (fun _ _ _ found => by cases found) rfl trivial

/-- The token is the fingerprint and the dump is not what the rows say: the row was
replaced, the count is the same, and the crash came before the bump. -/
theorem cacheToken_replaced_row :
    ¬ ∀ (es : List (CacheEvent String Int)) (s : Machine String Int),
      exec Machine.step Machine.init es = some s → s.Accurate := by
  intro accurate
  have after := accurate
    [.restart, .begin 0 (.embedChunk [("a", [1, 0])]), .indexStep 0, .rowStep 0, .bump 0,
      .readCount 1, .readGeneration 1, .swapDirectory 1, .writeToken 1,
      .begin 2 (.embedChunk [("a", [0, 1])]), .indexStep 2, .rowStep 2, .crash] _ rfl
  have stale := after _ rfl "a"
  revert stale
  decide

end Ministr.Index
