/-
# Index.CacheToken — the persisted dump, its validity token, and crashes

A restart loads the HNSW dump instead of rebuilding it when the token beside the
dump equals the fingerprint of the vector store: the row count and the generation
counter.  This module is the machine around that comparison.  On disk are the
store, the dump and the token.  In memory are the live index and the calls in
flight:

* a mutation (an embed chunk or a document's removal) changes the index entry by
  entry, then the rows one autocommitted statement at a time, then bumps the
  generation;
* `persist_hnsw_cache` reads the count, reads the generation, swaps the index
  directory (which takes the old token with it) and writes the token.

Statements of different calls interleave freely: the store hands each call its own
connection and there is no transaction.  A crash may come between any two steps;
it loses what is in memory.

The index is its map from ids to vectors, which is what `Index.Hnsw` shows it to
be, and what a rebuild makes of the rows is `acceptedRows` (`rebuild_represents`).
The other fields of the token (cache version, model, dimension) are the same in
every run of one binary with one model and are left out.
-/
import Ministr.Index.LiveIndex

namespace Ministr.Index

open Ministr.Theory

set_option autoImplicit false

/-! ## Calls in flight -/

/-- What a mutation does to one id: `some v` embeds it as `v`, `none` removes it. -/
abbrev Write (ι α : Type) := ι × Option (List α)

/-- The calls that change the index and the rows. -/
inductive VectorCall (ι α : Type) where
  | embedChunk (entries : List (ι × List α))
  | deleteDocument (removedVids : List ι)

def VectorCall.writes {ι α : Type} : VectorCall ι α → List (Write ι α)
  | .embedChunk entries => entries.map fun e => (e.1, some e.2)
  | .deleteDocument removedVids => removedVids.map fun id => (id, none)

/-- A mutation in flight: all it has to do, and what is left of it for the index
and for the rows.  `dumped` is a history variable: a dump was taken since the call
began. -/
structure Mutation (ι α : Type) where
  writes : List (Write ι α)
  toIndex : List (Write ι α)
  toRows : List (Write ι α)
  dumped : Bool

def Mutation.begin {ι α : Type} (writes : List (Write ι α)) : Mutation ι α where
  writes := writes
  toIndex := writes
  toRows := writes
  dumped := false

/-- The ids the call touches. -/
def Mutation.ids {ι α : Type} (j : Mutation ι α) : List ι := j.writes.map Prod.fst

/-- Nothing of the call has reached the rows or the disk. -/
def Mutation.Pristine {ι α : Type} (j : Mutation ι α) : Prop :=
  j.toRows.length = j.writes.length ∧ j.dumped = false

/-- `persist_hnsw_cache` in flight: the count it read, the generation once it has
read it, and whether the directory is swapped. -/
structure PersistCall where
  count : Nat
  generation : Option Nat
  swapped : Bool
  deriving DecidableEq, Repr

/-! ## The machine -/

/-- The process: not running, loading the index after a cache miss, or serving. -/
inductive Process (ι α : Type) where
  | down
  | booting (rebuilt : VectorMap ι α) (fp : VectorFingerprint) (swapped : Bool)
  | up (live : VectorMap ι α) (mutations : Rows Nat (Mutation ι α)) (persists : Rows Nat PersistCall)

structure Machine (ι α : Type) where
  store : VectorStore ι α
  dump : Option (VectorMap ι α)
  token : Option VectorFingerprint
  process : Process ι α

/-- What can happen.  Calls in flight are named by task number. -/
inductive CacheEvent (ι α : Type) where
  | begin (task : Nat) (call : VectorCall ι α)
  | indexStep (task : Nat)
  | rowStep (task : Nat)
  | bump (task : Nat)
  | readCount (task : Nat)
  | readGeneration (task : Nat)
  | swapDirectory (task : Nat)
  | writeToken (task : Nat)
  | crash
  | restart
  | bootSwap
  | bootToken

section Machine

variable {ι α : Type} [DecidableEq ι] [Component α]

def indexWrite (live : VectorMap ι α) (w : Write ι α) : VectorMap ι α :=
  match w.2 with
  | some v => live.put w.1 v
  | none => live.erase w.1

def rowWrite (rows : Rows ι (List α)) (w : Write ι α) : Rows ι (List α) :=
  match w.2 with
  | some v => rows.insert w.1 v
  | none => rows.erase w.1

namespace Machine

/-- A new corpus, before the first start. -/
def init : Machine ι α where
  store := .empty
  dump := none
  token := none
  process := .down

/-- The fast path of `load_cached_or_rebuild_hnsw`: vectors are stored, a dump is
there, and its token is the store's fingerprint. -/
def accepts (s : Machine ι α) : Option (VectorMap ι α) :=
  if 0 < s.store.fingerprint.count ∧ s.token = some s.store.fingerprint then s.dump else none

/-- `load_cached_or_rebuild_hnsw`, and the caller's fallback to the on-disk dump or
a fresh index when it answers `None`. -/
def restart (s : Machine ι α) : Process ι α :=
  match s.accepts with
  | some cached => .up cached ∅ ∅
  | none =>
      let rebuilt := acceptedRows s.store
      if rebuilt.entries.isEmpty then .up (s.dump.getD ∅) ∅ ∅
      else .booting rebuilt s.store.fingerprint false

/-- The steps of a serving process. -/
def serve (s : Machine ι α) (live : VectorMap ι α) (mutations : Rows Nat (Mutation ι α))
    (persists : Rows Nat PersistCall) : CacheEvent ι α → Option (Machine ι α)
  | .begin task call =>
      if task ∈ mutations ∨ call.writes = [] then none
      else some { s with process := .up live (mutations.insert task (.begin call.writes)) persists }
  | .indexStep task =>
      match mutations.lookup task with
      | some j =>
          match j.toIndex with
          | w :: rest => some { s with
              process := .up (indexWrite live w)
                (mutations.insert task { j with toIndex := rest }) persists }
          | [] => none
      | none => none
  | .rowStep task =>
      match mutations.lookup task with
      | some j =>
          match j.toIndex, j.toRows with
          | [], w :: rest => some { s with
              store := { s.store with rows := rowWrite s.store.rows w }
              process := .up live (mutations.insert task { j with toRows := rest }) persists }
          | _, _ => none
      | none => none
  | .bump task =>
      match mutations.lookup task with
      | some j =>
          match j.toIndex, j.toRows with
          | [], [] => some { s with
              store := s.store.bumpVectorGeneration
              process := .up live (mutations.erase task) persists }
          | _, _ => none
      | none => none
  | .readCount task =>
      if task ∈ persists then none
      else some { s with
        process := .up live mutations
          (persists.insert task ⟨s.store.fingerprint.count, none, false⟩) }
  | .readGeneration task =>
      match persists.lookup task with
      | some ⟨count, none, false⟩ => some { s with
          process := .up live mutations
            (persists.insert task ⟨count, some s.store.generation, false⟩) }
      | _ => none
  | .swapDirectory task =>
      match persists.lookup task with
      | some ⟨count, some generation, false⟩ => some { s with
          dump := some live
          token := none
          process := .up live (mutations.mapVals fun j => { j with dumped := true })
            (persists.insert task ⟨count, some generation, true⟩) }
      | _ => none
  | .writeToken task =>
      match persists.lookup task with
      | some ⟨count, some generation, true⟩ => some { s with
          token := some ⟨count, generation⟩
          process := .up live mutations (persists.erase task) }
      | _ => none
  | .crash => some { s with process := .down }
  | _ => none

/-- The steps of a process that rebuilds the index after a cache miss. -/
def boot (s : Machine ι α) (rebuilt : VectorMap ι α) (fp : VectorFingerprint) (swapped : Bool) :
    CacheEvent ι α → Option (Machine ι α)
  | .bootSwap =>
      if swapped then none
      else some { s with dump := some rebuilt, token := none, process := .booting rebuilt fp true }
  | .bootToken =>
      if swapped then some { s with token := some fp, process := .up rebuilt ∅ ∅ } else none
  | .crash => some { s with process := .down }
  | _ => none

def step (s : Machine ι α) (e : CacheEvent ι α) : Option (Machine ι α) :=
  match s.process, e with
  | .down, .restart => some { s with process := s.restart }
  | .down, _ => none
  | .booting rebuilt fp swapped, e => s.boot rebuilt fp swapped e
  | .up live mutations persists, e => s.serve live mutations persists e

end Machine

/-! ## What is claimed, and when it holds -/

/-- The map has exactly what a rebuild would make of the rows. -/
def Fresh (m : VectorMap ι α) (store : VectorStore ι α) : Prop :=
  ∀ id, m.lookup id = (acceptedRows store).lookup id

/-- Whenever a restart would accept the dump, the dump is what a rebuild makes. -/
def Machine.Accurate (s : Machine ι α) : Prop :=
  match s.process with
  | .down => ∀ cached, s.accepts = some cached → Fresh cached s.store
  | _ => True

/-- No id of the call is touched by a mutation in flight. -/
def Undisturbed (mutations : Rows Nat (Mutation ι α)) (call : VectorCall ι α) : Prop :=
  ∀ task j, mutations.lookup task = some j → ∀ id ∈ j.ids, id ∉ call.writes.map Prod.fst

/-- The chunk leaves no live id with a degenerate row (see `OverwritesNoLive`). -/
def KeepsLive (live : VectorMap ι α) : VectorCall ι α → Prop
  | .embedChunk entries => ∀ id v, lastOf entries id = some v → degenerate v = true →
      live.lookup id = none ∧ ∀ w, (id, w) ∈ entries → degenerate w = true
  | .deleteDocument _ => True

/-- The steps under which the token is sound:
* a mutation begins only while no other in flight touches its ids, and never
  re-embeds a live id as a degenerate vector;
* a crash that leaves an acceptable token comes while no mutation in flight has
  touched a row or had the index dumped under it;
* a restart that finds nothing to rebuild finds no dump with vectors. -/
def Machine.Admissible (s : Machine ι α) (e : CacheEvent ι α) : Prop :=
  match s.process, e with
  | .up live mutations _, .begin _ call => Undisturbed mutations call ∧ KeepsLive live call
  | .up _ mutations _, .crash => s.accepts.isSome →
      ∀ task j, mutations.lookup task = some j → j.Pristine
  | .down, .restart => s.accepts = none → (acceptedRows s.store).entries = [] →
      ∀ cached, s.dump = some cached → cached.entries = []
  | _, _ => True

end Machine

end Ministr.Index
