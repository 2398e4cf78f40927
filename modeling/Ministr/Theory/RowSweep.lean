/-
# Theory.RowSweep — a sweep that takes its rows out of a table

A sweep over a list of things takes for each the row under its key, or else under one of some
other keys, out of a table; a key that came up before is passed over.  Each thing is at a
place, and the rows were written for things under their keys.  When the keys tell the places
apart (`KeysTell`), the sweep gives every place its own row exactly as long as no thing without
a row reaches, by its other keys, a row that is still there (`NoneShared`): otherwise it gives
some place a row that was not written for it (`sweep_cases`).
-/
import Ministr.Theory.Rows
import Mathlib.Data.List.Induction
import Mathlib.Data.List.Nodup

namespace Ministr.Theory

set_option autoImplicit false

universe u v w x

variable {α : Type u} {K : Type v} {V : Type w} {L : Type x} [DecidableEq K]

/-- The row under the first of the keys that has one, which is taken out. -/
def takeFirst (table : Rows K V) : List K → Option V × Rows K V
  | [] => (none, table)
  | k :: ks =>
      match table.lookup k with
      | some v => (some v, table.erase k)
      | none => takeFirst table ks

/-- What a sweep has left of the table, the keys it has seen, and what it gave. -/
structure Sweep (α : Type u) (K : Type v) (V : Type w) where
  table : Rows K V
  seen : List K
  out : List (α × Option V)

section Sweep

variable (keyOf : α → K) (others : α → List K)

def Sweep.visit (s : Sweep α K V) (a : α) : Sweep α K V :=
  if keyOf a ∈ s.seen then s
  else
    let taken := takeFirst s.table (keyOf a :: others a)
    ⟨taken.2, keyOf a :: s.seen, s.out ++ [(a, taken.1)]⟩

def sweep (table : Rows K V) (as : List α) : Sweep α K V :=
  as.foldl (Sweep.visit keyOf others) ⟨table, [], []⟩

theorem sweep_concat (table : Rows K V) (as : List α) (a : α) :
    sweep keyOf others table (as ++ [a]) =
      (sweep keyOf others table as).visit keyOf others a := by
  rw [sweep, List.foldl_concat]
  rfl

/-- The sweep sees the keys of the things, and gives one row, or none, for each key. -/
structure Sees (as : List α) (s : Sweep α K V) : Prop where
  seen : ∀ k, k ∈ s.seen ↔ ∃ a ∈ as, keyOf a = k
  out : ∀ k, k ∈ s.out.map (fun e => keyOf e.1) ↔ k ∈ s.seen
  once : (s.out.map fun e => keyOf e.1).Nodup
  things : ∀ e ∈ s.out, e.1 ∈ as

theorem sees_sweep (table : Rows K V) (as : List α) :
    Sees keyOf as (sweep keyOf others table as) := by
  induction as using List.reverseRecOn with
  | nil => exact ⟨by simp [sweep], by simp [sweep], by simp [sweep], by simp [sweep]⟩
  | append_singleton as a ih =>
      rw [sweep_concat]
      unfold Sweep.visit
      split
      · rename_i known
        refine ⟨fun k => ?_, ih.out, ih.once, fun e mem => List.mem_append_left _ (ih.things e mem)⟩
        rw [ih.seen]
        refine ⟨fun ⟨b, mem, same⟩ => ⟨b, List.mem_append_left _ mem, same⟩, ?_⟩
        rintro ⟨b, mem, same⟩
        rcases List.mem_append.mp mem with earlier | last
        · exact ⟨b, earlier, same⟩
        · rw [List.mem_singleton.mp last] at same
          exact (ih.seen k).mp (same ▸ known)
      · rename_i fresh
        refine ⟨fun k => ?_, fun k => ?_, ?_, fun e mem => ?_⟩
        · rw [List.mem_cons, ih.seen]
          constructor
          · rintro (rfl | ⟨b, mem, same⟩)
            · exact ⟨a, by simp, rfl⟩
            · exact ⟨b, List.mem_append_left _ mem, same⟩
          · rintro ⟨b, mem, same⟩
            rcases List.mem_append.mp mem with earlier | last
            · exact .inr ⟨b, earlier, same⟩
            · rw [List.mem_singleton.mp last] at same
              exact .inl same.symm
        · rw [List.map_append, List.mem_append, ih.out, List.mem_cons]
          simp [or_comm]
        · rw [List.map_append]
          refine List.nodup_append.mpr ⟨ih.once, by simp, fun k mem other last => ?_⟩
          rintro rfl
          rw [List.map_singleton, List.mem_singleton] at last
          exact fresh (last ▸ (ih.out k).mp mem)
        · rcases List.mem_append.mp mem with earlier | last
          · exact List.mem_append_left _ (ih.things e earlier)
          · rw [List.mem_singleton.mp last]
            simp

end Sweep

/-! ## Rows that were written for things -/

section Written

variable (keyOf : α → K) (others : α → List K) (placeOf : α → L)

/-- Two things have one key exactly when they are at one place. -/
def KeysTell (as : List α) : Prop :=
  ∀ a ∈ as, ∀ b ∈ as, keyOf a = keyOf b ↔ placeOf a = placeOf b

/-- The table that things were written to. -/
def writtenTable (written : List (α × V)) : Rows K V :=
  Rows.upsertAll ∅ (written.map fun e => (keyOf e.1, e.2))

variable {keyOf} in
theorem lookup_writtenTable {written : List (α × V)}
    (distinct : (written.map fun e => keyOf e.1).Nodup) {k : K} {v : V} :
    (writtenTable keyOf written).lookup k = some v ↔ ∃ e ∈ written, keyOf e.1 = k ∧ e.2 = v := by
  have nodup : ((written.map fun e => (keyOf e.1, e.2)).map Prod.fst).Nodup := by
    simpa [Function.comp_def] using distinct
  rw [writtenTable, Rows.lookup_upsertAll, AList.lookup_empty, Option.or_none,
    lastOf_eq_some_iff fun v here w there => eq_of_nodup_fst nodup here there]
  simp

/-- `a` is the first at its place, nothing was written for the place, and by another key it
reaches a row that is still there. -/
def Shares (written : List (α × V)) (before : List α) (a : α) : Prop :=
  (∀ b ∈ before, placeOf b ≠ placeOf a) ∧ (∀ e ∈ written, placeOf e.1 ≠ placeOf a) ∧
    ∃ e ∈ written, keyOf e.1 ∈ others a ∧ ∀ b ∈ before, placeOf b ≠ placeOf e.1

/-- Nothing shares a row along the list. -/
def NoneShared (written : List (α × V)) (as : List α) : Prop :=
  ∀ before a after, as = before ++ a :: after → ¬Shares keyOf others placeOf written before a

omit [DecidableEq K] in
theorem noneShared_concat {written : List (α × V)} {as : List α} {a : α} :
    NoneShared keyOf others placeOf written (as ++ [a]) ↔
      NoneShared keyOf others placeOf written as ∧ ¬Shares keyOf others placeOf written as a := by
  constructor
  · intro none
    refine ⟨fun before b after whole => ?_, none as a [] rfl⟩
    exact none before b (after ++ [a]) (by rw [whole, List.append_assoc, List.cons_append])
  · rintro ⟨none, last⟩ before b after whole
    rcases List.eq_nil_or_concat' after with rfl | ⟨init, c, rfl⟩
    · obtain ⟨rfl, same⟩ := List.append_inj' whole rfl
      obtain ⟨rfl⟩ := List.cons.inj same
      exact last
    · rw [← List.cons_append, ← List.append_assoc] at whole
      exact none before b init (List.append_inj' whole rfl).1

/-- The rows given so far are those of the places, and what is left of the table is what was
written for other places. -/
structure Settles (written : List (α × V)) (as : List α) (s : Sweep α K V) : Prop where
  own : ∀ e ∈ s.out, ∀ v, e.2 = some v ↔ ∃ r ∈ written, placeOf r.1 = placeOf e.1 ∧ r.2 = v
  left : ∀ k v, s.table.lookup k = some v ↔
    ∃ r ∈ written, keyOf r.1 = k ∧ r.2 = v ∧ ∀ a ∈ as, placeOf a ≠ placeOf r.1

variable {keyOf others placeOf}

theorem takeFirst_none {table : Rows K V} {ks : List K} (absent : ∀ k ∈ ks, table.lookup k = none) :
    takeFirst table ks = (none, table) := by
  induction ks with
  | nil => rfl
  | cons k ks ih =>
      rw [takeFirst, absent k List.mem_cons_self]
      exact ih fun k mem => absent k (List.mem_cons_of_mem _ mem)

theorem takeFirst_some {table : Rows K V} {ks : List K} {k : K} (mem : k ∈ ks)
    (here : table.lookup k ≠ none) : ∃ v, (takeFirst table ks).1 = some v := by
  induction ks with
  | nil => cases mem
  | cons first ks ih =>
      rw [takeFirst]
      cases found : table.lookup first with
      | some v => exact ⟨v, rfl⟩
      | none =>
          rcases List.mem_cons.mp mem with rfl | later
          · exact absurd found here
          · exact ih later

theorem Sweep.mem_visit {s : Sweep α K V} {a : α} {e : α × Option V} (mem : e ∈ s.out) :
    e ∈ (s.visit keyOf others a).out := by
  unfold Sweep.visit
  split
  · exact mem
  · exact List.mem_append_left _ mem

section Step

variable {written : List (α × V)} {as : List α} {a : α} {s : Sweep α K V}
  (tell : KeysTell keyOf placeOf ((as ++ [a]) ++ written.map Prod.fst))
include tell

omit [DecidableEq K] in
theorem KeysTell.earlier {b : α} (mem : b ∈ as) :
    keyOf b = keyOf a ↔ placeOf b = placeOf a :=
  tell b (by simp [mem]) a (by simp)

omit [DecidableEq K] in
theorem KeysTell.row {r : α × V} (mem : r ∈ written) :
    keyOf r.1 = keyOf a ↔ placeOf r.1 = placeOf a :=
  tell r.1 (List.mem_append_right _ (List.mem_map_of_mem mem)) a (by simp)

/-- A thing at a place that came up before. -/
theorem Settles.known (settles : Settles keyOf placeOf written as s) {b : α} (mem : b ∈ as)
    (same : keyOf b = keyOf a) : Settles keyOf placeOf written (as ++ [a]) s := by
  refine ⟨settles.own, fun k v => ?_⟩
  rw [settles.left]
  refine exists_congr fun r => and_congr_right fun _ => and_congr_right fun _ =>
    and_congr_right fun _ => ⟨fun free c listed => ?_, fun free c listed => ?_⟩
  · rcases List.mem_append.mp listed with earlier | last
    · exact free c earlier
    · rw [List.mem_singleton.mp last, ← (tell.earlier mem).mp same]
      exact free b mem
  · exact free c (List.mem_append_left _ listed)

/-- A thing whose place has a row takes it. -/
theorem Settles.recorded (settles : Settles keyOf placeOf written as s)
    (places : (written.map fun e => placeOf e.1).Nodup) (fresh : ∀ b ∈ as, placeOf b ≠ placeOf a)
    {r : α × V} (mem : r ∈ written) (here : placeOf r.1 = placeOf a) (ks : List K) :
    takeFirst s.table (keyOf a :: ks) = (some r.2, s.table.erase (keyOf a)) ∧
      Settles keyOf placeOf written (as ++ [a])
        ⟨s.table.erase (keyOf a), keyOf a :: s.seen, s.out ++ [(a, some r.2)]⟩ := by
  have found : s.table.lookup (keyOf a) = some r.2 :=
    (settles.left _ _).mpr ⟨r, mem, (tell.row mem).mpr here, rfl, fun b listed => here ▸ fresh b listed⟩
  refine ⟨by rw [takeFirst, found], fun e listed v => ?_, fun k v => ?_⟩
  · rcases List.mem_append.mp listed with earlier | last
    · exact settles.own e earlier v
    · rw [List.mem_singleton.mp last, Option.some.injEq]
      refine ⟨fun same => ⟨r, mem, here, same⟩, ?_⟩
      rintro ⟨r', mem', here', rfl⟩
      rw [List.inj_on_of_nodup_map places mem mem' (here.trans here'.symm)]
  · rw [Rows.lookup_erase_if]
    split
    · rename_i key
      refine iff_of_false nofun ?_
      rintro ⟨r', mem', key', -, free⟩
      exact free a (by simp) ((tell.row mem').mp (key'.trans key)).symm
    · rename_i other
      rw [settles.left]
      refine exists_congr fun r' => and_congr_right fun mem' => and_congr_right fun key' =>
        and_congr_right fun _ => ⟨fun free c listed => ?_, fun free c listed => ?_⟩
      · rcases List.mem_append.mp listed with earlier | last
        · exact free c earlier
        · rw [List.mem_singleton.mp last]
          intro same
          exact other (key'.symm.trans ((tell.row mem').mpr same.symm))
      · exact free c (List.mem_append_left _ listed)

omit tell in
/-- A thing whose place has no row, and that reaches no other, takes none. -/
theorem Settles.unrecorded (settles : Settles keyOf placeOf written as s)
    (bare : ∀ r ∈ written, placeOf r.1 ≠ placeOf a) :
    Settles keyOf placeOf written (as ++ [a]) ⟨s.table, keyOf a :: s.seen, s.out ++ [(a, none)]⟩ := by
  refine ⟨fun e listed v => ?_, fun k v => ?_⟩
  · rcases List.mem_append.mp listed with earlier | last
    · exact settles.own e earlier v
    · rw [List.mem_singleton.mp last]
      refine iff_of_false nofun ?_
      rintro ⟨r, mem, here, -⟩
      exact bare r mem here
  · rw [settles.left]
    refine exists_congr fun r => and_congr_right fun mem => and_congr_right fun _ =>
      and_congr_right fun _ => ⟨fun free c listed => ?_, fun free c listed => ?_⟩
    · rcases List.mem_append.mp listed with earlier | last
      · exact free c earlier
      · rw [List.mem_singleton.mp last]
        exact (bare r mem).symm
    · exact free c (List.mem_append_left _ listed)

end Step

/-- Where keys tell the places apart, the sweep gives every place its own row, or, where
something shares, some place a row that is not its own. -/
theorem sweep_cases {written : List (α × V)} {as : List α}
    (distinct : (written.map fun e => keyOf e.1).Nodup)
    (places : (written.map fun e => placeOf e.1).Nodup)
    (tell : KeysTell keyOf placeOf (as ++ written.map Prod.fst)) :
    (NoneShared keyOf others placeOf written as ∧
      Settles keyOf placeOf written as (sweep keyOf others (writtenTable keyOf written) as)) ∨
    (¬NoneShared keyOf others placeOf written as ∧
      ∃ e ∈ (sweep keyOf others (writtenTable keyOf written) as).out,
        e.2 ≠ none ∧ ∀ r ∈ written, placeOf r.1 ≠ placeOf e.1) := by
  induction as using List.reverseRecOn with
  | nil =>
      refine .inl ⟨fun before a after whole => by simp at whole, by simp [sweep], fun k v => ?_⟩
      rw [show (sweep keyOf others (writtenTable keyOf written) []).table =
        writtenTable keyOf written from rfl, lookup_writtenTable distinct]
      simp
  | append_singleton as a ih =>
      have before : KeysTell keyOf placeOf (as ++ written.map Prod.fst) := by
        intro b memB c memC
        refine tell b ?_ c ?_
        · rcases List.mem_append.mp memB with mem | mem <;> simp [mem]
        · rcases List.mem_append.mp memC with mem | mem <;> simp [mem]
      rw [sweep_concat, noneShared_concat]
      rcases ih before with ⟨none, settles⟩ | ⟨shared, e, mem, bad⟩
      · have sees := sees_sweep keyOf others (writtenTable keyOf written) as
        generalize sweep keyOf others (writtenTable keyOf written) as = s at settles sees
        by_cases known : keyOf a ∈ s.seen
        · obtain ⟨b, mem, same⟩ := (sees.seen _).mp known
          refine .inl ⟨⟨none, fun shares => ?_⟩, ?_⟩
          · exact shares.1 b mem ((tell.earlier mem).mp same)
          · rw [Sweep.visit, if_pos known]
            exact settles.known tell mem same
        · have fresh : ∀ b ∈ as, placeOf b ≠ placeOf a := fun b mem same =>
            known ((sees.seen _).mpr ⟨b, mem, (tell.earlier mem).mpr same⟩)
          rw [Sweep.visit, if_neg known]
          by_cases recorded : ∃ r ∈ written, placeOf r.1 = placeOf a
          · obtain ⟨r, mem, here⟩ := recorded
            obtain ⟨taken, after⟩ := settles.recorded tell places fresh mem here (others a)
            refine .inl ⟨⟨none, fun shares => shares.2.1 r mem here⟩, ?_⟩
            rw [taken]
            exact after
          · have bare : ∀ r ∈ written, placeOf r.1 ≠ placeOf a := fun r mem here =>
              recorded ⟨r, mem, here⟩
            by_cases shares : Shares keyOf others placeOf written as a
            · obtain ⟨-, -, r, mem, reached, free⟩ := shares
              have there : s.table.lookup (keyOf r.1) ≠ Option.none := by
                rw [(settles.left _ _).mpr ⟨r, mem, rfl, rfl, free⟩]
                nofun
              obtain ⟨v, taken⟩ := takeFirst_some (List.mem_cons_of_mem (keyOf a) reached) there
              refine .inr ⟨fun both => both.2 ⟨fresh, bare, r, mem, reached, free⟩,
                (a, _), List.mem_append_right _ (List.mem_singleton.mpr rfl), ?_, bare⟩
              rw [taken]
              nofun
            · have absent : ∀ k ∈ keyOf a :: others a, s.table.lookup k = Option.none := by
                intro k mem
                refine Option.eq_none_iff_forall_ne_some.mpr fun v found => ?_
                obtain ⟨r, listed, key, -, free⟩ := (settles.left k v).mp found
                rcases List.mem_cons.mp mem with rfl | reached
                · exact bare r listed ((tell.row listed).mp key)
                · exact shares ⟨fresh, bare, r, listed, key ▸ reached, free⟩
              refine .inl ⟨⟨none, shares⟩, ?_⟩
              rw [takeFirst_none absent]
              exact settles.unrecorded bare
      · exact .inr ⟨fun both => shared both.1, e, Sweep.mem_visit mem, bad⟩

end Written

end Ministr.Theory
