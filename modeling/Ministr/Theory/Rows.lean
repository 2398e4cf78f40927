/-
# Theory.Rows — keyed tables

A hash map, a tree map and an SQL table with a primary key are all modelled by
Mathlib's `AList`: a list of key/value entries with no key twice.  The order of
the entries stands for the iteration order, which the callers must not depend
on.  This module adds what the tables need beyond Mathlib: reads after one
write in `if` form, the bulk operations (`upsertAll` for a sequence of
`INSERT OR REPLACE`, `eraseAll` for a sequence of deletes by key, `deleteWhere`
for a `DELETE … WHERE`), the selection `keysWhere`, the two ways a table of
sums or lists is rewritten in place (`mapVals`, `accumulate`), the sum of a
column (`total`), and the orders in which a table can be read (`HashOrder`).
-/
import Mathlib.Data.List.AList
import Mathlib.Data.Finset.Card
import Mathlib.Algebra.GroupWithZero.Nat
import Mathlib.Algebra.BigOperators.Group.List.Basic
import Mathlib.Tactic.Common

namespace Ministr.Theory

set_option autoImplicit false

universe u v

/-- A table with primary key `K` and row data `V`. -/
abbrev Rows (K : Type u) (V : Type v) := AList (fun _ : K => V)

/-- The value an entry list last gives key `k`. -/
def lastOf {K : Type u} {V : Type v} [DecidableEq K] : List (K × V) → K → Option V
  | [], _ => none
  | e :: es, k => (lastOf es k).or (if e.1 = k then some e.2 else none)

namespace Rows

variable {K : Type u} {V : Type v} [DecidableEq K]

/-! ## One write -/

theorem lookup_insert_if (m : Rows K V) (k k' : K) (v : V) :
    (m.insert k v).lookup k' = if k' = k then some v else m.lookup k' := by
  by_cases h : k' = k
  · subst h; simp
  · rw [if_neg h]
    exact AList.lookup_insert_ne (β := fun _ => V) h

theorem lookup_erase_if (m : Rows K V) (k k' : K) :
    (m.erase k).lookup k' = if k' = k then none else m.lookup k' := by
  by_cases h : k' = k
  · subst h; simp
  · rw [if_neg h]
    exact AList.lookup_erase_ne (β := fun _ => V) h

theorem mem_iff_lookup (m : Rows K V) (k : K) : k ∈ m ↔ ∃ v, m.lookup k = some v := by
  rw [← AList.lookup_isSome, Option.isSome_iff_exists]

/-- A row that is read back unchanged is still there. -/
theorem mem_of_kept {m m' : Rows K V} {k : K}
    (kept : ∀ v, m.lookup k = some v → m'.lookup k = some v) (mem : k ∈ m) : k ∈ m' := by
  obtain ⟨v, found⟩ := (mem_iff_lookup m k).mp mem
  exact (mem_iff_lookup m' k).mpr ⟨v, kept v found⟩

omit [DecidableEq K] in
theorem eq_empty_of_keys {m : Rows K V} (none : m.keys = []) : m = ∅ :=
  AList.ext (List.map_eq_nil_iff.mp none)

theorem mem_entries_iff (m : Rows K V) (k : K) (v : V) :
    (⟨k, v⟩ : Sigma fun _ : K => V) ∈ m.entries ↔ m.lookup k = some v :=
  AList.mem_lookup_iff.symm

/-! ## Bulk writes -/

/-- `INSERT OR REPLACE` of every entry, in order. -/
def upsertAll (m : Rows K V) (es : List (K × V)) : Rows K V :=
  es.foldl (fun m e => m.insert e.1 e.2) m

/-- Delete every key of the list. -/
def eraseAll (m : Rows K V) (ks : List K) : Rows K V :=
  ks.foldl (fun m k => m.erase k) m

@[simp] theorem upsertAll_nil (m : Rows K V) : upsertAll m [] = m := rfl

@[simp] theorem eraseAll_nil (m : Rows K V) : eraseAll m [] = m := rfl

theorem upsertAll_cons (m : Rows K V) (e : K × V) (es : List (K × V)) :
    upsertAll m (e :: es) = upsertAll (m.insert e.1 e.2) es := rfl

theorem eraseAll_cons (m : Rows K V) (k : K) (ks : List K) :
    eraseAll m (k :: ks) = eraseAll (m.erase k) ks := rfl

theorem lookup_upsertAll (m : Rows K V) (es : List (K × V)) (k : K) :
    (upsertAll m es).lookup k = (lastOf es k).or (m.lookup k) := by
  induction es generalizing m with
  | nil => rfl
  | cons e es ih =>
      rw [upsertAll_cons, ih, lookup_insert_if, lastOf]
      cases lastOf es k with
      | some v => rfl
      | none =>
          by_cases h : e.1 = k
          · simp [h]
          · simp [h, Ne.symm h]

theorem lookup_eraseAll (m : Rows K V) (ks : List K) (k : K) :
    (eraseAll m ks).lookup k = if k ∈ ks then none else m.lookup k := by
  induction ks generalizing m with
  | nil => rfl
  | cons k' ks ih =>
      rw [eraseAll_cons, ih, lookup_erase_if]
      by_cases here : k = k' <;> by_cases later : k ∈ ks <;> simp [here, later]

/-- The keys after a bulk write. -/
theorem mem_upsertAll {m : Rows K V} {es : List (K × V)} {k : K} :
    k ∈ m.upsertAll es ↔ k ∈ m ∨ ∃ e ∈ es, e.1 = k := by
  induction es generalizing m with
  | nil => simp
  | cons e es ih =>
      rw [upsertAll_cons, ih, AList.mem_insert]
      simp only [List.exists_mem_cons_iff]
      tauto

/-- Rows written under new keys come before the rows that were there. -/
theorem entries_upsertAll {m : Rows K V} {es : List (K × V)} (fresh : ∀ e ∈ es, e.1 ∉ m) :
    (m.upsertAll es).entries = (upsertAll ∅ es).entries ++ m.entries := by
  -- the rows already written are kept apart as `own`
  have grown : ∀ (own whole : Rows K V), whole.entries = own.entries ++ m.entries →
      (whole.upsertAll es).entries = (own.upsertAll es).entries ++ m.entries := by
    induction es with
    | nil => exact fun _ _ split => split
    | cons e es ih =>
        intro own whole split
        rw [upsertAll_cons, upsertAll_cons]
        refine ih (fun e' mem => fresh e' (List.mem_cons_of_mem _ mem)) _ _ ?_
        have absent : e.1 ∉ m.entries.keys := fresh e List.mem_cons_self
        rw [AList.entries_insert, AList.entries_insert, split, List.cons_append]
        by_cases here : e.1 ∈ own.entries.keys
        · rw [List.kerase_append_left here]
        · rw [List.kerase_append_right here, List.kerase_of_notMem_keys absent,
            List.kerase_of_notMem_keys here]
  exact grown ∅ m rfl

/-- Rows written under new and distinct keys are added as they are. -/
theorem upsertAll_perm {m : Rows K V} {es : List (K × V)} (fresh : ∀ e ∈ es, e.1 ∉ m)
    (distinct : (es.map Prod.fst).Nodup) :
    (m.upsertAll es).entries.Perm ((es.map fun e => ⟨e.1, e.2⟩) ++ m.entries) := by
  induction es generalizing m with
  | nil => exact .refl _
  | cons e es ih =>
      rw [List.map_cons, List.nodup_cons] at distinct
      have absent := fresh e List.mem_cons_self
      have later := ih (m := m.insert e.1 e.2) ?_ distinct.2
      · rw [AList.entries_insert_of_notMem absent] at later
        exact later.trans List.perm_middle
      · intro e' mem here
        rcases (AList.mem_insert m).mp here with same | old
        · exact distinct.1 (List.mem_map.mpr ⟨e', mem, same⟩)
        · exact fresh e' (List.mem_cons_of_mem _ mem) old

/-- The keys after a bulk delete. -/
theorem mem_eraseAll {m : Rows K V} {ks : List K} {k : K} :
    k ∈ m.eraseAll ks ↔ k ∈ m ∧ k ∉ ks := by
  induction ks generalizing m with
  | nil => simp
  | cons k' ks ih =>
      rw [eraseAll_cons, ih, AList.mem_erase, List.mem_cons]
      tauto

/-! ## Selections -/

/-- `DELETE … WHERE p`. -/
def deleteWhere (m : Rows K V) (p : K → V → Bool) : Rows K V where
  entries := m.entries.filter fun e => !p e.1 e.2
  nodupKeys := m.nodupKeys.sublist (by exact List.filter_sublist)

/-- `SELECT key … WHERE p`, in table order. -/
def keysWhere (m : Rows K V) (p : K → V → Bool) : List K :=
  (m.entries.filter fun e => p e.1 e.2).map Sigma.fst

theorem lookup_deleteWhere (m : Rows K V) (p : K → V → Bool) (k : K) :
    (deleteWhere m p).lookup k = (m.lookup k).filter fun v => !p k v := by
  apply Option.ext
  intro v
  rw [← mem_entries_iff, Option.filter_eq_some_iff, ← mem_entries_iff]
  simp [deleteWhere]

theorem deleteWhere_eq_self {m : Rows K V} {p : K → V → Bool}
    (none_match : ∀ k v, m.lookup k = some v → p k v = false) : deleteWhere m p = m := by
  apply AList.ext
  refine List.filter_eq_self.mpr fun e mem => ?_
  rw [none_match e.1 e.2 ((mem_entries_iff m e.1 e.2).mp mem)]
  rfl

theorem mem_keysWhere (m : Rows K V) (p : K → V → Bool) (k : K) :
    k ∈ keysWhere m p ↔ ∃ v, m.lookup k = some v ∧ p k v = true := by
  simp only [keysWhere, List.mem_map, List.mem_filter]
  constructor
  · rintro ⟨⟨k', v⟩, ⟨present, holds⟩, rfl⟩
    exact ⟨v, (mem_entries_iff m k' v).mp present, holds⟩
  · rintro ⟨v, found, holds⟩
    exact ⟨⟨k, v⟩, ⟨(mem_entries_iff m k v).mpr found, holds⟩, rfl⟩

omit [DecidableEq K] in
theorem nodup_keysWhere (m : Rows K V) (p : K → V → Bool) : (keysWhere m p).Nodup :=
  List.Nodup.sublist (List.Sublist.map _ List.filter_sublist) m.nodupKeys

/-- `SELECT … WHERE p`, in table order. -/
def select (m : Rows K V) (p : K → V → Bool) : List (K × V) :=
  (m.entries.filter fun e => p e.1 e.2).map fun e => (e.1, e.2)

theorem mem_select (m : Rows K V) (p : K → V → Bool) (k : K) (v : V) :
    (k, v) ∈ select m p ↔ m.lookup k = some v ∧ p k v = true := by
  simp only [select, List.mem_map, List.mem_filter]
  constructor
  · rintro ⟨⟨k', v'⟩, ⟨present, holds⟩, same⟩
    obtain ⟨rfl, rfl⟩ := Prod.mk.inj same
    exact ⟨(mem_entries_iff m k' v').mp present, holds⟩
  · rintro ⟨found, holds⟩
    exact ⟨⟨k, v⟩, ⟨(mem_entries_iff m k v).mpr found, holds⟩, rfl⟩

/-! ## Rewriting and accumulating values -/

/-- Rewrite every row's data. -/
def mapVals (m : Rows K V) (f : V → V) : Rows K V where
  entries := m.entries.map fun e => ⟨e.1, f e.2⟩
  nodupKeys := by
    have keys : (m.entries.map fun e => (⟨e.1, f e.2⟩ : Sigma fun _ : K => V)).keys =
        m.entries.keys := by simp [List.keys, Function.comp_def]
    rw [List.NodupKeys, keys]
    exact m.nodupKeys

theorem lookup_mapVals (m : Rows K V) (f : V → V) (k : K) :
    (mapVals m f).lookup k = (m.lookup k).map f := by
  apply Option.ext
  intro v
  rw [← mem_entries_iff, Option.map_eq_some_iff]
  simp only [mapVals, List.mem_map]
  constructor
  · rintro ⟨⟨k', w⟩, present, eq⟩
    simp only [Sigma.mk.injEq, heq_eq_eq] at eq
    obtain ⟨rfl, rfl⟩ := eq
    exact ⟨w, (mem_entries_iff m k' w).mp present, rfl⟩
  · rintro ⟨w, found, rfl⟩
    exact ⟨⟨k, w⟩, (mem_entries_iff m k w).mpr found, rfl⟩

/-- `*m.entry(k).or_default() += x` for every entry, in order. -/
def accumulate [AddMonoid V] (m : Rows K V) (es : List (K × V)) : Rows K V :=
  es.foldl (fun m e => m.insert e.1 ((m.lookup e.1).getD 0 + e.2)) m

theorem lookup_accumulate [AddMonoid V] (m : Rows K V) (es : List (K × V)) (k : K) :
    (accumulate m es).lookup k =
      if ∃ e ∈ es, e.1 = k then
        some ((m.lookup k).getD 0 + ((es.filter fun e => e.1 = k).map Prod.snd).sum)
      else m.lookup k := by
  induction es generalizing m with
  | nil => simp [accumulate]
  | cons e es ih =>
      rw [show accumulate m (e :: es) =
        accumulate (m.insert e.1 ((m.lookup e.1).getD 0 + e.2)) es from rfl, ih, lookup_insert_if]
      by_cases here : e.1 = k
      · subst here
        by_cases later : ∃ e' ∈ es, e'.1 = e.1
        · simp [later, add_assoc]
        · have none : es.filter (fun e' => decide (e'.1 = e.1)) = [] :=
            List.filter_eq_nil_iff.mpr fun e' mem => by simpa using fun same => later ⟨e', mem, same⟩
          rw [if_neg later]
          simp [none]
      · have rest : (∃ e' ∈ e :: es, e'.1 = k) ↔ ∃ e' ∈ es, e'.1 = k := by
          rw [List.exists_mem_cons_iff, or_iff_right here]
        by_cases later : ∃ e' ∈ es, e'.1 = k
        · rw [if_pos later, if_pos (rest.mpr later)]
          simp [here, Ne.symm here]
        · rw [if_neg later, if_neg (mt rest.mp later)]
          simp [Ne.symm here]

/-! ## Totals -/

/-- The sum of `f` over the rows. -/
def total (m : Rows K V) (f : V → Nat) : Nat := (m.entries.map fun e => f e.2).sum

omit [DecidableEq K] in
@[simp] theorem total_empty (f : V → Nat) : total (∅ : Rows K V) f = 0 := rfl

/-- Erasing a key takes its row out of the total. -/
theorem total_erase (m : Rows K V) (f : V → Nat) (k : K) :
    total (m.erase k) f + (m.lookup k).elim 0 f = total m f := by
  obtain ⟨es, nodup⟩ := m
  show ((es.kerase k).map fun e => f e.2).sum + (es.dlookup k).elim 0 f =
    (es.map fun e => f e.2).sum
  clear nodup
  induction es with
  | nil => rfl
  | cons e es ih =>
      obtain ⟨k', v⟩ := e
      by_cases here : k = k'
      · subst here
        simp [Nat.add_comm]
      · rw [List.kerase_cons_ne here, List.dlookup_cons_ne _ _ here]
        simp only [List.map_cons, List.sum_cons]
        omega

/-- Writing a key puts its row into the total, in place of the old one. -/
theorem total_insert (m : Rows K V) (f : V → Nat) (k : K) (v : V) :
    total (m.insert k v) f + (m.lookup k).elim 0 f = total m f + f v := by
  rw [← total_erase m f k]
  show (((⟨k, v⟩ : Sigma fun _ : K => V) :: m.entries.kerase k).map fun e => f e.2).sum + _ = _
  simp only [List.map_cons, List.sum_cons]
  show f v + total (m.erase k) f + _ = _
  omega

theorem total_eq_zero_iff (m : Rows K V) (f : V → Nat) :
    total m f = 0 ↔ ∀ k v, m.lookup k = some v → f v = 0 := by
  rw [total, List.sum_eq_zero_iff_forall_eq_nat]
  simp only [List.mem_map, forall_exists_index, and_imp, forall_apply_eq_imp_iff₂]
  constructor
  · exact fun zero k v found => zero ⟨k, v⟩ ((mem_entries_iff m k v).mpr found)
  · exact fun zero e mem => zero e.1 e.2 ((mem_entries_iff m e.1 e.2).mp mem)

end Rows

section LastOf

variable {K : Type u} {V : Type v} [DecidableEq K]

theorem lastOf_eq_none {es : List (K × V)} {k : K} :
    lastOf es k = none ↔ ∀ e ∈ es, e.1 ≠ k := by
  induction es with
  | nil => simp [lastOf]
  | cons e es ih =>
      rw [lastOf, Option.or_eq_none_iff, ih]
      by_cases h : e.1 = k <;> simp [h]

theorem mem_of_lastOf {es : List (K × V)} {k : K} {v : V} (last : lastOf es k = some v) :
    (k, v) ∈ es := by
  induction es with
  | nil => cases last
  | cons e es ih =>
      rw [lastOf, Option.or_eq_some_iff] at last
      rcases last with later | ⟨-, here⟩
      · exact List.mem_cons_of_mem _ (ih later)
      · split at here
        · rename_i same
          cases here
          rw [← same]
          exact List.mem_cons_self
        · cases here

/-- Where no key has two values, the last entry is the only one. -/
theorem lastOf_eq_some_iff {es : List (K × V)} {k : K} {v : V}
    (functional : ∀ w, (k, w) ∈ es → ∀ w', (k, w') ∈ es → w = w') :
    lastOf es k = some v ↔ (k, v) ∈ es := by
  refine ⟨mem_of_lastOf, fun listed => ?_⟩
  cases last : lastOf es k with
  | none => exact absurd rfl (lastOf_eq_none.mp last _ listed)
  | some w => rw [functional w (mem_of_lastOf last) v listed]

/-- An injective renaming of the keys renames the lookup. -/
theorem lastOf_map_key {L : Type u} [DecidableEq L] {f : K → L}
    (injective : ∀ k k', f k = f k' → k = k') (es : List (K × V)) (k : K) :
    lastOf (es.map fun e => (f e.1, e.2)) (f k) = lastOf es k := by
  induction es with
  | nil => rfl
  | cons e es ih =>
      have same : f e.1 = f k ↔ e.1 = k := ⟨injective _ _, congrArg f⟩
      simp only [List.map_cons, lastOf, ih, same]

omit [DecidableEq K] in
/-- With distinct keys, a key has one value. -/
theorem eq_of_nodup_fst {es : List (K × V)} (distinct : (es.map Prod.fst).Nodup) {k : K} {v w : V}
    (left : (k, v) ∈ es) (right : (k, w) ∈ es) : v = w := by
  have same := List.inj_on_of_nodup_map distinct left right rfl
  exact congrArg Prod.snd same

/-- A last entry that is kept is the last of the kept ones. -/
theorem lastOf_filter_of_keep {es : List (K × V)} {p : K × V → Bool} {k : K} {v : V}
    (last : lastOf es k = some v) (kept : p (k, v) = true) : lastOf (es.filter p) k = some v := by
  induction es with
  | nil => cases last
  | cons e es ih =>
      rw [lastOf, Option.or_eq_some_iff] at last
      rcases last with later | ⟨absent, here⟩
      · by_cases keepHead : p e = true
        · rw [List.filter_cons_of_pos keepHead, lastOf, ih later, Option.some_or]
        · rw [List.filter_cons_of_neg keepHead]
          exact ih later
      · obtain ⟨same, rfl⟩ := Option.ite_none_right_eq_some.mp here |>.imp id Option.some.inj
        have keepHead : p e = true := by rw [← same] at kept; exact kept
        have noneKept : lastOf (es.filter p) k = none :=
          lastOf_eq_none.mpr fun e' mem => lastOf_eq_none.mp absent e' (List.mem_filter.mp mem).1
        rw [List.filter_cons_of_pos keepHead, lastOf, noneKept, if_pos same, Option.none_or]

/-- A table written from a function. -/
theorem Rows.lookup_upsertAll_map {f : K → V} {ks : List K} {k : K} {v : V} :
    (Rows.upsertAll ∅ (ks.map fun k => (k, f k))).lookup k = some v ↔ k ∈ ks ∧ v = f k := by
  have functional : ∀ w, (k, w) ∈ ks.map (fun k => (k, f k)) → w = f k := by
    intro w mem
    obtain ⟨k', -, same⟩ := List.mem_map.mp mem
    cases same
    rfl
  rw [Rows.lookup_upsertAll, AList.lookup_empty, Option.or_none,
    lastOf_eq_some_iff fun w mem w' mem' => (functional w mem).trans (functional w' mem').symm]
  refine ⟨fun mem => ⟨?_, functional v mem⟩, fun ⟨mem, same⟩ => ?_⟩
  · obtain ⟨k', listed, same⟩ := List.mem_map.mp mem
    cases same
    exact listed
  · rw [same]
    exact List.mem_map_of_mem mem

end LastOf

/-! ## Reading a table -/

section HashOrder

/-- An order in which a table is read. -/
structure HashOrder (K : Type u) (V : Type v) where
  read : Rows K V → List (Sigma fun _ : K => V)
  perm : ∀ m, (read m).Perm m.entries

namespace HashOrder

variable {K : Type u} {V : Type v}

/-- The order in which a table was filled. -/
def filled : HashOrder K V := ⟨AList.entries, fun _ => .refl _⟩

@[simp] theorem filled_read (m : Rows K V) : (filled : HashOrder K V).read m = m.entries := rfl

/-- Every arrangement of the entries is an order. -/
theorem exists_read {m : Rows K V} {listing : List (Sigma fun _ : K => V)}
    (perm : listing.Perm m.entries) : ∃ order : HashOrder K V, order.read m = listing := by
  classical
  refine ⟨⟨fun other => if other = m then listing else other.entries, fun other => ?_⟩,
    if_pos rfl⟩
  by_cases same : other = m
  · rw [if_pos same, same]
    exact perm
  · rw [if_neg same]

end HashOrder

end HashOrder

end Ministr.Theory
