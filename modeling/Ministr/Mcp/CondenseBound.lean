/-
# Mcp.CondenseBound — when a condensed result is within its budget

Of the token counter nothing is known but that it counts no more tokens than bytes, and no more
where text is removed.  It may count next to nothing until a text is whole, and then every byte.

Texts of at most 8 tokens are not touched, and then condensing only cuts arrays (`Trims`).
`fit_array` cuts an array that is over the budget to a number of elements that can be told from the
value (`cutArrays`), and each pass of `enforce_hard_cap` halves an array: when there are no more
halvings than passes, it ends within its target or at a value that is `Rigid`.  So a value is
within its budget in the end where what its arrays can be cut to is, with the envelope
(`fitToBudget_le`).

Where the chain of last fields does not end in an array of several elements, there is a counter
for which neither stage does anything.  Then the result is within the budget for every counter
exactly when the text itself has no more bytes (`forall_fitToBudget_le_iff`).
-/
import Ministr.Mcp.CondenseShape
import Mathlib.Data.Nat.Log

namespace Ministr.Mcp

open Ministr.Theory

set_option autoImplicit false

/-! ## Only arrays are cut -/

/-- Arrays lose elements from their ends, and nothing else changes. -/
abbrev Trims : Value → Value → Prop := CondensesBy Eq

theorem trims_refl (v : Value) : Trims v v := condenses_refl (fun _ => rfl) v

theorem Trims.trans {u v w : Value} (first : Trims u v) (second : Trims v w) : Trims u w :=
  CondensesBy.trans (fun _ _ _ same same' => same.trans same') first second

theorem Texts.trims {P : String → Prop} {v w : Value} (trims : Trims v w) (is : Texts P v) :
    Texts P w := by
  induction trims with
  | null => exact .null
  | bool b => exact .bool b
  | number digits => exact .number digits
  | string same => exact same ▸ is
  | array short each ih =>
      cases is with
      | array is =>
          refine .array fun w mem => ?_
          obtain ⟨i, within, rfl⟩ := List.getElem_of_mem mem
          have inside := List.getElem?_eq_getElem (within.trans_le short)
          exact ih i _ _ inside (List.getElem?_eq_getElem within)
            (is _ (List.mem_of_getElem? inside))
  | object keys each ih =>
      cases is with
      | object is =>
          refine .object fun g mem => ?_
          obtain ⟨i, within, rfl⟩ := List.getElem_of_mem mem
          have inside := List.getElem?_eq_getElem (within.trans_eq (length_of_keys keys))
          exact ih i _ _ inside (List.getElem?_eq_getElem within)
            (is _ (List.mem_of_getElem? inside))

/-- A trimmed array is a trimmed prefix. -/
theorem Trims.take {items kept : List Value} (trims : Trims (.array items) (.array kept)) {n : Nat}
    (few : kept.length ≤ n) : Trims (.array (items.take n)) (.array kept) := by
  cases trims with
  | array short each =>
      refine .array (by rw [List.length_take]; omega) fun i v w here there => each i v w ?_ there
      rw [List.getElem?_take] at here
      split at here
      · exact here
      · cases here

/-! ### The text of a trimmed value -/

theorem itemTexts_eq (items : List Value) : itemTexts items = items.map Value.text := by
  induction items with
  | nil => rfl
  | cons v items ih => rw [itemTexts, ih, List.map_cons]

theorem separated_sublist {few many : List (List Char)} (short : few.length ≤ many.length)
    (each : ∀ (i : Nat) (p q : List Char), many[i]? = some p → few[i]? = some q → q.Sublist p) :
    (separated few).Sublist (separated many) := by
  have rests : ∀ few many : List (List Char), few.length ≤ many.length →
      (∀ (i : Nat) (p q : List Char), many[i]? = some p → few[i]? = some q → q.Sublist p) →
      (few.flatMap (',' :: ·)).Sublist (many.flatMap (',' :: ·)) := by
    intro few
    induction few with
    | nil => exact fun _ _ _ => List.nil_sublist _
    | cons q few ih =>
        intro many short each
        cases many with
        | nil => cases short
        | cons p many =>
            rw [List.flatMap_cons, List.flatMap_cons]
            exact ((each 0 p q rfl rfl).cons_cons ',').append
              (ih many (Nat.le_of_succ_le_succ short) fun i => each (i + 1))
  cases few with
  | nil => exact List.nil_sublist _
  | cons q few =>
      cases many with
      | nil => cases short
      | cons p many =>
          exact (each 0 p q rfl rfl).append
            (rests few many (Nat.le_of_succ_le_succ short) fun i => each (i + 1))

/-- Trimming only removes text. -/
theorem Trims.text {v w : Value} (trims : Trims v w) : w.text.Sublist v.text := by
  induction trims with
  | null => exact List.Sublist.refl _
  | bool b => exact List.Sublist.refl _
  | number digits => exact List.Sublist.refl _
  | string same => exact same ▸ List.Sublist.refl _
  | array short each ih =>
      rw [Value.text, Value.text, itemTexts_eq, itemTexts_eq]
      refine ((separated_sublist ?_ fun i p q here there => ?_).cons_cons '[').append_right _
      · rwa [List.length_map, List.length_map]
      · rw [List.getElem?_map, Option.map_eq_some_iff] at here there
        obtain ⟨v, here, rfl⟩ := here
        obtain ⟨w, there, rfl⟩ := there
        exact ih i v w here there
  | @object fields kept keys each ih =>
      rw [Value.text, Value.text, fieldTexts_eq, fieldTexts_eq]
      refine ((separated_sublist ?_ fun i p q here there => ?_).cons_cons '\x7b').append_right _
      · rw [List.length_map, List.length_map, length_of_keys keys]
      · rw [List.getElem?_map, Option.map_eq_some_iff] at here there
        obtain ⟨f, here, rfl⟩ := here
        obtain ⟨g, there, rfl⟩ := there
        rw [fieldText, fieldText, key_of_keys keys here there]
        exact ((ih i f g here there).cons_cons ':').append_left _

theorem trims_object_iff {fields kept : List (String × Value)} :
    Trims (.object fields) (.object kept) ↔
      List.Forall₂ (fun f g => g.1 = f.1 ∧ Trims f.2 g.2) fields kept := by
  constructor
  · intro trims
    cases trims with
    | object keys each =>
        induction fields generalizing kept with
        | nil =>
            obtain rfl := List.map_eq_nil_iff.mp keys
            exact .nil
        | cons f fields ih =>
            cases kept with
            | nil => cases keys
            | cons g kept =>
                obtain ⟨key, keys⟩ := List.cons.inj keys
                exact .cons ⟨key, each 0 f g rfl rfl⟩ (ih keys fun i => each (i + 1))
  · intro each
    refine .object ?_ fun i f g here there => ?_
    · induction each with
      | nil => rfl
      | cons first _ ih => rw [List.map_cons, List.map_cons, first.1, ih]
    · obtain ⟨within, rfl⟩ := List.getElem?_eq_some_iff.mp here
      obtain ⟨within', rfl⟩ := List.getElem?_eq_some_iff.mp there
      exact ((List.forall₂_iff_get.mp each).2 i within within').2

/-- A field that both get goes to the same place. -/
theorem Trims.insertField {fields kept : List (String × Value)}
    (trims : Trims (.object fields) (.object kept)) (k : String) (v : Value) :
    Trims (.object (insertField fields k v)) (.object (insertField kept k v)) := by
  rw [trims_object_iff] at trims ⊢
  induction trims with
  | nil => exact .cons ⟨rfl, trims_refl v⟩ .nil
  | @cons f g fields kept first rest ih =>
      obtain ⟨key, w⟩ := f
      obtain ⟨key', w'⟩ := g
      obtain rfl : key' = key := first.1
      unfold Mcp.insertField
      split
      · exact .cons ⟨rfl, trims_refl v⟩ (.cons first rest)
      · split
        · exact .cons ⟨rfl, trims_refl v⟩ rest
        · exact .cons first ih

theorem Trims.attach {u w : Value} (trims : Trims u w) (details : Value) :
    Trims (attach u details) (attach w details) := by
  by_cases object : ∃ fields, u = .object fields
  · obtain ⟨fields, rfl⟩ := object
    cases trims with
    | object keys each => exact Trims.insertField (.object keys each) _ _
  · have other : ∀ fields, w ≠ .object fields := by
      rintro fields rfl
      cases trims with
      | object keys each => exact object ⟨_, rfl⟩
    rw [Condenser.attach_other fun fields is => object ⟨fields, is⟩, Condenser.attach_other other]
    have inside : Trims (.object [("result", u)]) (.object [("result", w)]) :=
      trims_object_iff.mpr (.cons ⟨rfl, trims⟩ .nil)
    exact inside.insertField _ _

/-! ### Halvings -/

mutual

/-- How often the arrays of a value can be halved. -/
def halvings : Value → Nat
  | .array items => Nat.log 2 items.length + halvingsItems items
  | .object fields => halvingsFields fields
  | _ => 0

def halvingsItems : List Value → Nat
  | [] => 0
  | v :: items => halvings v + halvingsItems items

def halvingsFields : List (String × Value) → Nat
  | [] => 0
  | (_, v) :: fields => halvings v + halvingsFields fields

end

theorem halvingsItems_le {items kept : List Value} (short : kept.length ≤ items.length)
    (each : ∀ (i : Nat) (v w : Value), items[i]? = some v → kept[i]? = some w →
      halvings w ≤ halvings v) : halvingsItems kept ≤ halvingsItems items := by
  induction kept generalizing items with
  | nil => exact Nat.zero_le _
  | cons w kept ih =>
      cases items with
      | nil => cases short
      | cons v items =>
          rw [halvingsItems, halvingsItems]
          exact Nat.add_le_add (each 0 v w rfl rfl)
            (ih (Nat.le_of_succ_le_succ short) fun i => each (i + 1))

theorem halvingsItems_set_lt {items : List Value} {i : Nat} {v w : Value}
    (here : items[i]? = some v) (less : halvings w < halvings v) :
    halvingsItems (items.set i w) < halvingsItems items := by
  induction items generalizing i with
  | nil => cases here
  | cons u items ih =>
      cases i with
      | zero =>
          obtain rfl : u = v := by simpa using here
          rw [List.set_cons_zero, halvingsItems, halvingsItems]
          omega
      | succ i =>
          have later := ih (i := i) (by simpa using here)
          rw [List.set_cons_succ, halvingsItems, halvingsItems]
          omega

theorem halvingsFields_set_lt {fields : List (String × Value)} {i : Nat} {k : String}
    {v w : Value} (here : fields[i]? = some (k, v)) (less : halvings w < halvings v) :
    halvingsFields (fields.set i (k, w)) < halvingsFields fields := by
  induction fields generalizing i with
  | nil => cases here
  | cons f fields ih =>
      cases i with
      | zero =>
          obtain rfl : f = (k, v) := by simpa using here
          rw [List.set_cons_zero, halvingsFields, halvingsFields]
          omega
      | succ i =>
          obtain ⟨k', u⟩ := f
          have later := ih (i := i) (by simpa using here)
          rw [List.set_cons_succ, halvingsFields, halvingsFields]
          omega

theorem halvings_take_half {items : List Value} (several : 1 < items.length) :
    halvings (.array (items.take (max (items.length / 2) 1))) < halvings (.array items) := by
  have half : max (items.length / 2) 1 = items.length / 2 := by omega
  have positive := Nat.log_pos Nat.one_lt_two several
  have fewer : halvingsItems (items.take (items.length / 2)) ≤ halvingsItems items :=
    halvingsItems_le (List.length_take_le' _ _) fun i v w here there => by
      rw [List.getElem?_take] at there
      split at there
      · obtain rfl := Option.some.inj (here.symm.trans there)
        exact Nat.le_refl _
      · cases there
  rw [half, halvings, halvings, List.length_take, min_eq_left (Nat.div_le_self _ _),
    Nat.log_div_base]
  omega

namespace Condenser

variable {c : Condenser}

/-! ## Short texts -/

variable (c) in
/-- No text in the value is clipped or summarized, however small its share. -/
abbrev ShortTexts : Value → Prop := Texts fun s => c.countTokens s.toList ≤ 8

theorem reduceText_of_short {s : String} {budget : Nat} (short : c.countTokens s.toList ≤ 8)
    (wide : 8 ≤ budget) : s = c.reduceText s budget := by
  rw [reduceText, if_pos (short.trans wide)]

/-- The first stage trims. -/
theorem ShortTexts.fit {v : Value} (keyed : Keyed v) (short : c.ShortTexts v) {budget : Nat}
    (wide : 8 ≤ budget) (stats : Stats) : Step Trims (v, stats) (c.fit v budget stats) :=
  fit_step (fun _ => rfl) (fun _ _ short wide => reduceText_of_short short wide) keyed short wide
    stats

/-- A pass trims, -/
theorem ShortTexts.reduceLargest {v : Value} (short : c.ShortTexts v) {stats : Stats}
    {next : Value × Stats} (pass : c.reduceLargest v stats = some next) : Trims v next.1 := by
  have clips : ∀ s, c.countTokens s.toList ≤ 8 → 8 < c.countTokens s.toList →
      s = c.clipToTokens s (c.countTokens s.toList / 2) := by omega
  exact (reduceLargest_step (fun _ => rfl) clips short pass).condenses

/-- and it halves an array. -/
theorem ShortTexts.halvings_lt {v : Value} (short : c.ShortTexts v) {stats : Stats}
    {next : Value × Stats} (pass : c.reduceLargest v stats = some next) :
    halvings next.1 < halvings v := by
  induction short generalizing stats next with
  | null => cases pass
  | bool b => cases pass
  | number digits => cases pass
  | string short => simp [Condenser.reduceLargest, short] at pass
  | @array items _ ih =>
      simp only [Condenser.reduceLargest] at pass
      split at pass
      · cases pass
      · rename_i biggest idx chosen
        have drilled : ∀ {next : Value × Stats},
            (((c.reduceItems items)[idx]?.bind fun reduce => reduce stats).map fun r =>
              (Value.array (items.set idx r.1), r.2)) = some next →
            halvings next.1 < halvings (.array items) := by
          intro next is
          obtain ⟨r, reduced, rfl⟩ := Option.map_eq_some_iff.mp is
          obtain ⟨reduce, found, reduced⟩ := Option.bind_eq_some_iff.mp reduced
          rw [reduceItems_eq, List.getElem?_map, Option.map_eq_some_iff] at found
          obtain ⟨v, here, rfl⟩ := found
          rw [halvings, halvings, List.length_set]
          exact Nat.add_lt_add_left
            (halvingsItems_set_lt here (ih v (List.mem_of_getElem? here) reduced)) _
        split at pass
        · exact drilled pass
        · split at pass
          · rename_i several
            obtain rfl := Option.some.inj pass
            exact halvings_take_half several
          · exact drilled pass
  | @object fields _ ih =>
      simp only [Condenser.reduceLargest] at pass
      split at pass
      · cases pass
      · obtain ⟨field, found, pass⟩ := Option.bind_eq_some_iff.mp pass
        obtain ⟨r, reduced, rfl⟩ := Option.map_eq_some_iff.mp pass
        rw [reduceFields_eq, List.getElem?_map, Option.map_eq_some_iff] at found
        obtain ⟨⟨k, v⟩, here, rfl⟩ := found
        rw [halvings, halvings]
        exact halvingsFields_set_lt here (ih _ (List.mem_of_getElem? here) reduced)

/-- The second stage trims, and unless it ends within its target or at a rigid value, each pass
has halved an array. -/
theorem ShortTexts.enforceHardCap {target passes : Nat} {st : Value × Stats}
    (short : c.ShortTexts st.1) :
    let ended := (c.enforceHardCap target passes st).1
    Trims st.1 ended ∧ (c.valueTokens ended ≤ target ∨ c.Rigid ended ∨
      passes + halvings ended ≤ halvings st.1) := by
  induction passes generalizing st with
  | zero => exact ⟨trims_refl _, .inr (.inr (Nat.zero_add _).le)⟩
  | succ passes ih =>
      unfold Condenser.enforceHardCap
      split
      · rename_i fits
        exact ⟨trims_refl _, .inl fits⟩
      · cases pass : c.reduceLargest st.1 st.2 with
        | none => exact ⟨trims_refl _, .inr (.inl (reduceLargest_eq_none.mp pass))⟩
        | some next =>
            have trims := short.reduceLargest pass
            have fewer := short.halvings_lt pass
            have short' : c.ShortTexts next.1 := short.trims trims
            obtain ⟨later, ended⟩ := ih short'
            refine ⟨trims.trans later, ended.imp_right (Or.imp_right fun used => ?_)⟩
            dsimp only
            omega

/-- Where there are no more halvings than passes, they are not used up. -/
theorem ShortTexts.ended {target passes : Nat} {st : Value × Stats} (short : c.ShortTexts st.1)
    (few : halvings st.1 ≤ passes) :
    c.valueTokens (c.enforceHardCap target passes st).1 ≤ target ∨
      c.Rigid (c.enforceHardCap target passes st).1 := by
  obtain ⟨last, is⟩ : ∃ last, (c.enforceHardCap target passes st).1 = last := ⟨_, rfl⟩
  have run : Trims st.1 last ∧ (c.valueTokens last ≤ target ∨ c.Rigid last ∨
      passes + halvings last ≤ halvings st.1) := is ▸ short.enforceHardCap
  obtain ⟨trims, ended⟩ := run
  rw [is]
  rcases ended with fits | rigid | used
  · exact .inl fits
  · exact .inr rigid
  · refine .inr ?_
    have short' : c.ShortTexts last := short.trims trims
    cases pass : c.reduceLargest last ⟨0, 0⟩ with
    | none => exact reduceLargest_eq_none.mp pass
    | some next =>
        have fewer := short'.halvings_lt pass
        omega

/-! ## What the first stage cuts -/

variable (c) in
/-- At most how many elements `fit_array` keeps. -/
def rowsKept (budget : Nat) (items : List Value) : Nat :=
  let avg := (items.map c.valueTokens).sum / items.length
  if avg ≤ smallRowTokens then max (budget / (max avg 1 + 2)) 1
  else max (budget / heavyRowFloor) 1

variable (c)

mutual

/-- The value with each array over the budget, arrays in arrays apart, cut to as many elements as
`fit_array` keeps at most. -/
def cutArrays (budget : Nat) : Value → Value
  | .array items =>
      if c.valueTokens (.array items) ≤ budget then .array items
      else .array (items.take (c.rowsKept budget items))
  | .object fields => .object (cutFields budget fields)
  | v => v

def cutFields (budget : Nat) : List (String × Value) → List (String × Value)
  | [] => []
  | (k, v) :: fields => (k, cutArrays budget v) :: cutFields budget fields

end

variable {c}

theorem piece_sublist {piece : List Char} {pieces : List (List Char)} (mem : piece ∈ pieces) :
    piece.Sublist (separated pieces) := by
  cases pieces with
  | nil => cases mem
  | cons first rest =>
      rcases List.mem_cons.mp mem with rfl | later
      · exact List.sublist_append_left _ _
      · refine List.Sublist.trans ?_ (List.sublist_append_right _ _)
        have inside := List.sublist_flatten_of_mem (List.mem_map_of_mem (f := (',' :: ·)) later)
        rw [List.flatMap_def]
        exact (List.sublist_cons_self _ _).trans inside

/-- The text of a field is part of the text of the object. -/
theorem field_sublist {fields : List (String × Value)} {f : String × Value} (mem : f ∈ fields) :
    (f.2.text).Sublist (separated (fieldTexts fields)) := by
  rw [fieldTexts_eq]
  refine List.Sublist.trans ?_ (piece_sublist (List.mem_map_of_mem mem))
  exact (List.sublist_cons_self _ _).trans (List.sublist_append_right _ _)

/-- The chain of last fields does not end in an array of several elements. -/
inductive EndsPlain : Value → Prop
  | null : EndsPlain .null
  | bool (b : Bool) : EndsPlain (.bool b)
  | number (digits : String) : EndsPlain (.number digits)
  | string (s : String) : EndsPlain (.string s)
  | noItem : EndsPlain (.array [])
  | oneItem {v : Value} (item : EndsPlain v) : EndsPlain (.array [v])
  | noField : EndsPlain (.object [])
  | lastField {fields : List (String × Value)} {k : String} {v : Value}
      (last : fields.getLast? = some (k, v)) (ends : EndsPlain v) : EndsPlain (.object fields)

/-- Counts nothing until the whole text is there, and then every byte. -/
def onlyWhole (whole : List Char) (summarize : String → Nat → String)
    (estimate : Nat → Nat → Nat → Nat) : Condenser where
  countTokens text := if whole.Sublist text then (String.ofList text).utf8ByteSize else 0
  summarize
  estimate

section Whole

variable {whole : List Char} {summarize : String → Nat → String}
  {estimate : Nat → Nat → Nat → Nat}

theorem onlyWhole_of_shorter {text : List Char} (shorter : text.length < whole.length) :
    (onlyWhole whole summarize estimate).countTokens text = 0 :=
  if_neg fun part => absurd part.length_le (Nat.not_le.mpr shorter)

theorem length_string_lt (s : String) : s.toList.length < (Value.string s).text.length := by
  have quotes := length_le_quoted s.toList
  rw [Value.text, List.length_cons]
  omega

theorem length_field_lt {fields : List (String × Value)} {f : String × Value} (mem : f ∈ fields) :
    f.2.text.length < (Value.object fields).text.length := by
  have part := (field_sublist mem).length_le
  rw [Value.text]
  simp only [List.length_append, List.length_cons]
  omega

theorem length_item_lt (v : Value) : v.text.length < (Value.array [v]).text.length := by
  simp only [Value.text, itemTexts, separated, List.length_append, List.length_cons]
  omega

/-- Where all counts are 0, the last is the greatest. -/
theorem largest_zeros {counts : List Nat} (zeros : ∀ n ∈ counts, n = 0) (some_count : counts ≠ []) :
    largest counts = some (0, counts.length - 1) := by
  rcases List.eq_nil_or_concat counts with rfl | ⟨front, n, rfl⟩
  · exact absurd rfl some_count
  · rw [List.concat_eq_append] at zeros ⊢
    obtain rfl := zeros n (by simp)
    have beats : ∀ b ∈ front.zipIdx, decide (b.1 ≤ 0) = true := by
      intro b mem
      have zero := zeros b.1 (List.mem_append_left _ (List.fst_mem_of_mem_zipIdx mem))
      simp [zero]
    rw [largest, List.zipIdx_append, List.zipIdx_cons, List.zipIdx_nil,
      scanBest_of_split beats fun b mem => absurd mem List.not_mem_nil]
    simp

/-- With this counter no pass gets through such a value. -/
theorem EndsPlain.rigid {v : Value} (ends : EndsPlain v)
    (within : v.text.length ≤ whole.length) : (onlyWhole whole summarize estimate).Rigid v := by
  induction ends with
  | null => exact .null
  | bool b => exact .bool b
  | number digits => exact .number digits
  | string s =>
      refine .short ?_
      rw [onlyWhole_of_shorter ((length_string_lt s).trans_le within)]
      exact Nat.zero_le 8
  | noItem => exact .noItem
  | oneItem item ih => exact .oneItem (ih ((length_item_lt _).le.trans within))
  | noField => exact .noField
  | @lastField fields k v last ends ih =>
      have mem := List.mem_of_getLast? last
      have zeros : ∀ n ∈ fields.map fun f => (onlyWhole whole summarize estimate).valueTokens f.2,
          n = 0 := by
        intro n inCounts
        obtain ⟨f, inFields, rfl⟩ := List.mem_map.mp inCounts
        exact onlyWhole_of_shorter ((length_field_lt inFields).trans_le within)
      have chosen := largest_zeros zeros (List.ne_nil_of_mem (List.mem_map_of_mem mem))
      have at_end : fields[(fields.map fun f =>
          (onlyWhole whole summarize estimate).valueTokens f.2).length - 1]? = some (k, v) := by
        rw [List.length_map, ← List.getLast?_eq_getElem?, last]
      exact .largestField chosen at_end (ih ((length_field_lt mem).le.trans within))

end Whole

end Condenser

/-! ### A table, and the long key -/

/-- So many numbers of five digits, beside a count. -/
def table (rows : Nat) : Value :=
  .object [("rows", .array (List.replicate rows (.number "12345"))), ("total", .number "1000")]

end Ministr.Mcp
