/-
# Mcp.CondenseShape — what condensing keeps

Neither stage adds a field, drops one or moves anything.  An array loses elements from its end
and texts are replaced; everything else stays at its place (`Condenses`).  `missing` counts what
the arrays of one value have lost against those of another.  A run goes through a chain of values
(`Condenser.history`): the given one, the one `fit` makes, and one after each pass of
`enforce_hard_cap`.  Each step condenses, and the number that is reported is what went missing in
all the steps together (`fitToBudget_shape`).

`fit_object` takes the fields by their cost and puts each back, so the order in which it counts is
not that of the fields; as the keys of a map are in order, the map has only one way to list them.
-/
import Ministr.Mcp.Condense
import Mathlib.Data.List.Perm.Basic

namespace Ministr.Mcp

set_option autoImplicit false

/-! ## Condensing, and what goes missing -/

/-- One value is a condensation of another: an array condenses a prefix, an object has the same
keys, and what is no text and holds nothing is the same; `texts` says what a text may become. -/
inductive CondensesBy (texts : String → String → Prop) : Value → Value → Prop
  | null : CondensesBy texts .null .null
  | bool (b : Bool) : CondensesBy texts (.bool b) (.bool b)
  | number (digits : String) : CondensesBy texts (.number digits) (.number digits)
  | string {s t : String} (becomes : texts s t) : CondensesBy texts (.string s) (.string t)
  | array {items kept : List Value} (short : kept.length ≤ items.length)
      (each : ∀ (i : Nat) (v w : Value), items[i]? = some v → kept[i]? = some w →
        CondensesBy texts v w) : CondensesBy texts (.array items) (.array kept)
  | object {fields kept : List (String × Value)} (keys : kept.map Prod.fst = fields.map Prod.fst)
      (each : ∀ (i : Nat) (f g : String × Value), fields[i]? = some f → kept[i]? = some g →
        CondensesBy texts f.2 g.2) : CondensesBy texts (.object fields) (.object kept)

/-- A text becomes any text. -/
abbrev Condenses : Value → Value → Prop := CondensesBy fun _ _ => True

mutual

/-- How many elements the arrays of a value have lost, at the places both values have. -/
def missing : Value → Value → Nat
  | .array items, .array kept => missingItems items kept
  | .object fields, .object kept => missingFields fields kept
  | _, _ => 0

def missingItems : List Value → List Value → Nat
  | v :: items, w :: kept => missing v w + missingItems items kept
  | items, _ => items.length

def missingFields : List (String × Value) → List (String × Value) → Nat
  | (_, v) :: fields, (_, w) :: kept => missing v w + missingFields fields kept
  | _, _ => 0

end

/-- What goes missing along a chain of values. -/
def dropped : List Value → Nat
  | v :: w :: rest => missing v w + dropped (w :: rest)
  | _ => 0

section Keys

variable {fields kept : List (String × Value)}

/-- Objects of one list of keys have as many fields, -/
theorem length_of_keys (keys : kept.map Prod.fst = fields.map Prod.fst) :
    kept.length = fields.length := by
  simpa only [List.length_map] using congrArg List.length keys

/-- and the same key at each place. -/
theorem key_of_keys (keys : kept.map Prod.fst = fields.map Prod.fst) {i : Nat}
    {f g : String × Value} (here : fields[i]? = some f) (there : kept[i]? = some g) :
    g.1 = f.1 := by
  have place := congrArg (fun l : List String => l[i]?) keys
  simpa [List.getElem?_map, here, there] using place

end Keys

section Condensing

variable {texts : String → String → Prop}

theorem condenses_refl (same : ∀ s, texts s s) (v : Value) : CondensesBy texts v v := by
  induction anyTexts v with
  | null => exact .null
  | bool b => exact .bool b
  | number digits => exact .number digits
  | @string s => exact .string (same s)
  | @array items _ ih =>
      refine .array le_rfl fun i v w here there => ?_
      obtain rfl := Option.some.inj (here.symm.trans there)
      exact ih v (List.mem_of_getElem? here)
  | @object fields _ ih =>
      refine .object rfl fun i f g here there => ?_
      obtain rfl := Option.some.inj (here.symm.trans there)
      exact ih f (List.mem_of_getElem? here)

theorem CondensesBy.trans (through : ∀ s t r, texts s t → texts t r → texts s r) {u v w : Value}
    (first : CondensesBy texts u v) (second : CondensesBy texts v w) : CondensesBy texts u w := by
  induction first generalizing w with
  | null => exact second
  | bool b => exact second
  | number digits => exact second
  | string becomes =>
      cases second with
      | string becomes' => exact .string (through _ _ _ becomes becomes')
  | array short each ih =>
      cases second with
      | array short' each' =>
          refine .array (short'.trans short) fun i u w here there => ?_
          have within : i < _ := (List.getElem?_eq_some_iff.mp there).1.trans_le short'
          have between := List.getElem?_eq_getElem within
          exact ih i u _ here between (each' i _ w between there)
  | object keys each ih =>
      cases second with
      | object keys' each' =>
          refine .object (keys'.trans keys) fun i f g here there => ?_
          have within : i < _ :=
            (List.getElem?_eq_some_iff.mp there).1.trans_eq (length_of_keys keys')
          have between := List.getElem?_eq_getElem within
          exact ih i f _ here between (each' i _ g between there)

end Condensing

mutual

theorem missing_self : ∀ v : Value, missing v v = 0
  | .null | .bool _ | .number _ | .string _ => by simp [missing]
  | .array items => by rw [missing, missingItems_self items]
  | .object fields => by rw [missing, missingFields_self fields]

theorem missingItems_self : ∀ items : List Value, missingItems items items = 0
  | [] => rfl
  | v :: items => by rw [missingItems, missing_self v, missingItems_self items]

theorem missingFields_self : ∀ fields : List (String × Value), missingFields fields fields = 0
  | [] => rfl
  | (k, v) :: fields => by rw [missingFields, missing_self v, missingFields_self fields]

end

section Lists

variable {items kept : List Value} {fields : List (String × Value)}

theorem missingItems_nil (items : List Value) : missingItems items [] = items.length := by
  cases items <;> rfl

/-- What an array loses is what it lost before, and its end. -/
theorem missingItems_append (back : List Value) (same : kept.length = items.length) :
    missingItems (items ++ back) kept = missingItems items kept + back.length := by
  induction items generalizing kept with
  | nil =>
      obtain rfl := List.eq_nil_of_length_eq_zero same
      simp [missingItems_nil]
  | cons v items ih =>
      cases kept with
      | nil => cases same
      | cons w kept =>
          rw [List.cons_append, missingItems, missingItems, ih (Nat.succ.inj same), Nat.add_assoc]

theorem missingItems_take (items : List Value) (n : Nat) :
    missingItems items (items.take n) = items.length - n := by
  by_cases within : n ≤ items.length
  · have cut : missingItems (items.take n ++ items.drop n) (items.take n) = _ :=
      missingItems_append (items.drop n) rfl
    rw [List.take_append_drop, missingItems_self, List.length_drop] at cut
    omega
  · rw [List.take_of_length_le (by omega), missingItems_self]
    omega

theorem missingItems_set {i : Nat} {v w : Value} (here : items[i]? = some v) :
    missingItems items (items.set i w) = missing v w := by
  induction items generalizing i with
  | nil => simp at here
  | cons u items ih =>
      cases i with
      | zero =>
          obtain rfl : u = v := by simpa using here
          rw [List.set_cons_zero, missingItems, missingItems_self, Nat.add_zero]
      | succ i =>
          rw [List.set_cons_succ, missingItems, missing_self, ih (by simpa using here), Nat.zero_add]

theorem missingFields_set {i : Nat} {k : String} {v w : Value} (here : fields[i]? = some (k, v)) :
    missingFields fields (fields.set i (k, w)) = missing v w := by
  induction fields generalizing i with
  | nil => simp at here
  | cons f fields ih =>
      cases i with
      | zero =>
          obtain rfl : f = (k, v) := by simpa using here
          rw [List.set_cons_zero, missingFields, missingFields_self, Nat.add_zero]
      | succ i =>
          obtain ⟨k', u⟩ := f
          rw [List.set_cons_succ, missingFields, missing_self, ih (by simpa using here), Nat.zero_add]

end Lists

/-! ## Nothing missing goes uncounted -/

theorem length_le_missingItems (items kept : List Value) :
    items.length ≤ missingItems items kept + kept.length := by
  induction items generalizing kept with
  | nil => simp
  | cons v items ih =>
      cases kept with
      | nil => simp [missingItems_nil]
      | cons w kept =>
          have later := ih kept
          simp only [missingItems, List.length_cons]
          omega

theorem missingItems_le {us vs ws : List Value} (short : ws.length ≤ vs.length)
    (each : ∀ (i : Nat) (u v w : Value), us[i]? = some u → vs[i]? = some v → ws[i]? = some w →
      missing u w ≤ missing u v + missing v w) :
    missingItems us ws ≤ missingItems us vs + missingItems vs ws := by
  induction us generalizing vs ws with
  | nil => simp [missingItems]
  | cons u us ih =>
      rcases vs with _ | ⟨v, vs⟩
      · obtain rfl := List.eq_nil_of_length_eq_zero (Nat.le_zero.mp short)
        simp [missingItems]
      · rcases ws with _ | ⟨w, ws⟩
        · have lost := length_le_missingItems us vs
          simp only [missingItems, List.length_cons]
          omega
        · have here := each 0 u v w rfl rfl rfl
          have later := ih (Nat.le_of_succ_le_succ short) fun i u v w inU inV inW =>
            each (i + 1) u v w inU inV inW
          simp only [missingItems]
          omega

theorem missingFields_le {us vs ws : List (String × Value)} (same : vs.length = us.length)
    (each : ∀ (i : Nat) (f g h : String × Value), us[i]? = some f → vs[i]? = some g →
      ws[i]? = some h → missing f.2 h.2 ≤ missing f.2 g.2 + missing g.2 h.2) :
    missingFields us ws ≤ missingFields us vs + missingFields vs ws := by
  induction us generalizing vs ws with
  | nil => simp [missingFields]
  | cons f us ih =>
      rcases vs with _ | ⟨g, vs⟩
      · cases same
      · rcases ws with _ | ⟨h, ws⟩
        · simp [missingFields]
        · have here := each 0 f g h rfl rfl rfl
          have later := ih (Nat.succ.inj same) fun i f g h inU inV inW =>
            each (i + 1) f g h inU inV inW
          simp only [missingFields]
          omega

/-- What is missing after two steps was missing after the first or went missing in the second. -/
theorem missing_le {u v w : Value} (first : Condenses u v) (second : Condenses v w) :
    missing u w ≤ missing u v + missing v w := by
  induction first generalizing w with
  | null => simp [missing]
  | bool b => simp [missing]
  | number digits => simp [missing]
  | string _ => simp [missing]
  | array short each ih =>
      cases second with
      | array short' each' =>
          refine missingItems_le short' fun i u v w inU inV inW => ?_
          exact ih i u v inU inV (each' i v w inV inW)
  | object keys each ih =>
      cases second with
      | object keys' each' =>
          refine missingFields_le (length_of_keys keys) fun i f g h inU inV inW => ?_
          exact ih i f g inU inV (each' i g h inV inW)

/-- What is missing at the end of a chain was counted along it. -/
theorem missing_le_dropped {v w : Value} {rest : List Value}
    (chain : (v :: rest).IsChain Condenses) (last : (v :: rest).getLast? = some w) :
    Condenses v w ∧ missing v w ≤ dropped (v :: rest) := by
  induction rest generalizing v with
  | nil =>
      obtain rfl := Option.some.inj last
      exact ⟨condenses_refl (fun _ => trivial) v, (missing_self v).le⟩
  | cons u rest ih =>
      obtain ⟨first, chain⟩ := List.isChain_cons_cons.mp chain
      rw [List.getLast?_cons_cons] at last
      obtain ⟨condenses, counted⟩ := ih chain last
      refine ⟨first.trans (fun _ _ _ _ _ => trivial) condenses, (missing_le first condenses).trans ?_⟩
      exact Nat.add_le_add_left counted _

/-! ## A step -/

/-- A value condensed as `R` has it, and what went missing counted. -/
structure Step (R : Value → Value → Prop) (before after : Value × Stats) : Prop where
  condenses : R before.1 after.1
  counted : after.2.omittedElements = before.2.omittedElements + missing before.1 after.1

theorem step_refl {R : Value → Value → Prop} {st : Value × Stats} (same : R st.1 st.1) :
    Step R st st :=
  ⟨same, by rw [missing_self, Nat.add_zero]⟩

section Steps

variable {texts : String → String → Prop}

theorem step_string {s t : String} (becomes : texts s t) (stats stats' : Stats)
    (same : stats'.omittedElements = stats.omittedElements) :
    Step (CondensesBy texts) (.string s, stats) (.string t, stats') :=
  ⟨.string becomes, by simp [missing, same]⟩

theorem condenses_take (same : ∀ s, texts s s) (items : List Value) (n : Nat) :
    CondensesBy texts (.array items) (.array (items.take n)) := by
  refine .array (List.length_take_le' _ _) fun i v w here there => ?_
  have within : items[i]? = some w := by
    rw [List.getElem?_take] at there
    split at there
    · exact there
    · cases there
  obtain rfl := Option.some.inj (here.symm.trans within)
  exact condenses_refl same v

/-- An array is cut. -/
theorem step_take (same : ∀ s, texts s s) (items : List Value) (n : Nat) (stats : Stats) :
    Step (CondensesBy texts) (.array items, stats)
      (.array (items.take n),
        { stats with omittedElements := stats.omittedElements + (items.length - n) }) :=
  ⟨condenses_take same items n, by simp only [missing, missingItems_take]⟩

theorem step_setItem (same : ∀ s, texts s s) {items : List Value} {i : Nat} {v : Value}
    {stats : Stats} {next : Value × Stats} (here : items[i]? = some v)
    (step : Step (CondensesBy texts) (v, stats) next) :
    Step (CondensesBy texts) (.array items, stats) (.array (items.set i next.1), next.2) := by
  refine ⟨.array (List.length_set).le fun j u w there set => ?_, ?_⟩
  · rw [List.getElem?_set] at set
    split at set
    · rename_i at_i
      subst at_i
      obtain rfl := Option.some.inj (here.symm.trans there)
      split at set
      · obtain rfl := Option.some.inj set
        exact step.condenses
      · cases set
    · obtain rfl := Option.some.inj (there.symm.trans set)
      exact condenses_refl same u
  · simp only [missing, missingItems_set here]
    exact step.counted

theorem step_setField (same : ∀ s, texts s s) {fields : List (String × Value)} {i : Nat}
    {k : String} {v : Value} {stats : Stats} {next : Value × Stats}
    (here : fields[i]? = some (k, v)) (step : Step (CondensesBy texts) (v, stats) next) :
    Step (CondensesBy texts) (.object fields, stats)
      (.object (fields.set i (k, next.1)), next.2) := by
  refine ⟨.object ?_ fun j f g there set => ?_, ?_⟩
  · apply List.ext_getElem?
    intro j
    rw [List.getElem?_map, List.getElem?_map, List.getElem?_set]
    split
    · rename_i at_i
      subst at_i
      have within := (List.getElem?_eq_some_iff.mp here).1
      rw [if_pos within, here]
      rfl
    · rfl
  · rw [List.getElem?_set] at set
    split at set
    · rename_i at_i
      subst at_i
      obtain rfl := Option.some.inj (here.symm.trans there)
      split at set
      · obtain rfl := Option.some.inj set
        exact step.condenses
      · cases set
    · obtain rfl := Option.some.inj (there.symm.trans set)
      exact condenses_refl same f.2
  · simp only [missing, missingFields_set here]
    exact step.counted

end Steps

/-! ## Maps in order -/

/-- The keys of a map, in order. -/
def InOrder (fields : List (String × Value)) : Prop := fields.Pairwise fun f g => f.1 < g.1

/-- A value whose maps list their keys in order. -/
inductive Keyed : Value → Prop
  | null : Keyed .null
  | bool (b : Bool) : Keyed (.bool b)
  | number (digits : String) : Keyed (.number digits)
  | string (s : String) : Keyed (.string s)
  | array {items : List Value} (each : ∀ v ∈ items, Keyed v) : Keyed (.array items)
  | object {fields : List (String × Value)} (inOrder : InOrder fields)
      (each : ∀ f ∈ fields, Keyed f.2) : Keyed (.object fields)

theorem insertField_perm {fields : List (String × Value)} {k : String} (v : Value)
    (fresh : ∀ f ∈ fields, f.1 ≠ k) : (insertField fields k v).Perm ((k, v) :: fields) := by
  obtain ⟨before, after, inserted, rfl | ⟨old, rfl⟩⟩ := insertField_cases fields k v
  · rw [inserted]
    exact List.perm_middle
  · exact absurd rfl (fresh (k, old) (by simp))

theorem InOrder.insertField {fields : List (String × Value)} (inOrder : InOrder fields) (k : String)
    (v : Value) : InOrder (insertField fields k v) := by
  induction fields with
  | nil => exact List.pairwise_singleton _ _
  | cons f fields ih =>
      obtain ⟨k', v'⟩ := f
      obtain ⟨first, later⟩ := List.pairwise_cons.mp inOrder
      unfold Mcp.insertField
      split
      · rename_i less
        refine List.pairwise_cons.mpr ⟨fun g mem => ?_, inOrder⟩
        rcases List.mem_cons.mp mem with rfl | mem
        · exact less
        · exact String.lt_trans less (first g mem)
      · rename_i notLess
        split
        · rename_i same
          subst same
          exact List.pairwise_cons.mpr ⟨first, later⟩
        · rename_i other
          refine List.pairwise_cons.mpr ⟨fun g mem => ?_, ih later⟩
          rcases Condenser.mem_insertField mem with rfl | mem
          · by_contra notMore
            exact other (String.le_antisymm (String.not_lt.mp notMore) (String.not_lt.mp notLess))
          · exact first g mem

/-- There is one way to list a map in order. -/
theorem InOrder.eq_of_perm {fields others : List (String × Value)} (inOrder : InOrder fields)
    (inOrder' : InOrder others) (perm : fields.Perm others) : fields = others :=
  perm.eq_of_pairwise (fun _ _ _ _ less more => absurd more (String.lt_asymm less)) inOrder inOrder'

namespace Condenser

variable {c : Condenser}

/-! ## The first stage -/

/-- A field, with what it is fitted to. -/
abbrev Fitted := String × Value × Value

def Fitted.given (r : Fitted) : String × Value := (r.1, r.2.1)

def Fitted.kept (r : Fitted) : String × Value := (r.1, r.2.2)

theorem missingFields_fitted (rows : List Fitted) :
    missingFields (rows.map Fitted.given) (rows.map Fitted.kept) =
      (rows.map fun r => missing r.2.1 r.2.2).sum := by
  induction rows with
  | nil => rfl
  | cons r rows ih =>
      obtain ⟨k, v, w⟩ := r
      rw [List.map_cons, List.map_cons, List.map_cons, List.sum_cons, ← ih]
      rfl

/-- An entry within the budget is as `R` has it, and so is one that is fitted to a share of it. -/
structure Entry.Fits (R : Value → Value → Prop) (budget : Nat) (e : Entry) : Prop where
  whole : e.cost ≤ budget → R e.value e.value
  fitted : 0 < e.cost → ∀ share stats, 8 ≤ share → share ≤ max budget 8 →
    Step R (e.value, stats) (e.fit share stats)

/-- Each entry is fitted, and the map takes it, wherever its key belongs. -/
theorem fitEntries_spec {R : Value → Value → Prop} {budget : Nat} {entries : List Entry}
    {out : List (String × Value)}
    (apart : (entries.map Entry.key ++ out.map Prod.fst).Nodup) (inOrder : InOrder out)
    (each : ∀ e ∈ entries, e.Fits R budget) {remaining : Nat} (small : remaining ≤ budget)
    (stats : Stats) :
    ∃ rows : List Fitted, rows.map Fitted.given = entries.map (fun e => (e.key, e.value)) ∧
      (∀ r ∈ rows, R r.2.1 r.2.2) ∧
      (c.fitEntries entries remaining out stats).1.Perm (rows.map Fitted.kept ++ out) ∧
      InOrder (c.fitEntries entries remaining out stats).1 ∧
      (c.fitEntries entries remaining out stats).2.omittedElements =
        stats.omittedElements + (rows.map fun r => missing r.2.1 r.2.2).sum := by
  induction entries generalizing remaining out stats with
  | nil => exact ⟨[], rfl, by simp, List.Perm.refl _, inOrder, by simp [fitEntries]⟩
  | cons e entries ih =>
      rw [List.map_cons, List.cons_append, List.nodup_cons] at apart
      obtain ⟨fresh, apart⟩ := apart
      have freshOut : ∀ f ∈ out, f.1 ≠ e.key := by
        intro f mem same
        exact fresh (same ▸ List.mem_append_right _ (List.mem_map_of_mem mem))
      have next : ∀ (remaining : Nat) (fitted : Value × Stats), remaining ≤ budget →
          Step R (e.value, stats) fitted →
          ∃ rows : List Fitted,
            rows.map Fitted.given = (e :: entries).map (fun e => (e.key, e.value)) ∧
            (∀ r ∈ rows, R r.2.1 r.2.2) ∧
            (c.fitEntries entries remaining (insertField out e.key fitted.1) fitted.2).1.Perm
              (rows.map Fitted.kept ++ out) ∧
            InOrder (c.fitEntries entries remaining (insertField out e.key fitted.1) fitted.2).1 ∧
            (c.fitEntries entries remaining (insertField out e.key fitted.1)
              fitted.2).2.omittedElements =
              stats.omittedElements + (rows.map fun r => missing r.2.1 r.2.2).sum := by
        intro remaining fitted small step
        have inserted := insertField_perm fitted.1 freshOut
        have apart' : (entries.map Entry.key ++
            (insertField out e.key fitted.1).map Prod.fst).Nodup := by
          have keys := (inserted.map Prod.fst).append_left (entries.map Entry.key)
          refine keys.nodup_iff.mpr ?_
          rw [List.map_cons]
          exact List.nodup_middle.mpr (List.nodup_cons.mpr ⟨fresh, apart⟩)
        obtain ⟨rows, given, condense, perm, inOrder', counted⟩ :=
          ih apart' (inOrder.insertField e.key fitted.1)
            (fun e' mem => each e' (List.mem_cons_of_mem _ mem)) small fitted.2
        refine ⟨(e.key, e.value, fitted.1) :: rows, ?_, ?_, ?_, inOrder', ?_⟩
        · rw [List.map_cons, List.map_cons, given]
          rfl
        · intro r mem
          rcases List.mem_cons.mp mem with rfl | mem
          · exact step.condenses
          · exact condense r mem
        · refine perm.trans ((inserted.append_left _).trans ?_)
          exact List.perm_middle
        · have here := step.counted
          rw [counted, List.map_cons, List.sum_cons]
          simp only at here ⊢
          omega
      obtain ⟨whole, fitted⟩ := each e List.mem_cons_self
      unfold fitEntries
      dsimp only
      split
      · rename_i cheap
        exact next _ (e.value, stats) (by omega) (step_refl (whole (by omega)))
      · rename_i dear
        have share := Nat.div_le_self
          (remaining - (c.countTokens e.key.toList + 4)) (entries.length + 1)
        exact next _ _ (by omega) (fitted (by omega) _ stats (by omega) (by omega))

theorem fitItems_eq (items : List Value) : c.fitItems items = items.map c.fit := by
  induction items with
  | nil => rfl
  | cons v items ih => rw [fitItems, ih, List.map_cons]

theorem fitRows_spec {R : Value → Value → Prop} {items : List Value} (share : Nat)
    (each : ∀ v ∈ items, ∀ stats, Step R (v, stats) (c.fit v share stats)) (stats : Stats) :
    (fitRows share (items.map c.fit) stats).1.length = items.length ∧
      (∀ (i : Nat) (v w : Value), items[i]? = some v →
        (fitRows share (items.map c.fit) stats).1[i]? = some w → R v w) ∧
      (fitRows share (items.map c.fit) stats).2.omittedElements =
        stats.omittedElements + missingItems items (fitRows share (items.map c.fit) stats).1 := by
  induction items generalizing stats with
  | nil => exact ⟨rfl, fun i v w here => by simp at here, rfl⟩
  | cons v items ih =>
      have first := each v List.mem_cons_self stats
      obtain ⟨length, condense, counted⟩ :=
        ih (fun v mem => each v (List.mem_cons_of_mem _ mem)) (c.fit v share stats).2
      rw [List.map_cons, fitRows]
      refine ⟨?_, fun i u w here there => ?_, ?_⟩
      · rw [List.length_cons, List.length_cons, length]
      · cases i with
        | zero =>
            obtain rfl : v = u := by simpa using here
            obtain rfl : (c.fit v share stats).1 = w := by simpa using there
            exact first.condenses
        | succ i => exact condense i u w (by simpa using here) (by simpa using there)
      · have here := first.counted
        simp only at here ⊢
        rw [missingItems, counted, here, Nat.add_assoc]

section Fit

variable {texts : String → String → Prop}

theorem fitArray_step (same : ∀ s, texts s s) {items : List Value}
    (each : ∀ v ∈ items, ∀ share stats, 8 ≤ share →
      Step (CondensesBy texts) (v, stats) (c.fit v share stats)) (budget : Nat) (stats : Stats) :
    Step (CondensesBy texts) (.array items, stats)
      (c.fitArray items (c.fitItems items) budget stats) := by
  unfold fitArray
  dsimp only
  split
  · exact step_refl (condenses_refl same _)
  · split
    · exact step_take same items _ stats
    · rw [fitItems_eq, ← List.map_take]
      generalize min (max (budget / heavyRowFloor) 1) items.length = n
      have wide : 8 ≤ max (budget / n) 16 := by omega
      generalize max (budget / n) 16 = share at wide
      obtain ⟨length, condense, counted⟩ := fitRows_spec share
        (fun v mem stats => each v (List.mem_of_mem_take mem) share stats wide)
        { stats with omittedElements := stats.omittedElements + (items.length - n) }
      refine ⟨.array ?_ fun i v w here there => ?_, ?_⟩
      · rw [length]
        exact List.length_take_le' _ _
      · have within := (List.getElem?_eq_some_iff.mp there).1
        rw [length, List.length_take] at within
        refine condense i v w ?_ there
        rw [List.getElem?_take, if_pos (by omega), here]
      · have cut := missingItems_append (items.drop n) length
        rw [List.take_append_drop, List.length_drop] at cut
        simp only [missing] at counted ⊢
        rw [cut, counted]
        omega

/-- The fields of a fitted object, at their places. -/
theorem fitObject_spec {R : Value → Value → Prop} {fields : List (String × Value)}
    (inOrder : InOrder fields) {budget : Nat}
    (each : ∀ e ∈ c.fitFields fields, e.Fits R budget) (stats : Stats) :
    ∃ kept, (c.fitObject (c.fitFields fields) budget stats).1 = .object kept ∧
      kept.map Prod.fst = fields.map Prod.fst ∧
      (∀ (i : Nat) (f g : String × Value), fields[i]? = some f → kept[i]? = some g → R f.2 g.2) ∧
      (c.fitObject (c.fitFields fields) budget stats).2.omittedElements =
        stats.omittedElements + missingFields fields kept := by
  have sorted := List.mergeSort_perm (c.fitFields fields) fun a b => a.cost ≤ b.cost
  have given : (c.fitFields fields).map (fun e => (e.key, e.value)) = fields := by
    rw [fitFields_eq, List.map_map]
    exact List.map_id' fields
  have keys : ((c.fitFields fields).map Entry.key).Nodup := by
    have distinct : (fields.map Prod.fst).Nodup := by
      refine List.pairwise_map.mpr (inOrder.imp fun less same => ?_)
      rw [same] at less
      exact String.lt_irrefl _ less
    rw [← given, List.map_map] at distinct
    exact distinct
  have apart : (((c.fitFields fields).mergeSort fun a b => a.cost ≤ b.cost).map Entry.key ++
      ([] : List (String × Value)).map Prod.fst).Nodup := by
    simpa using (sorted.map Entry.key).nodup_iff.mpr keys
  have fits : ∀ e ∈ (c.fitFields fields).mergeSort fun a b => a.cost ≤ b.cost,
      e.Fits R budget := fun e mem => each e (List.mem_mergeSort.mp mem)
  obtain ⟨rows, taken, condense, perm, inOrder', counted⟩ :=
    fitEntries_spec (c := c) apart List.Pairwise.nil fits le_rfl stats
  obtain ⟨rows', rfl, reordered⟩ : ∃ rows' : List Fitted, fields = rows'.map Fitted.given ∧ rows'.Perm rows := by
    have perm := (sorted.map fun e => (e.key, e.value)).symm
    rw [given, ← taken] at perm
    have through := (congrFun₂ (List.eq_map_comp_perm Fitted.given) fields rows).mpr perm
    exact through
  have kept : rows'.map Fitted.kept =
      (c.fitEntries ((c.fitFields (rows'.map Fitted.given)).mergeSort fun a b => a.cost ≤ b.cost)
        budget [] stats).1 := by
    refine InOrder.eq_of_perm ?_ inOrder' ?_
    · unfold InOrder at inOrder
      rw [List.pairwise_map] at inOrder
      exact List.pairwise_map.mpr inOrder
    · rw [List.append_nil] at perm
      exact (reordered.map Fitted.kept).trans perm.symm
  refine ⟨rows'.map Fitted.kept, ?_, ?_, fun i f g here there => ?_, ?_⟩
  · rw [kept]
    rfl
  · rw [List.map_map, List.map_map]
    rfl
  · rw [List.getElem?_map, Option.map_eq_some_iff] at here there
    obtain ⟨r, inRows, rfl⟩ := here
    obtain ⟨r', inRows', rfl⟩ := there
    obtain rfl := Option.some.inj (inRows.symm.trans inRows')
    exact condense r (reordered.subset (List.mem_of_getElem? inRows))
  · rw [missingFields_fitted]
    exact counted.trans (congrArg _ (reordered.map _).sum_nat.symm)

theorem fitObject_step (same : ∀ s, texts s s) {fields : List (String × Value)} (inOrder : InOrder fields)
    (each : ∀ f ∈ fields, ∀ share stats, 8 ≤ share →
      Step (CondensesBy texts) (f.2, stats) (c.fit f.2 share stats)) (budget : Nat)
    (stats : Stats) :
    Step (CondensesBy texts) (.object fields, stats)
      (c.fitObject (c.fitFields fields) budget stats) := by
  have fits : ∀ e ∈ c.fitFields fields, e.Fits (CondensesBy texts) budget := by
    intro e mem
    rw [fitFields_eq] at mem
    obtain ⟨f, inFields, rfl⟩ := List.mem_map.mp mem
    exact ⟨fun _ => condenses_refl same f.2,
      fun _ share stats wide _ => each f inFields share stats wide⟩
  obtain ⟨kept, is, keys, condense, counted⟩ := fitObject_spec inOrder fits stats
  refine ⟨?_, ?_⟩
  · rw [is]
    exact .object keys condense
  · rw [counted, is, missing]

/-- The first stage condenses, and counts what goes missing. -/
theorem fit_step (same : ∀ s, texts s s) {P : String → Prop}
    (reduced : ∀ s budget, P s → 8 ≤ budget → texts s (c.reduceText s budget)) {v : Value}
    (keyed : Keyed v) (is : Texts P v) {budget : Nat} (wide : 8 ≤ budget) (stats : Stats) :
    Step (CondensesBy texts) (v, stats) (c.fit v budget stats) := by
  induction keyed generalizing budget stats with
  | null => exact step_refl .null
  | bool b => exact step_refl (.bool b)
  | number digits => exact step_refl (.number digits)
  | string s =>
      simp only [fit]
      split
      · exact step_refl (.string (same s))
      · cases is with
        | string is => exact step_string (reduced s budget is wide) _ _ rfl
  | @array items _ ih =>
      simp only [fit]
      split
      · exact step_refl (condenses_refl same _)
      · cases is with
        | array each =>
            exact fitArray_step same (fun v mem _ stats wide => ih v mem (each v mem) wide stats)
              budget stats
  | @object fields inOrder _ ih =>
      simp only [fit]
      split
      · exact step_refl (condenses_refl same _)
      · cases is with
        | object each =>
            exact fitObject_step same inOrder
              (fun f mem _ stats wide => ih f mem (each f mem) wide stats) budget stats

end Fit

/-! ## The second stage -/

/-- A pass condenses, and counts what goes missing. -/
theorem reduceLargest_step {texts : String → String → Prop} (same : ∀ s, texts s s)
    {P : String → Prop}
    (clipped : ∀ s, P s → 8 < c.countTokens s.toList →
      texts s (c.clipToTokens s (c.countTokens s.toList / 2))) {v : Value} (is : Texts P v)
    {stats : Stats} {next : Value × Stats} (pass : c.reduceLargest v stats = some next) :
    Step (CondensesBy texts) (v, stats) next := by
  induction is generalizing stats next with
  | null => cases pass
  | bool b => cases pass
  | number digits => cases pass
  | @string s is =>
      simp only [reduceLargest] at pass
      split at pass
      · cases pass
      · rename_i long
        obtain rfl := Option.some.inj pass
        exact step_string (clipped s is (by omega)) _ _ rfl
  | @array items _ ih =>
      simp only [reduceLargest] at pass
      split at pass
      · cases pass
      · rename_i biggest idx chosen
        have drilled : ∀ {next : Value × Stats},
            (((c.reduceItems items)[idx]?.bind fun reduce => reduce stats).map fun r =>
              (Value.array (items.set idx r.1), r.2)) = some next →
            Step (CondensesBy texts) (.array items, stats) next := by
          intro next is
          obtain ⟨r, reduced, rfl⟩ := Option.map_eq_some_iff.mp is
          obtain ⟨reduce, found, reduced⟩ := Option.bind_eq_some_iff.mp reduced
          rw [reduceItems_eq, List.getElem?_map, Option.map_eq_some_iff] at found
          obtain ⟨v, here, rfl⟩ := found
          exact step_setItem same here (ih v (List.mem_of_getElem? here) reduced)
        split at pass
        · exact drilled pass
        · split at pass
          · obtain rfl := Option.some.inj pass
            exact step_take same items _ stats
          · exact drilled pass
  | @object fields _ ih =>
      simp only [reduceLargest] at pass
      split at pass
      · cases pass
      · obtain ⟨field, found, pass⟩ := Option.bind_eq_some_iff.mp pass
        obtain ⟨r, reduced, rfl⟩ := Option.map_eq_some_iff.mp pass
        rw [reduceFields_eq, List.getElem?_map, Option.map_eq_some_iff] at found
        obtain ⟨⟨k, v⟩, here, rfl⟩ := found
        exact step_setField same here (ih _ (List.mem_of_getElem? here) reduced)

variable (c) in
/-- The values `enforce_hard_cap` goes through. -/
def passStates (target : Nat) : Nat → Value × Stats → List Value
  | 0, st => [st.1]
  | passes + 1, st =>
      if c.valueTokens st.1 ≤ target then [st.1]
      else
        match c.reduceLargest st.1 st.2 with
        | none => [st.1]
        | some next => st.1 :: passStates target passes next

theorem passStates_cons (target passes : Nat) (st : Value × Stats) :
    ∃ rest, c.passStates target passes st = st.1 :: rest := by
  cases passes with
  | zero => exact ⟨[], rfl⟩
  | succ passes =>
      unfold passStates
      split
      · exact ⟨[], rfl⟩
      · split
        · exact ⟨[], rfl⟩
        · exact ⟨_, rfl⟩

/-- The second stage condenses, ends with the last of its values, and counts what goes missing
from each to the next. -/
theorem enforceHardCap_spec (target passes : Nat) (st : Value × Stats) :
    (c.passStates target passes st).IsChain Condenses ∧
      (c.passStates target passes st).getLast? = some (c.enforceHardCap target passes st).1 ∧
      (c.enforceHardCap target passes st).2.omittedElements =
        st.2.omittedElements + dropped (c.passStates target passes st) := by
  induction passes generalizing st with
  | zero => exact ⟨.singleton _, rfl, rfl⟩
  | succ passes ih =>
      unfold enforceHardCap passStates
      split
      · exact ⟨.singleton _, rfl, rfl⟩
      · cases pass : c.reduceLargest st.1 st.2 with
        | none => exact ⟨.singleton _, rfl, rfl⟩
        | some next =>
            have step : Step Condenses st next :=
              reduceLargest_step (fun _ => trivial) (fun _ _ _ => trivial) (anyTexts st.1) pass
            obtain ⟨chain, last, counted⟩ := ih next
            obtain ⟨rest, values⟩ := passStates_cons (c := c) target passes next
            have here := step.counted
            simp only [values] at chain last counted ⊢
            refine ⟨List.isChain_cons_cons.mpr ⟨step.condenses, chain⟩, ?_, ?_⟩
            · rw [List.getLast?_cons_cons, last]
            · rw [dropped, counted, here, Nat.add_assoc]

/-! ## The whole result -/

variable (c) in
/-- The values a condensation goes through: what is given, what the first stage makes of it, and
what each pass makes of that. -/
def history (value : Value) (budget : Nat) : List Value :=
  let target := max (budget - envelopeReserve) (minBudget / 2)
  value :: c.passStates target 256 (c.fit value target ⟨0, 0⟩)

end Condenser

open Condenser (Unmarked)

/-- A value without the envelope. -/
def withoutEnvelope : Value → Value
  | .object fields => .object (fields.filter (·.1 ≠ "_condensed"))
  | other => other

def Value.field (v : Value) (key : String) : Option Value :=
  match v with
  | .object fields => (fields.find? (·.1 = key)).map Prod.snd
  | _ => none

/-- The count in the envelope. -/
def omittedElements (v : Value) : Option Value :=
  (v.field "_condensed").bind (·.field "omitted_elements")

theorem withoutEnvelope_attach {fields : List (String × Value)}
    (unmarked : Unmarked (.object fields)) (details : Value) :
    withoutEnvelope (attach (.object fields) details) = .object fields := by
  obtain ⟨before, after, inserted, rfl | ⟨old, rfl⟩⟩ :=
    insertField_cases fields "_condensed" details
  · have others : ∀ f ∈ before ++ after, decide (f.1 ≠ "_condensed") = true := fun f mem =>
      decide_eq_true (unmarked f mem)
    have kept := List.filter_eq_self.mpr others
    simp only [attach, withoutEnvelope, inserted]
    rw [List.filter_append, List.filter_cons_of_neg (by simp), ← List.filter_append, kept]
  · exact absurd rfl (unmarked ("_condensed", old) (by simp))

theorem field_attach {fields : List (String × Value)} (unmarked : Unmarked (.object fields))
    (details : Value) : (attach (.object fields) details).field "_condensed" = some details := by
  obtain ⟨before, after, inserted, rfl | ⟨old, rfl⟩⟩ :=
    insertField_cases fields "_condensed" details
  · have others : before.find? (fun f => decide (f.1 = "_condensed")) = none := by
      rw [List.find?_eq_none]
      intro f mem
      simpa using unmarked f (List.mem_append_left _ mem)
    simp only [attach, Value.field, inserted]
    rw [List.find?_append, others, Option.none_or, List.find?_cons_of_pos (by simp)]
    rfl
  · exact absurd rfl (unmarked ("_condensed", old) (by simp))

theorem omittedElements_attach {fields : List (String × Value)}
    (unmarked : Unmarked (.object fields)) (budget original final : Nat) (stats : Stats) :
    omittedElements (attach (.object fields) (envelope budget original final stats)) =
      some (usizeValue stats.omittedElements) := by
  rw [omittedElements, field_attach unmarked, Option.bind_some, envelope_eq]
  simp [Value.field]

theorem Condenses.object_cases {fields : List (String × Value)} {v : Value}
    (condenses : Condenses (.object fields) v) :
    ∃ kept, v = .object kept ∧ kept.map Prod.fst = fields.map Prod.fst := by
  cases condenses with
  | object keys each => exact ⟨_, rfl, keys⟩

/-- **A condensed object is the object with texts replaced and arrays cut**, step by step, and the
count in its envelope is how many elements the cuts took. -/
theorem fitToBudget_shape (c : Condenser) {fields : List (String × Value)} (budget : Nat)
    (keyed : Keyed (.object fields)) (unmarked : Unmarked (.object fields)) :
    let out := c.fitToBudget (.object fields) budget
    let history := c.history (.object fields) budget
    (c.valueTokens (.object fields) ≤ budget → out = .object fields) ∧
      (budget < c.valueTokens (.object fields) →
        Condenses (.object fields) (withoutEnvelope out) ∧
        history.IsChain Condenses ∧ history.getLast? = some (withoutEnvelope out) ∧
        omittedElements out = some (usizeValue (dropped history))) := by
  refine ⟨fun fits => if_pos fits, fun large => ?_⟩
  let target := max (budget - envelopeReserve) (minBudget / 2)
  let fitted := c.fit (.object fields) target ⟨0, 0⟩
  let reduced := c.enforceHardCap target 256 fitted
  have wide : 8 ≤ target := le_max_of_le_right (by decide)
  have first : Step Condenses (.object fields, ⟨0, 0⟩) fitted :=
    Condenser.fit_step (fun _ => trivial) (fun _ _ _ _ => trivial) keyed (anyTexts _) wide ⟨0, 0⟩
  obtain ⟨chain, last, counted⟩ := Condenser.enforceHardCap_spec (c := c) target 256 fitted
  obtain ⟨rest, values⟩ := Condenser.passStates_cons (c := c) target 256 fitted
  have history : c.history (.object fields) budget = .object fields :: fitted.1 :: rest :=
    congrArg (_ :: ·) values
  rw [values] at chain last counted
  have whole : (.object fields :: fitted.1 :: rest : List Value).IsChain Condenses :=
    List.isChain_cons_cons.mpr ⟨first.condenses, chain⟩
  have ends : (.object fields :: fitted.1 :: rest : List Value).getLast? = some reduced.1 := by
    rw [List.getLast?_cons_cons, last]
  have condenses := (missing_le_dropped whole ends).1
  obtain ⟨kept, payload, keys⟩ := condenses.object_cases
  have unmarkedKept : Unmarked (.object kept) := by
    intro f mem
    have inKeys : f.1 ∈ fields.map Prod.fst := keys ▸ List.mem_map_of_mem mem
    obtain ⟨f', given, same⟩ := List.mem_map.mp inKeys
    exact same ▸ unmarked f' given
  have out : c.fitToBudget (.object fields) budget = attach (.object kept)
      (envelope budget (c.valueTokens (.object fields)) (c.valueTokens (.object kept)) reduced.2) := by
    rw [← payload]
    exact if_neg (Nat.not_le.mpr large)
  have here := first.counted
  simp only [history]
  rw [out, withoutEnvelope_attach unmarkedKept, omittedElements_attach unmarkedKept, ← payload,
    counted, here, dropped, Nat.zero_add]
  exact ⟨condenses, whole, ends, rfl⟩

/-- Sixty zeros. -/
def zeros : List (String × Value) := [("rows", .array (List.replicate 60 (.number "0")))]

theorem fitToBudget_shape_zeros :
    let out := fourChars.fitToBudget (.object zeros) 20
    Condenses (.object zeros) (withoutEnvelope out) ∧
      omittedElements out =
        some (usizeValue (dropped (fourChars.history (.object zeros) 20))) := by
  have keyed : Keyed (.object zeros) := by
    refine .object (List.pairwise_singleton _ _) fun f mem => ?_
    obtain rfl := List.mem_singleton.mp mem
    refine .array fun v mem => ?_
    obtain rfl := List.eq_of_mem_replicate mem
    exact .number "0"
  have unmarked : Unmarked (.object zeros) := by
    intro f mem
    obtain rfl := List.mem_singleton.mp mem
    decide
  obtain ⟨condenses, -, -, counted⟩ :=
    (fitToBudget_shape fourChars 20 keyed unmarked).2 (by decide +kernel)
  exact ⟨condenses, counted⟩

end Ministr.Mcp
