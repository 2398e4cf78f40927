/-
# Service.DiffImpact — what the changes between two revisions can break

The lines a diff changes are mapped to the symbols that hold them (`diff_seed_set`), and the
impacts of these are put together: a symbol that several of them reach stands at its least depth.
Both lists are cut, at 200 symbols and at 500.

The list of changed symbols is complete unless it is full (`diffSeedSet_spec`), and what is cut
from the impacted symbols stands no nearer than what is kept (`computeDiffImpact_spec`).
-/
import Ministr.Git.Diff
import Ministr.Ingestion.Roots
import Ministr.Service.Impact

namespace Ministr.Service

open Ministr.Theory Ministr.Content Ministr.Git Ministr.Ingestion.Roots

set_option autoImplicit false

/-- `ChangedRange::overlaps`. -/
def overlaps (r : ChangedRange) (lo hi : Nat) : Bool := r.start ≤ hi && lo ≤ r.stop

structure DiffChangeAuthor where
  name : String
  lines : Nat
  deriving DecidableEq, Repr

/-- What `blame_range` says about the lines of a symbol. -/
structure BlameSummary where
  authors : List DiffChangeAuthor
  lastAuthor : Option String
  deriving DecidableEq, Repr

structure DiffChangedSymbol where
  symbolId : String
  name : String
  kind : String
  file : String
  line : Nat
  authors : List DiffChangeAuthor
  lastAuthor : Option String
  deriving DecidableEq, Repr

/-- The order of the changed symbols. -/
def DiffChangedSymbol.rank (c : DiffChangedSymbol) : String ×ₗ Nat := toLex (c.file, c.line)

structure DiffImpactResult where
  range : String
  changedFiles : Nat
  changedSymbols : List DiffChangedSymbol
  impactedSymbols : Nat
  impactedFiles : Nat
  impactedTests : Nat
  risk : ImpactRisk
  impacted : List ImpactCaller
  deriving DecidableEq, Repr

/-! ## The changed symbols -/

section Seeds

variable (s : ContentStore) (blameRange : String → Nat → Nat → Option BlameSummary)

/-- The symbols under the first of the keys that has any. -/
def symbolsUnder : List (List Char) → List SymbolRecord
  | [] => []
  | key :: keys =>
      let symbols := s.listSymbols fun row => row.filePath = String.ofList key
      if symbols = [] then symbolsUnder keys else symbols

/-- The symbols of a changed file. -/
def symbolsOf (dirRoots : List SourceRoot) (file : ChangedFile) : List SymbolRecord :=
  symbolsUnder s (symbolKeyCandidates file.path dirRoots)

/-- A changed symbol, with at most four of its authors. -/
def changedSymbol (sym : SymbolRecord) : DiffChangedSymbol :=
  let blame := blameRange sym.filePath sym.lineStart sym.lineEnd
  { symbolId := sym.id
    name := sym.name
    kind := sym.kind
    file := sym.filePath
    line := sym.lineStart
    authors := (blame.elim [] BlameSummary.authors).take 4
    lastAuthor := blame.bind BlameSummary.lastAuthor }

structure SeedState where
  seeds : List DiffChangedSymbol
  seedIds : Finset String
  changedFiles : Nat

/-- One symbol of a changed file, and whether the file has had one. -/
def takeSymbol (file : ChangedFile) (st : SeedState × Bool) (sym : SymbolRecord) :
    SeedState × Bool :=
  if (file.ranges.any fun r => overlaps r sym.lineStart sym.lineEnd) = true ∧
      sym.id ∉ st.1.seedIds then
    ({ st.1 with
        seeds := st.1.seeds ++ [changedSymbol blameRange sym]
        seedIds := insert sym.id st.1.seedIds }, true)
  else st

def takeFile (dirRoots : List SourceRoot) (st : SeedState) (file : ChangedFile) : SeedState :=
  let after := (symbolsOf s dirRoots file).foldl (takeSymbol blameRange file) (st, false)
  if after.2 then { after.1 with changedFiles := after.1.changedFiles + 1 } else after.1

/-- The files in turn, until there are enough symbols. -/
def takeFiles (dirRoots : List SourceRoot) (maxSeeds : Nat) :
    List ChangedFile → SeedState → SeedState
  | [], st => st
  | file :: files, st =>
      let st := takeFile s blameRange dirRoots st file
      if maxSeeds ≤ st.seeds.length then st else takeFiles dirRoots maxSeeds files st

/-- `diff_seed_set`. -/
def diffSeedSet (changed : List ChangedFile) (dirRoots : List SourceRoot) (maxSeeds : Nat) :
    List DiffChangedSymbol × Nat :=
  let st := takeFiles s blameRange dirRoots maxSeeds changed ⟨[], ∅, 0⟩
  ((st.seeds.mergeSort fun a b => a.rank ≤ b.rank).take maxSeeds, st.changedFiles)

end Seeds

/-! ## What they can break -/

section Union

variable (order : SetOrder SymbolRef) (mapOrder : HashOrder String ImpactCaller)
  (s : ContentStore)

/-- A reached symbol is entered, or moved up to a smaller depth. -/
def enterCaller (impacted : Rows String ImpactCaller) (c : ImpactCaller) :
    Rows String ImpactCaller :=
  match impacted.lookup c.symbolId with
  | none => impacted.insert c.symbolId c
  | some e =>
      if c.depth < e.depth then impacted.insert c.symbolId { e with depth := c.depth }
      else impacted

/-- The impact of one changed symbol is entered. -/
def enterImpact (maxDepth : Nat) (direction : CallDirection) (testsOnly : Bool)
    (impacted : Rows String ImpactCaller) (seed : DiffChangedSymbol) : Rows String ImpactCaller :=
  match computeImpact order s seed.symbolId maxDepth direction testsOnly with
  | .error _ => impacted
  | .ok ir => ir.callers.foldl enterCaller impacted

/-- `compute_diff_impact`, where `changedLines` asks git and `dirRoots` are the local roots that
are directories. -/
def computeDiffImpact (blameRange : String → Nat → Nat → Option BlameSummary)
    (changedLines : List Char → String → Option (List ChangedFile)) (dirRoots : List SourceRoot)
    (range : String) (maxDepth : Nat) (direction : CallDirection) (testsOnly : Bool) :
    DiffImpactResult :=
  let empty : DiffImpactResult :=
    { range, changedFiles := 0, changedSymbols := [], impactedSymbols := 0, impactedFiles := 0,
      impactedTests := 0, risk := .low, impacted := [] }
  match dirRoots with
  | [] => empty
  | repo :: _ =>
      match changedLines repo.path range with
      | none => empty
      | some changed =>
          let seeds := diffSeedSet s blameRange changed dirRoots 200
          let impactedMap :=
            seeds.1.foldl (enterImpact order s maxDepth direction testsOnly) ∅
          let impacted := (((mapOrder.read impactedMap).map Sigma.snd).mergeSort
            fun a b => a.rank ≤ b.rank).take 500
          let files := filesOf impacted
          let tests := files.filter fun file => isTestPath file
          { range
            changedFiles := seeds.2
            changedSymbols := seeds.1
            impactedSymbols := impacted.length
            impactedFiles := files.card
            impactedTests := tests.card
            risk := computeRisk impacted.length files.card tests.card
            impacted }

end Union

/-! ## The changed symbols, all of them unless there are too many -/

section Touched

variable {s : ContentStore} {blameRange : String → Nat → Nat → Option BlameSummary}
  {dirRoots : List SourceRoot} {file : ChangedFile} {files : List ChangedFile}

/-- A changed range of the file overlaps the lines of the symbol. -/
def Touches (file : ChangedFile) (sym : SymbolRecord) : Prop :=
  ∃ r ∈ file.ranges, r.start ≤ sym.lineEnd ∧ sym.lineStart ≤ r.stop

/-- One of the files touches a symbol that is stored for it. -/
def Touched (s : ContentStore) (dirRoots : List SourceRoot) (files : List ChangedFile)
    (sym : SymbolRecord) : Prop :=
  ∃ file ∈ files, sym ∈ symbolsOf s dirRoots file ∧ Touches file sym

theorem any_overlaps {sym : SymbolRecord} :
    (file.ranges.any fun r => overlaps r sym.lineStart sym.lineEnd) = true ↔ Touches file sym := by
  simp only [List.any_eq_true, overlaps, Bool.and_eq_true, decide_eq_true_eq, Touches]

theorem stored_of_mem_symbolsUnder {keys : List (List Char)} {sym : SymbolRecord}
    (mem : sym ∈ symbolsUnder s keys) : getSymbol s sym.id = some sym := by
  induction keys with
  | nil => exact absurd mem List.not_mem_nil
  | cons key keys ih =>
      rw [symbolsUnder] at mem
      split at mem
      · exact ih mem
      · rw [getSymbol, (ContentStore.mem_listSymbols.mp mem).1]
        rfl

theorem Touched.stored {sym : SymbolRecord} (touched : Touched s dirRoots files sym) :
    getSymbol s sym.id = some sym := by
  obtain ⟨file, -, mem, -⟩ := touched
  exact stored_of_mem_symbolsUnder mem

/-- The seeds are the symbols of a set, each once. -/
structure Seeded (blameRange : String → Nat → Nat → Option BlameSummary)
    (T : SymbolRecord → Prop) (st : SeedState) : Prop where
  distinct : (st.seeds.map DiffChangedSymbol.symbolId).Nodup
  known : ∀ id, id ∈ st.seedIds ↔ id ∈ st.seeds.map DiffChangedSymbol.symbolId
  mem_iff : ∀ seed, seed ∈ st.seeds ↔ ∃ sym, T sym ∧ seed = changedSymbol blameRange sym

theorem Seeded.congr {T T' : SymbolRecord → Prop} {st : SeedState}
    (seeded : Seeded blameRange T st) (same : ∀ sym, T sym ↔ T' sym) :
    Seeded blameRange T' st :=
  ⟨seeded.distinct, seeded.known, fun seed => by simp only [seeded.mem_iff, same]⟩

/-- One symbol of a file.  A symbol whose id is known is among the seeds already. -/
theorem Seeded.takeSymbol {T : SymbolRecord → Prop} (file : ChangedFile) {st : SeedState × Bool}
    {sym : SymbolRecord} (stored : ∀ sym, T sym → getSymbol s sym.id = some sym)
    (isStored : getSymbol s sym.id = some sym) (seeded : Seeded blameRange T st.1) :
    Seeded blameRange (fun other => T other ∨ (other = sym ∧ Touches file other))
      (Service.takeSymbol blameRange file st sym).1 := by
  rw [Service.takeSymbol]
  by_cases touches : Touches file sym
  · by_cases known : sym.id ∈ st.1.seedIds
    · rw [if_neg fun both => both.2 known]
      refine seeded.congr fun other => ⟨.inl, ?_⟩
      rintro (already | ⟨rfl, -⟩)
      · exact already
      · obtain ⟨seed, mem, same⟩ := List.mem_map.mp ((seeded.known other.id).mp known)
        obtain ⟨sym', isIn, rfl⟩ := (seeded.mem_iff seed).mp mem
        have found : getSymbol s other.id = some sym' := by
          rw [← same]
          exact stored sym' isIn
        obtain rfl := Option.some.inj (isStored.symm.trans found)
        exact isIn
    · rw [if_pos ⟨any_overlaps.mpr touches, known⟩]
      refine ⟨?_, fun id => ?_, fun seed => ?_⟩
      · rw [List.map_append, List.nodup_append]
        refine ⟨seeded.distinct, List.nodup_singleton _, fun id mem id' here same => known ?_⟩
        rw [seeded.known]
        obtain rfl := List.mem_singleton.mp here
        rwa [← show id = sym.id from same]
      · simp only [Finset.mem_insert, seeded.known, List.map_append, List.mem_append,
          List.map_singleton, List.mem_singleton, changedSymbol, or_comm]
      · simp only [List.mem_append, seeded.mem_iff, List.mem_singleton]
        constructor
        · rintro (⟨other, isIn, rfl⟩ | rfl)
          · exact ⟨other, .inl isIn, rfl⟩
          · exact ⟨sym, .inr ⟨rfl, touches⟩, rfl⟩
        · rintro ⟨other, isIn | ⟨rfl, -⟩, rfl⟩
          · exact .inl ⟨other, isIn, rfl⟩
          · exact .inr rfl
  · rw [if_neg fun both => touches (any_overlaps.mp both.1)]
    refine seeded.congr fun other => ⟨.inl, ?_⟩
    rintro (already | ⟨rfl, touches'⟩)
    · exact already
    · exact absurd touches' touches

theorem Seeded.takeSymbols {T : SymbolRecord → Prop} (file : ChangedFile) {st : SeedState × Bool}
    (stored : ∀ sym, T sym → getSymbol s sym.id = some sym) (syms : List SymbolRecord)
    (isStored : ∀ sym ∈ syms, getSymbol s sym.id = some sym) (seeded : Seeded blameRange T st.1) :
    Seeded blameRange (fun other => T other ∨ (other ∈ syms ∧ Touches file other))
      (syms.foldl (Service.takeSymbol blameRange file) st).1 := by
  induction syms generalizing T st with
  | nil => exact seeded.congr fun other => by simp
  | cons sym syms ih =>
      have here := isStored sym List.mem_cons_self
      have first := seeded.takeSymbol file stored here
      refine (ih ?_ (fun other mem => isStored other (List.mem_cons_of_mem _ mem)) first).congr
        fun other => ?_
      · rintro other (already | ⟨rfl, -⟩)
        · exact stored other already
        · exact here
      · rw [List.mem_cons]
        tauto

theorem Seeded.takeFile (file : ChangedFile) {st : SeedState}
    (seeded : Seeded blameRange (Touched s dirRoots files) st) :
    Seeded blameRange (Touched s dirRoots (files ++ [file]))
      (takeFile s blameRange dirRoots st file) := by
  have before : Seeded blameRange (Touched s dirRoots files) (st, false).1 := seeded
  have after := before.takeSymbols file (fun sym touched => touched.stored)
    (symbolsOf s dirRoots file) fun sym mem => stored_of_mem_symbolsUnder mem
  have whole : Seeded blameRange (Touched s dirRoots (files ++ [file]))
      ((symbolsOf s dirRoots file).foldl (Service.takeSymbol blameRange file) (st, false)).1 := by
    refine after.congr fun sym => ?_
    simp only [Touched, List.mem_append, List.mem_singleton]
    constructor
    · rintro (⟨other, mem, here, touches⟩ | ⟨here, touches⟩)
      · exact ⟨other, .inl mem, here, touches⟩
      · exact ⟨file, .inr rfl, here, touches⟩
    · rintro ⟨other, mem | rfl, here, touches⟩
      · exact .inl ⟨other, mem, here, touches⟩
      · exact .inr ⟨here, touches⟩
  rw [Service.takeFile]
  dsimp only
  split
  · exact ⟨whole.distinct, whole.known, whole.mem_iff⟩
  · exact whole

/-- The files that are looked at are all, or enough. -/
theorem Seeded.takeFiles (maxSeeds : Nat) (rest : List ChangedFile) {st : SeedState}
    (seeded : Seeded blameRange (Touched s dirRoots files) st) :
    ∃ more, more <+: rest ∧
      Seeded blameRange (Touched s dirRoots (files ++ more))
        (takeFiles s blameRange dirRoots maxSeeds rest st) ∧
      ((takeFiles s blameRange dirRoots maxSeeds rest st).seeds.length < maxSeeds →
        more = rest) := by
  induction rest generalizing files st with
  | nil => exact ⟨[], List.nil_prefix, by rwa [List.append_nil], fun _ => rfl⟩
  | cons file rest ih =>
      have after := seeded.takeFile file
      rw [Service.takeFiles]
      split
      · rename_i enough
        exact ⟨[file], by simp, after, fun few => absurd enough (Nat.not_le.mpr few)⟩
      · obtain ⟨more, within, whole, complete⟩ := ih after
        refine ⟨file :: more, by simpa using within, ?_, fun few => by rw [complete few]⟩
        rwa [List.append_assoc, List.singleton_append] at whole

/-- What the list of changed symbols must hold. -/
structure SeedSet (s : ContentStore) (blameRange : String → Nat → Nat → Option BlameSummary)
    (dirRoots : List SourceRoot) (changed : List ChangedFile) (maxSeeds : Nat)
    (seeds : List DiffChangedSymbol) : Prop where
  distinct : (seeds.map DiffChangedSymbol.symbolId).Nodup
  sorted : seeds.Pairwise fun a b => a.rank ≤ b.rank
  few : seeds.length ≤ maxSeeds
  touched : ∀ seed ∈ seeds, ∃ sym, Touched s dirRoots changed sym ∧
    seed = changedSymbol blameRange sym
  complete : seeds.length < maxSeeds → ∀ sym, Touched s dirRoots changed sym →
    changedSymbol blameRange sym ∈ seeds

/-- **The changed symbols are those that the diff touches, all of them unless the list is full.** -/
theorem diffSeedSet_spec (s : ContentStore)
    (blameRange : String → Nat → Nat → Option BlameSummary) (changed : List ChangedFile)
    (dirRoots : List SourceRoot) (maxSeeds : Nat) :
    SeedSet s blameRange dirRoots changed maxSeeds
      (diffSeedSet s blameRange changed dirRoots maxSeeds).1 := by
  have start : Seeded blameRange (Touched s dirRoots []) ⟨[], ∅, 0⟩ :=
    ⟨List.nodup_nil, fun id => by simp, fun seed => by simp [Touched]⟩
  obtain ⟨more, within, seeded, complete⟩ := start.takeFiles maxSeeds changed
  rw [List.nil_append] at seeded
  rw [diffSeedSet]
  dsimp only
  generalize takeFiles s blameRange dirRoots maxSeeds changed ⟨[], ∅, 0⟩ = st at seeded complete
  have perm := List.mergeSort_perm st.seeds fun a b => decide (a.rank ≤ b.rank)
  have sorted : (st.seeds.mergeSort fun a b => a.rank ≤ b.rank).Pairwise
      fun a b => a.rank ≤ b.rank := pairwise_mergeSort_key DiffChangedSymbol.rank st.seeds
  refine ⟨?_, sorted.sublist (List.take_sublist _ _), ?_, fun seed mem => ?_, fun few sym touched => ?_⟩
  · exact ((perm.map _).nodup_iff.mpr seeded.distinct).sublist
      ((List.take_sublist _ _).map DiffChangedSymbol.symbolId)
  · rw [List.length_take]
    exact Nat.min_le_left _ _
  · obtain ⟨sym, ⟨file, isIn, rest⟩, same⟩ :=
      (seeded.mem_iff seed).mp (perm.mem_iff.mp (List.mem_of_mem_take mem))
    exact ⟨sym, ⟨file, within.subset isIn, rest⟩, same⟩
  · have short : st.seeds.length < maxSeeds := by
      rw [List.length_take, perm.length_eq] at few
      omega
    have all : (st.seeds.mergeSort fun a b => a.rank ≤ b.rank).take maxSeeds =
        st.seeds.mergeSort fun a b => a.rank ≤ b.rank :=
      List.take_of_length_le (by rw [perm.length_eq]; omega)
    rw [all]
    refine perm.mem_iff.mpr ((seeded.mem_iff _).mpr ⟨sym, ?_, rfl⟩)
    rw [complete short]
    exact touched

end Touched

/-! ## The impacts put together -/

section Together

variable {order : SetOrder SymbolRef} {s : ContentStore} {impacted : Rows String ImpactCaller}
  {L : List ImpactCaller}

/-- Reports of one symbol differ in depth only. -/
def Alike (L : List ImpactCaller) : Prop :=
  ∀ c ∈ L, ∀ d ∈ L, c.symbolId = d.symbolId → { d with depth := c.depth } = c

/-- The table holds each of the reported symbols, at its least depth. -/
structure Shallowest (L : List ImpactCaller) (impacted : Rows String ImpactCaller) : Prop where
  entry : ∀ id c, impacted.lookup id = some c →
    c.symbolId = id ∧ c ∈ L ∧ ∀ d ∈ L, d.symbolId = id → c.depth ≤ d.depth
  entered : ∀ c ∈ L, c.symbolId ∈ impacted

theorem Shallowest.enter {c : ImpactCaller} (alike : Alike (L ++ [c]))
    (shallowest : Shallowest L impacted) : Shallowest (L ++ [c]) (enterCaller impacted c) := by
  have last : c ∈ L ++ [c] := by simp
  rw [enterCaller]
  cases found : impacted.lookup c.symbolId with
  | none =>
      have new : ∀ d ∈ L, d.symbolId ≠ c.symbolId := fun d mem same => by
        obtain ⟨e, isIn⟩ := (Rows.mem_iff_lookup _ _).mp (shallowest.entered d mem)
        rw [same, found] at isIn
        cases isIn
      refine ⟨fun id e isIn => ?_, fun d mem => ?_⟩
      · rw [Rows.lookup_insert_if] at isIn
        by_cases here : id = c.symbolId
        · rw [if_pos here] at isIn
          obtain rfl := Option.some.inj isIn
          refine ⟨here.symm, last, fun d mem same => ?_⟩
          rcases List.mem_append.mp mem with earlier | isLast
          · exact absurd (same.trans here) (new d earlier)
          · rw [List.mem_singleton.mp isLast]
        · rw [if_neg here] at isIn
          obtain ⟨same, mem, least⟩ := shallowest.entry id e isIn
          refine ⟨same, List.mem_append_left _ mem, fun d mem' same' => ?_⟩
          rcases List.mem_append.mp mem' with earlier | isLast
          · exact least d earlier same'
          · rw [List.mem_singleton.mp isLast] at same'
            exact absurd same'.symm here
      · rw [AList.mem_insert]
        rcases List.mem_append.mp mem with earlier | isLast
        · exact .inr (shallowest.entered d earlier)
        · rw [List.mem_singleton.mp isLast]
          exact .inl rfl
  | some e =>
      obtain ⟨same, mem, least⟩ := shallowest.entry _ e found
      have moved : { e with depth := c.depth } = c :=
        alike c last e (List.mem_append_left _ mem) same.symm
      have known : ∀ d ∈ L ++ [c], d.symbolId ∈ impacted := fun d mem' => by
        rcases List.mem_append.mp mem' with earlier | isLast
        · exact shallowest.entered d earlier
        · rw [List.mem_singleton.mp isLast]
          exact (Rows.mem_iff_lookup _ _).mpr ⟨e, found⟩
      have grown : ∀ id f, impacted.lookup id = some f → (id = c.symbolId → f.depth ≤ c.depth) →
          f.symbolId = id ∧ f ∈ L ++ [c] ∧ ∀ d ∈ L ++ [c], d.symbolId = id → f.depth ≤ d.depth := by
        intro id f isIn le
        obtain ⟨same', mem', least'⟩ := shallowest.entry id f isIn
        refine ⟨same', List.mem_append_left _ mem', fun d mem'' same'' => ?_⟩
        rcases List.mem_append.mp mem'' with earlier | isLast
        · exact least' d earlier same''
        · rw [List.mem_singleton.mp isLast] at same'' ⊢
          exact le same''.symm
      dsimp only
      by_cases less : c.depth < e.depth
      · rw [if_pos less, moved]
        refine ⟨fun id f isIn => ?_, fun d mem' => AList.mem_insert _ |>.mpr (.inr (known d mem'))⟩
        rw [Rows.lookup_insert_if] at isIn
        by_cases here : id = c.symbolId
        · rw [if_pos here] at isIn
          obtain rfl := Option.some.inj isIn
          refine ⟨here.symm, last, fun d mem' same' => ?_⟩
          rcases List.mem_append.mp mem' with earlier | isLast
          · exact less.le.trans (least d earlier (same'.trans here))
          · rw [List.mem_singleton.mp isLast]
        · rw [if_neg here] at isIn
          exact grown id f isIn fun same' => absurd same' here
      · rw [if_neg less]
        refine ⟨fun id f isIn => grown id f isIn ?_, known⟩
        rintro rfl
        obtain rfl := Option.some.inj (found.symm.trans isIn)
        exact Nat.not_lt.mp less

theorem Shallowest.foldl (cs : List ImpactCaller) (alike : Alike (L ++ cs))
    (shallowest : Shallowest L impacted) :
    Shallowest (L ++ cs) (cs.foldl enterCaller impacted) := by
  induction cs generalizing L impacted with
  | nil => rwa [List.append_nil]
  | cons c cs ih =>
      have whole : L ++ c :: cs = (L ++ [c]) ++ cs := by simp
      rw [whole] at alike ⊢
      refine ih alike (shallowest.enter fun a mem b mem' => ?_)
      exact alike a (List.mem_append_left _ mem) b (List.mem_append_left _ mem')

theorem shallowest_foldl (alike : Alike L) : Shallowest L (L.foldl enterCaller ∅) := by
  have none : Shallowest [] (∅ : Rows String ImpactCaller) :=
    ⟨fun id c found => absurd found (by simp), fun c mem => absurd mem List.not_mem_nil⟩
  have whole : Shallowest ([] ++ L) (L.foldl enterCaller ∅) := none.foldl L alike
  rwa [List.nil_append] at whole

/-- What the impact of one changed symbol lists. -/
def listed (order : SetOrder SymbolRef) (s : ContentStore) (maxDepth : Nat)
    (direction : CallDirection) (testsOnly : Bool) (seed : String) : List ImpactCaller :=
  match computeImpact order s seed maxDepth direction testsOnly with
  | .error _ => []
  | .ok ir => ir.callers

variable {maxDepth : Nat} {direction : CallDirection} {testsOnly : Bool}

theorem foldl_enterImpact (seeds : List DiffChangedSymbol) (impacted : Rows String ImpactCaller) :
    seeds.foldl (enterImpact order s maxDepth direction testsOnly) impacted =
      (seeds.flatMap fun seed =>
        listed order s maxDepth direction testsOnly seed.symbolId).foldl enterCaller impacted := by
  induction seeds generalizing impacted with
  | nil => rfl
  | cons seed seeds ih =>
      rw [List.foldl_cons, ih, List.flatMap_cons, List.foldl_append, enterImpact, listed]
      cases computeImpact order s seed.symbolId maxDepth direction testsOnly with
      | error => rfl
      | ok => rfl

theorem mem_listed {seed : String} (isStored : (getSymbol s seed).isSome) {c : ImpactCaller} :
    c ∈ listed order s maxDepth direction testsOnly seed ↔
      ∃ sym, getSymbol s c.symbolId = some sym ∧ c = impactCaller sym c.depth ∧
        c.symbolId ≠ seed ∧ c.depth ≤ min (max maxDepth 1) 10 ∧
        CallDistance s direction seed c.depth c.symbolId ∧
        (testsOnly = true → isTestPath c.file = true) := by
  rcases computeImpact_exact order s seed maxDepth direction testsOnly isStored with ⟨r, done, exact⟩
  rw [listed, done]
  have reports := exact.reports
  rw [exact.depth] at reports
  exact reports.mem_iff c

/-- One of the symbols reaches another over so many calls, and none over fewer. -/
def NearestDistance (s : ContentStore) (direction : CallDirection) (seeds : List String) (n : Nat)
    (id : String) : Prop :=
  (∃ seed ∈ seeds, id ≠ seed ∧ CallDistance s direction seed n id) ∧
    ∀ seed ∈ seeds, id ≠ seed → ∀ m, CallDistance s direction seed m id → n ≤ m

/-- What the list of impacted symbols must hold before it is cut. -/
structure UnionReports (s : ContentStore) (seeds : List String) (cap : Nat)
    (direction : CallDirection) (testsOnly : Bool) (callers : List ImpactCaller) : Prop where
  distinct : (callers.map ImpactCaller.symbolId).Nodup
  sorted : callers.Pairwise fun a b => a.rank ≤ b.rank
  mem_iff : ∀ c, c ∈ callers ↔ ∃ sym, getSymbol s c.symbolId = some sym ∧
    c = impactCaller sym c.depth ∧ c.depth ≤ cap ∧
    NearestDistance s direction seeds c.depth c.symbolId ∧
    (testsOnly = true → isTestPath c.file = true)

theorem alike_listed (order : SetOrder SymbolRef) (maxDepth : Nat) (direction : CallDirection)
    (testsOnly : Bool) {seeds : List DiffChangedSymbol}
    (stored : ∀ seed ∈ seeds, (getSymbol s seed.symbolId).isSome) :
    Alike (seeds.flatMap fun seed =>
      listed order s maxDepth direction testsOnly seed.symbolId) := by
  intro c mem d mem' same
  obtain ⟨seed, isSeed, isListed⟩ := List.mem_flatMap.mp mem
  obtain ⟨seed', isSeed', isListed'⟩ := List.mem_flatMap.mp mem'
  obtain ⟨sym, found, whole, -⟩ := (mem_listed (stored seed isSeed)).mp isListed
  obtain ⟨sym', found', whole', -⟩ := (mem_listed (stored seed' isSeed')).mp isListed'
  rw [same, found'] at found
  obtain rfl := Option.some.inj found
  rw [whole, whole']
  rfl

/-- **Each impacted symbol stands at its distance from the nearest of the changed ones.** -/
theorem union_reports (mapOrder : HashOrder String ImpactCaller) {seeds : List DiffChangedSymbol}
    (stored : ∀ seed ∈ seeds, (getSymbol s seed.symbolId).isSome) :
    UnionReports s (seeds.map DiffChangedSymbol.symbolId) (min (max maxDepth 1) 10) direction
      testsOnly (((mapOrder.read (seeds.foldl (enterImpact order s maxDepth direction testsOnly)
        ∅)).map Sigma.snd).mergeSort fun a b => a.rank ≤ b.rank) := by
  have shallowest := shallowest_foldl (alike_listed order maxDepth direction testsOnly stored)
  rw [foldl_enterImpact]
  generalize hL : (seeds.flatMap fun seed =>
    listed order s maxDepth direction testsOnly seed.symbolId) = L at shallowest
  have mem_L : ∀ c, c ∈ L ↔ ∃ seed ∈ seeds,
      c ∈ listed order s maxDepth direction testsOnly seed.symbolId := fun c => by
    rw [← hL, List.mem_flatMap]
  generalize L.foldl enterCaller ∅ = impacted at shallowest
  have value : ∀ c, c ∈ (mapOrder.read impacted).map Sigma.snd ↔
      impacted.lookup c.symbolId = some c := fun c => by
    rw [List.mem_map]
    constructor
    · rintro ⟨⟨id, c⟩, mem, rfl⟩
      have found := (Rows.mem_entries_iff _ _ _).mp ((mapOrder.perm impacted).mem_iff.mp mem)
      obtain ⟨rfl, -⟩ := shallowest.entry id c found
      exact found
    · intro found
      exact ⟨⟨c.symbolId, c⟩, (mapOrder.perm impacted).mem_iff.mpr
        ((Rows.mem_entries_iff _ _ _).mpr found), rfl⟩
  refine ⟨?_, pairwise_mergeSort_key ImpactCaller.rank _, fun c => ?_⟩
  · refine (((List.mergeSort_perm _ _).map ImpactCaller.symbolId).nodup_iff).mpr ?_
    have keys : ((mapOrder.read impacted).map Sigma.snd).map ImpactCaller.symbolId =
        (mapOrder.read impacted).map Sigma.fst := by
      rw [List.map_map]
      refine List.map_congr_left fun e mem => ?_
      have found := (Rows.mem_entries_iff _ _ _).mp ((mapOrder.perm impacted).mem_iff.mp mem)
      exact (shallowest.entry e.1 e.2 found).1
    rw [keys]
    exact ((mapOrder.perm impacted).map Sigma.fst).nodup_iff.mpr impacted.nodupKeys
  · rw [List.mem_mergeSort, value]
    constructor
    · intro found
      obtain ⟨-, mem, least⟩ := shallowest.entry _ c found
      obtain ⟨seed, isSeed, isListed⟩ := (mem_L c).mp mem
      obtain ⟨sym, isRead, whole, other, le, near, isTest⟩ :=
        (mem_listed (stored seed isSeed)).mp isListed
      refine ⟨sym, isRead, whole, le, ⟨⟨seed.symbolId, List.mem_map_of_mem isSeed, other, near⟩,
        fun id mem' other' m near' => ?_⟩, isTest⟩
      obtain ⟨seed', isSeed', rfl⟩ := List.mem_map.mp mem'
      by_contra less
      have moved : { c with depth := m } = impactCaller sym m := by rw [whole]; rfl
      have isListed' : { c with depth := m } ∈ L := (mem_L _).mpr ⟨seed', isSeed',
        (mem_listed (stored seed' isSeed')).mpr ⟨sym, isRead, moved, other',
          by dsimp only; omega, near', isTest⟩⟩
      exact less (least _ isListed' rfl)
    · rintro ⟨sym, isRead, whole, le, ⟨⟨id, mem, other, near⟩, nearest⟩, isTest⟩
      obtain ⟨seed, isSeed, rfl⟩ := List.mem_map.mp mem
      have isListed : c ∈ L := (mem_L c).mpr ⟨seed, isSeed,
        (mem_listed (stored seed isSeed)).mpr ⟨sym, isRead, whole, other, le, near, isTest⟩⟩
      obtain ⟨e, found⟩ := (Rows.mem_iff_lookup _ _).mp (shallowest.entered c isListed)
      obtain ⟨same, mem', least⟩ := shallowest.entry _ e found
      obtain ⟨seed', isSeed', isListed'⟩ := (mem_L e).mp mem'
      obtain ⟨sym', isRead', whole', other', -, near', -⟩ :=
        (mem_listed (stored seed' isSeed')).mp isListed'
      rw [same] at isRead' other' near'
      obtain rfl := Option.some.inj (isRead.symm.trans isRead')
      have further := nearest seed'.symbolId (List.mem_map_of_mem isSeed') other' e.depth near'
      have same' : c.depth = e.depth := Nat.le_antisymm further (least c isListed rfl)
      rw [found, whole, whole', same']

end Together

/-! ## The whole report -/

/-- A report of a diff is exact, up to what it cuts. -/
structure DiffImpactResult.Exact (s : ContentStore)
    (blameRange : String → Nat → Nat → Option BlameSummary) (dirRoots : List SourceRoot)
    (changed : List ChangedFile) (maxDepth : Nat) (direction : CallDirection) (testsOnly : Bool)
    (r : DiffImpactResult) : Prop where
  seeds : SeedSet s blameRange dirRoots changed 200 r.changedSymbols
  impacted : ∃ all, r.impacted = all.take 500 ∧
    UnionReports s (r.changedSymbols.map DiffChangedSymbol.symbolId) (min (max maxDepth 1) 10)
      direction testsOnly all
  symbols : r.impactedSymbols = r.impacted.length
  files : r.impactedFiles = (filesOf r.impacted).card
  tests : r.impactedTests = ((filesOf r.impacted).filter fun file => isTestPath file).card
  risk : r.risk = computeRisk r.impactedSymbols r.impactedFiles r.impactedTests

/-- **The impact of a diff**: the symbols it touches, all of them unless there are two hundred,
and the five hundred symbols next to them, whatever the orders in which references and tables are
read.  Without a local root, or where git fails, the report is empty. -/
theorem computeDiffImpact_spec (order : SetOrder SymbolRef)
    (mapOrder : HashOrder String ImpactCaller) (s : ContentStore)
    (blameRange : String → Nat → Nat → Option BlameSummary)
    (changedLines : List Char → String → Option (List ChangedFile)) (dirRoots : List SourceRoot)
    (range : String) (maxDepth : Nat) (direction : CallDirection) (testsOnly : Bool) :
    let r := computeDiffImpact order mapOrder s blameRange changedLines dirRoots range maxDepth
      direction testsOnly
    match dirRoots.head?.bind fun repo => changedLines repo.path range with
    | none => r.changedSymbols = [] ∧ r.impacted = [] ∧ r.risk = .low
    | some changed => r.Exact s blameRange dirRoots changed maxDepth direction testsOnly := by
  cases dirRoots with
  | nil => exact ⟨rfl, rfl, rfl⟩
  | cons repo others =>
      rw [computeDiffImpact]
      dsimp only [List.head?_cons, Option.bind_some]
      cases changedLines repo.path range with
      | none => exact ⟨rfl, rfl, rfl⟩
      | some changed =>
          have seeds := diffSeedSet_spec s blameRange changed (repo :: others) 200
          refine ⟨seeds, ⟨_, rfl, union_reports mapOrder fun seed mem => ?_⟩, rfl, rfl, rfl, rfl⟩
          obtain ⟨sym, touched, rfl⟩ := seeds.touched seed mem
          show (getSymbol s sym.id).isSome
          rw [touched.stored]
          rfl

end Ministr.Service
