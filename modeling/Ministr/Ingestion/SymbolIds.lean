/-
# Ingestion.SymbolIds — the ids of the symbols of one Rust file

`extract_symbols` walks the top level of a Rust file, and the bodies of its traits and impl
blocks; the symbols of a body carry the name of the trait, or of the type that is
implemented, as one more module.  `extract_code_symbols` makes an id of the path, the
modules and the name, with `impl-` before the name of an impl block, and the symbols table
keeps one row an id.

So an id says less than the file: two impl blocks for one type have the same id, whatever
they implement, and so have two methods of one name in different impl blocks for a type.
`noSymbolLost_iff` says exactly which names have to be apart.
-/
import Ministr.Ingestion.Symbols
import Ministr.Theory.Bytes
import Ministr.Theory.Forest

namespace Ministr.Ingestion

open Ministr.Theory Ministr.Content

set_option autoImplicit false

/-! ## The module path of a file -/

/-- The pieces of a path that `Path::components` yields, without the root and `.`. -/
def pathPieces (path : String) : List String :=
  ((path.toList.splitOn '/').map String.ofList).filter fun c => c ≠ "" ∧ c ≠ "."

/-- The text before the last dot, unless that is empty. -/
def fileStem (name : String) : String :=
  if '.' ∈ name.toList then
    let before := (name.toList.reverse.dropWhile (· ≠ '.')).drop 1
    if before.isEmpty then name else String.ofList before.reverse
  else name

/-- `Path::file_stem`. -/
def pathStem (path : String) : Option String :=
  match (pathPieces path).getLast? with
  | some name => if name = ".." then none else some (fileStem name)
  | none => none

/-- `module_path_from_file`. -/
def modulePathFromFile (relativePath : String) : List String :=
  let components := (pathPieces relativePath).filter fun c => c ≠ ".."
  let dirAndFile := (components.reverse.takeWhile (· ≠ "src")).reverse
  let stem := (pathStem relativePath).getD "unknown"
  dirAndFile.dropLast ++ (if stem ∈ ["lib", "main", "mod", "index"] then [] else [stem])

theorem ne_empty_of_mem_pathPieces {path c : String} (mem : c ∈ pathPieces path) : c ≠ "" := by
  have kept := List.of_mem_filter mem
  simp only [ne_eq, decide_eq_true_eq] at kept
  exact kept.1

theorem fileStem_ne_empty {name : String} (named : name ≠ "") : fileStem name ≠ "" := by
  unfold fileStem
  split
  · dsimp only
    split
    · exact named
    · rename_i some_before
      intro empty
      apply some_before
      simpa using congrArg String.toList empty
  · exact named

theorem ne_empty_of_mem_modulePathFromFile {path c : String} (mem : c ∈ modulePathFromFile path) :
    c ≠ "" := by
  simp only [modulePathFromFile] at mem
  rcases List.mem_append.mp mem with mem | mem
  · have listed := List.mem_reverse.mp (List.dropLast_subset _ mem)
    have piece := List.mem_reverse.mp (List.takeWhile_subset _ listed)
    exact ne_empty_of_mem_pathPieces (List.mem_of_mem_filter piece)
  · split at mem
    · cases mem
    · rw [List.mem_singleton.mp mem, pathStem]
      split
      · rename_i name last
        split
        · decide
        · exact fileStem_ne_empty (ne_empty_of_mem_pathPieces (List.mem_of_getLast? last))
      · decide

/-! ## Walking the file -/

/-- `ItemKind::from_node_kind`. -/
def ItemKind.fromNodeKind (kind : String) : Option ItemKind :=
  if kind = "function_item" then some .function
  else if kind = "struct_item" then some .struct
  else if kind = "enum_item" then some .enum
  else if kind = "trait_item" then some .trait
  else if kind = "impl_item" then some .impl
  else if kind = "mod_item" then some .module
  else if kind = "type_item" then some .type
  else if kind = "const_item" then some .const
  else if kind = "static_item" then some .static
  else none

/-- A node of the syntax tree with what the extractor reads of it: its kind, the texts of
its `name` and `type` fields, and its visibility, signature, documentation and place. -/
structure SyntaxNode where
  nodeKind : String
  name : Option String := none
  type : Option String := none
  visibility : String := ""
  signature : String := ""
  docComment : Option String := none
  lineStart : Nat := 0
  lineEnd : Nat := 0
  complexity : Nat := 0
  fullText : String := ""
  deriving DecidableEq, Repr

/-- The nodes of a file, each with the nodes of its `body`. -/
abbrev SyntaxForest := Forest SyntaxNode

/-- `extract_item_name`. -/
def SyntaxNode.itemName (node : SyntaxNode) (kind : ItemKind) : String :=
  if kind = .impl then node.type.getD "<unknown>" else node.name.getD "<unknown>"

/-- The symbol of a node in a module. -/
def SyntaxNode.symbol (node : SyntaxNode) (kind : ItemKind) (modulePath : List String) :
    CodeSymbol where
  name := node.itemName kind
  kind := kind
  visibility := node.visibility
  signature := node.signature
  docComment := node.docComment
  modulePath := modulePath
  lineStart := node.lineStart
  lineEnd := node.lineEnd
  cyclomaticComplexity := if kind = .function then some node.complexity else none
  fullText := node.fullText

/-- The items of a body, with their kinds. -/
def bodyItems (body : SyntaxForest) : List (SyntaxNode × ItemKind) :=
  body.roots.filterMap fun node => (ItemKind.fromNodeKind node.nodeKind).map (node, ·)

/-- The items of the top level, with their kinds and bodies. -/
def topItems (file : SyntaxForest) : List (SyntaxNode × ItemKind × SyntaxForest) :=
  file.trees.filterMap fun (node, body) =>
    (ItemKind.fromNodeKind node.nodeKind).map (node, ·, body)

/-- `extract_symbols`. -/
def extractSymbols (modulePath : List String) (file : SyntaxForest) : List CodeSymbol :=
  (topItems file).flatMap fun (node, kind, body) =>
    node.symbol kind modulePath ::
      if kind = .impl ∨ kind = .trait then
        (bodyItems body).map fun (member, memberKind) =>
          member.symbol memberKind (modulePath ++ [node.itemName kind])
      else []

/-! ## Rust files -/

/-- An identifier has none of the characters that hold an id together. -/
def IsIdentifier (name : String) : Prop := name ≠ "" ∧ ':' ∉ name.toList ∧ '-' ∉ name.toList

/-- A type as it is written; none begins like the name of an impl block. -/
def IsTypeText (text : String) : Prop := text ≠ "" ∧ ¬ "impl-".toList <+: text.toList

/-- The syntax tree of a Rust file: names are identifiers, and there are no impl blocks in
the bodies of traits and impl blocks. -/
structure RustFile where
  nodes : SyntaxForest
  names : ∀ node ∈ nodes.labels, ∀ name, node.name = some name → IsIdentifier name
  types : ∀ node ∈ nodes.labels, ∀ text, node.type = some text → IsTypeText text
  members : ∀ top ∈ topItems nodes, top.2.1 = .impl ∨ top.2.1 = .trait →
    ∀ member ∈ bodyItems top.2.2, member.2 ≠ .impl

/-- The names of the items on the top level that are not impl blocks. -/
def itemNames (file : SyntaxForest) : List String :=
  ((topItems file).filter fun (_, kind, _) => kind ≠ .impl).map fun (node, kind, _) =>
    node.itemName kind

/-- The types of the impl blocks. -/
def implTypes (file : SyntaxForest) : List String :=
  ((topItems file).filter fun (_, kind, _) => kind = .impl).map fun (node, kind, _) =>
    node.itemName kind

/-- The items in the bodies of traits and impl blocks, each under the name of its trait or
the type of its impl block. -/
def memberNames (file : SyntaxForest) : List (String × String) :=
  ((topItems file).filter fun (_, kind, _) => kind = .impl ∨ kind = .trait).flatMap
    fun (node, kind, body) => (bodyItems body).map fun (member, memberKind) =>
      (node.itemName kind, member.itemName memberKind)

/-! ## What an id says -/

/-- What the id of a symbol tells apart in its file. -/
inductive SymbolKey where
  | item (name : String)
  | impl (type : String)
  | member (owner name : String)
  deriving DecidableEq, Repr

namespace SymbolKey

/-- The text of the key in the id. -/
def text : SymbolKey → List Char
  | item name => name.toList
  | impl type => "impl-".toList ++ type.toList
  | member owner name => owner.toList ++ "::".toList ++ name.toList

/-- The names are those of a Rust file. -/
def Proper : SymbolKey → Prop
  | item name => IsIdentifier name
  | impl _ => True
  | member owner name => IsTypeText owner ∧ IsIdentifier name

theorem item_text_ne {name : String} (proper : (item name).Proper) {k : SymbolKey}
    (other : ∀ n, k ≠ item n) : (item name).text ≠ k.text := by
  intro same
  cases k with
  | item n => exact other n rfl
  | impl type => exact proper.2.2 (by rw [show name.toList = _ from same]; simp [text])
  | member owner n => exact proper.2.1 (by rw [show name.toList = _ from same]; simp [text])

theorem impl_text_ne_member {type owner name : String} (proper : (member owner name).Proper) :
    (impl type).text ≠ (member owner name).text := by
  intro same
  apply proper.1.2
  simp only [text, List.append_assoc] at same
  rcases List.append_eq_append_iff.mp same with ⟨more, is, -⟩ | ⟨more, is, rest⟩
  · exact ⟨more, is.symm⟩
  · cases more with
    | nil =>
        rw [List.append_nil] at is
        rw [is]
    | cons c more =>
        -- the separator would have to be in `impl-`
        have colon : ':' = c := by simpa using congrArg List.head? rest
        have within : c ∈ "impl-".toList := by
          rw [is]
          simp
        rw [← colon] at within
        exact absurd within (by decide)

/-- Two keys of one file with the same text are the same. -/
theorem text_injOn {k k' : SymbolKey} (proper : k.Proper) (proper' : k'.Proper)
    (same : k.text = k'.text) : k = k' := by
  cases k with
  | item name =>
      cases k' with
      | item name' => rw [String.toList_injective same]
      | impl type => exact absurd same (item_text_ne proper (by simp))
      | member owner n => exact absurd same (item_text_ne proper (by simp))
  | impl type =>
      cases k' with
      | item name => exact absurd same.symm (item_text_ne proper' (by simp))
      | impl type' =>
          rw [String.toList_injective (List.append_cancel_left same)]
      | member owner n => exact absurd same (impl_text_ne_member proper')
  | member owner name =>
      cases k' with
      | item name' => exact absurd same.symm (item_text_ne proper' (by simp))
      | impl type => exact absurd same.symm (impl_text_ne_member proper)
      | member owner' name' =>
          have backwards : name.toList.reverse ++ ':' :: ':' :: owner.toList.reverse =
              name'.toList.reverse ++ ':' :: ':' :: owner'.toList.reverse := by
            simpa [text] using congrArg List.reverse same
          obtain ⟨names, owners⟩ := append_cons_inj (by simpa using proper.2.2.1)
            (by simpa using proper'.2.2.1) backwards
          rw [String.toList_injective (List.reverse_injective names),
            String.toList_injective (List.reverse_injective (List.cons.inj owners).2)]

end SymbolKey

/-- The key of an item on the top level. -/
def topKey (node : SyntaxNode) (kind : ItemKind) : SymbolKey :=
  if kind = .impl then .impl (node.itemName kind) else .item (node.itemName kind)

/-- The keys of an item and its members. -/
def itemKeys (top : SyntaxNode × ItemKind × SyntaxForest) : List SymbolKey :=
  let (node, kind, body) := top
  topKey node kind ::
    if kind = .impl ∨ kind = .trait then
      (bodyItems body).map fun (member, memberKind) =>
        .member (node.itemName kind) (member.itemName memberKind)
    else []

/-- The keys of the symbols of a file. -/
def symbolKeys (file : SyntaxForest) : List SymbolKey := (topItems file).flatMap itemKeys

/-! ### Ids are keys -/

/-- What the ids of a file begin with. -/
def idStart (path : String) : List Char :=
  "sym-".toList ++ path.toList ++ "::".toList ++
    (if modulePathFromFile path = [] then []
      else ("::".intercalate (modulePathFromFile path)).toList ++ "::".toList)

theorem intercalate_ne_empty {parts : List String} (some_part : parts ≠ [])
    (named : ∀ c ∈ parts, c ≠ "") : "::".intercalate parts ≠ "" := by
  obtain ⟨c, parts, rfl⟩ := List.exists_cons_of_ne_nil some_part
  have first := named c List.mem_cons_self
  cases parts with
  | nil => simpa using first
  | cons d parts => simp [String.intercalate_cons_cons]

theorem symbolId_top (path : String) (node : SyntaxNode) (kind : ItemKind) :
    (symbolId path (node.symbol kind (modulePathFromFile path))).toList =
      idStart path ++ (topKey node kind).text := by
  by_cases root : modulePathFromFile path = []
  · by_cases isImpl : kind = .impl <;>
      simp [symbolId, idStart, SyntaxNode.symbol, topKey, SymbolKey.text, root, isImpl]
  · have named := intercalate_ne_empty root fun _ mem => ne_empty_of_mem_modulePathFromFile mem
    by_cases isImpl : kind = .impl <;>
      simp [symbolId, idStart, SyntaxNode.symbol, topKey, SymbolKey.text, root, named, isImpl]

theorem symbolId_member (path : String) {owner : String} (named : owner ≠ "") (member : SyntaxNode)
    {kind : ItemKind} (no_impl : kind ≠ .impl) :
    (symbolId path (member.symbol kind (modulePathFromFile path ++ [owner]))).toList =
      idStart path ++ (SymbolKey.member owner (member.itemName kind)).text := by
  have inModule : "::".intercalate (modulePathFromFile path ++ [owner]) ≠ "" := by
    refine intercalate_ne_empty (by simp) fun c mem => ?_
    rcases List.mem_append.mp mem with mem | mem
    · exact ne_empty_of_mem_modulePathFromFile mem
    · exact List.mem_singleton.mp mem ▸ named
  by_cases root : modulePathFromFile path = []
  · simp [symbolId, idStart, SyntaxNode.symbol, SymbolKey.text, root, named, no_impl]
  · rw [String.intercalate_append_of_ne_nil root (by simp)] at inModule
    simp [symbolId, idStart, SyntaxNode.symbol, SymbolKey.text, root, no_impl,
      String.intercalate_append_of_ne_nil root]

/-! ### The keys of a file -/

theorem IsIdentifier.isTypeText {name : String} (identifier : IsIdentifier name) :
    IsTypeText name := by
  refine ⟨identifier.1, fun starts => identifier.2.2 (starts.subset ?_)⟩
  decide

theorem isIdentifier_unknown : IsIdentifier "<unknown>" := by
  refine ⟨by decide, by decide, by decide⟩

theorem getD_of_forall {P : String → Prop} {o : Option String} {d : String} (default : P d)
    (given : ∀ x, o = some x → P x) : P (o.getD d) := by
  cases o with
  | none => exact default
  | some x => exact given x rfl

section File

variable (file : RustFile)

theorem mem_topItems {file : SyntaxForest} {top : SyntaxNode × ItemKind × SyntaxForest}
    (mem : top ∈ topItems file) : (top.1, top.2.2) ∈ file.trees := by
  obtain ⟨tree, listed, is⟩ := List.mem_filterMap.mp mem
  obtain ⟨kind, -, rfl⟩ := Option.map_eq_some_iff.mp is
  exact listed

theorem mem_bodyItems {body : SyntaxForest} {member : SyntaxNode × ItemKind}
    (mem : member ∈ bodyItems body) : member.1 ∈ body.labels := by
  obtain ⟨node, listed, is⟩ := List.mem_filterMap.mp mem
  obtain ⟨kind, -, rfl⟩ := Option.map_eq_some_iff.mp is
  exact Forest.mem_labels_of_mem_roots listed

theorem RustFile.isIdentifier {node : SyntaxNode} (mem : node ∈ file.nodes.labels)
    {kind : ItemKind} (no_impl : kind ≠ .impl) : IsIdentifier (node.itemName kind) := by
  rw [SyntaxNode.itemName, if_neg no_impl]
  exact getD_of_forall isIdentifier_unknown (file.names node mem)

theorem RustFile.isTypeText {node : SyntaxNode} (mem : node ∈ file.nodes.labels)
    (kind : ItemKind) : IsTypeText (node.itemName kind) := by
  by_cases isImpl : kind = .impl
  · rw [SyntaxNode.itemName, if_pos isImpl]
    exact getD_of_forall isIdentifier_unknown.isTypeText (file.types node mem)
  · exact (file.isIdentifier mem isImpl).isTypeText

theorem RustFile.proper_keys {k : SymbolKey} (mem : k ∈ symbolKeys file.nodes) : k.Proper := by
  obtain ⟨⟨node, kind, body⟩, top, mem⟩ := List.mem_flatMap.mp mem
  obtain ⟨here, below⟩ := Forest.mem_labels_of_mem_trees (mem_topItems top)
  rcases List.mem_cons.mp mem with rfl | mem
  · unfold topKey
    split
    · trivial
    · rename_i no_impl
      exact file.isIdentifier here no_impl
  · split at mem
    · rename_i owns
      obtain ⟨member, listed, rfl⟩ := List.mem_map.mp mem
      exact ⟨file.isTypeText here kind,
        file.isIdentifier (below _ (mem_bodyItems listed)) (file.members _ top owns _ listed)⟩
    · cases mem

/-- The ids of the symbols are the keys of the file. -/
theorem RustFile.ids_eq (path : String) :
    (extractSymbols (modulePathFromFile path) file.nodes).map
        (fun sym => (symbolId path sym).toList) =
      (symbolKeys file.nodes).map fun k => idStart path ++ k.text := by
  rw [extractSymbols, symbolKeys, List.map_flatMap, List.map_flatMap]
  refine List.flatMap_congr fun top listed => ?_
  obtain ⟨node, kind, body⟩ := top
  simp only [itemKeys, List.map_cons, symbolId_top]
  congr 1
  split
  · rename_i owns
    rw [List.map_map, List.map_map]
    refine List.map_congr_left fun member mem => ?_
    have here := (Forest.mem_labels_of_mem_trees (mem_topItems listed)).1
    exact symbolId_member path (file.isTypeText here kind).1 member.1
      (file.members _ listed owns _ mem)
  · rfl

theorem RustFile.ids_nodup_iff_keys (path : String) :
    ((extractSymbols (modulePathFromFile path) file.nodes).map (symbolId path)).Nodup ↔
      (symbolKeys file.nodes).Nodup := by
  have spelled : Function.Injective String.toList := fun _ _ same => String.toList_injective same
  rw [← List.nodup_map_iff spelled, List.map_map]
  show ((extractSymbols _ _).map fun sym => (symbolId path sym).toList).Nodup ↔ _
  rw [file.ids_eq]
  refine ⟨List.Nodup.of_map _, fun apart => ?_⟩
  refine (List.nodup_map_iff_inj_on apart).mpr fun k mem k' mem' same => ?_
  exact SymbolKey.text_injOn (file.proper_keys mem) (file.proper_keys mem')
    (List.append_cancel_left same)

end File

/-- The keys, sorted by what they are. -/
theorem itemKeys_perm (tops : List (SyntaxNode × ItemKind × SyntaxForest)) :
    (tops.flatMap itemKeys).Perm
      (((tops.filter fun (_, kind, _) => kind ≠ .impl).map fun (node, kind, _) =>
          SymbolKey.item (node.itemName kind)) ++
        (((tops.filter fun (_, kind, _) => kind = .impl).map fun (node, kind, _) =>
            SymbolKey.impl (node.itemName kind)) ++
          ((tops.filter fun (_, kind, _) => kind = .impl ∨ kind = .trait).flatMap
            fun (node, kind, body) => (bodyItems body).map fun (member, memberKind) =>
              SymbolKey.member (node.itemName kind) (member.itemName memberKind)))) := by
  rw [List.perm_iff_count]
  intro k
  induction tops with
  | nil => rfl
  | cons top tops ih =>
      obtain ⟨node, kind, body⟩ := top
      simp only [List.count_append, ne_eq, decide_not, Bool.decide_or] at ih
      simp only [List.flatMap_cons, List.count_append, itemKeys, List.count_cons, List.filter_cons]
      by_cases isImpl : kind = .impl
      · simp [isImpl, topKey, List.count_cons]
        omega
      · by_cases isTrait : kind = .trait
        · simp [isTrait, topKey, List.count_cons]
          omega
        · simp [isImpl, isTrait, topKey, List.count_cons]
          omega

theorem symbolKeys_nodup_iff (file : SyntaxForest) :
    (symbolKeys file).Nodup ↔
      (itemNames file).Nodup ∧ (implTypes file).Nodup ∧ (memberNames file).Nodup := by
  have items : Function.Injective SymbolKey.item := fun _ _ same => SymbolKey.item.inj same
  have impls : Function.Injective SymbolKey.impl := fun _ _ same => SymbolKey.impl.inj same
  have members : Function.Injective fun m : String × String => SymbolKey.member m.1 m.2 :=
    fun _ _ same => Prod.ext (SymbolKey.member.inj same).1 (SymbolKey.member.inj same).2
  have sorted : (symbolKeys file).Perm ((itemNames file).map SymbolKey.item ++
      ((implTypes file).map SymbolKey.impl ++
        (memberNames file).map fun m => SymbolKey.member m.1 m.2)) := by
    have keys := itemKeys_perm (topItems file)
    simpa [symbolKeys, itemNames, implTypes, memberNames, List.map_flatMap, Function.comp_def] using keys
  rw [sorted.nodup_iff, List.nodup_append, List.nodup_append, List.nodup_map_iff items,
    List.nodup_map_iff impls, List.nodup_map_iff members]
  refine ⟨fun ⟨a, ⟨b, c, _⟩, _⟩ => ⟨a, b, c⟩, fun ⟨a, b, c⟩ => ⟨a, ⟨b, c, ?_⟩, ?_⟩⟩
  · rintro _ inImpls _ inMembers rfl
    obtain ⟨type, -, is⟩ := List.mem_map.mp inImpls
    obtain ⟨m, -, is'⟩ := List.mem_map.mp inMembers
    cases is.trans is'.symm
  · rintro _ inItems _ others rfl
    obtain ⟨name, -, is⟩ := List.mem_map.mp inItems
    rcases List.mem_append.mp others with inImpls | inMembers
    · obtain ⟨type, -, is'⟩ := List.mem_map.mp inImpls
      cases is.trans is'.symm
    · obtain ⟨m, -, is'⟩ := List.mem_map.mp inMembers
      cases is.trans is'.symm

/-! ## Rows and vectors -/

/-- The ids of the symbol rows of a file. -/
def fileRows (s : ContentStore) (path : String) : List String :=
  s.symbols.keysWhere fun _ row => row.filePath = path

/-- What the grammar makes of the file. -/
def RustFile.extraction (file : RustFile) (path : String) (refs : List RawRef) : Extraction :=
  .tree (extractSymbols (modulePathFromFile path) file.nodes) refs

/-- The table keeps one row an id. -/
theorem fileRows_insertSymbols (s : ContentStore) {path : String} {records : List SymbolRecord}
    (here : ∀ r ∈ records, r.filePath = path) :
    (fileRows ((s.deleteSymbolsForFile path).insertSymbols records) path).Perm
      (records.map SymbolRecord.id).dedup := by
  obtain ⟨refs, inserted⟩ :=
    ContentStore.insertSymbols_frame (s := s.deleteSymbolsForFile path) records
  refine (List.perm_ext_iff_of_nodup (Rows.nodup_keysWhere _ _) (List.nodup_dedup _)).mpr
    fun id => ?_
  rw [Rows.mem_keysWhere, inserted, List.mem_dedup, List.mem_map]
  simp only [Rows.lookup_upsertAll, decide_eq_true_eq]
  constructor
  · rintro ⟨row, found, ofFile⟩
    rcases Option.or_eq_some_iff.mp found with new | ⟨-, old⟩
    · obtain ⟨r, listed, is⟩ := List.mem_map.mp (mem_of_lastOf new)
      exact ⟨r, listed, congrArg Prod.fst is⟩
    · exact absurd ofFile (ContentStore.deleteSymbolsForFile_symbols.mp old).2
  · rintro ⟨r, listed, rfl⟩
    cases last : lastOf (records.map fun r => (r.id, r.toSymbolRow)) r.id with
    | none =>
        exact absurd rfl (lastOf_eq_none.mp last _ (List.mem_map_of_mem listed))
    | some row =>
        obtain ⟨r', listed', is⟩ := List.mem_map.mp (mem_of_lastOf last)
        refine ⟨row, rfl, ?_⟩
        rw [← (Prod.mk.inj is).2]
        exact here r' listed'

/-- The symbol table after a file that was parsed into symbols. -/
theorem fileRows_extractCodeSymbols (languageOf : LanguageOf) (graph : Option PackageGraph)
    (s : ContentStore) (path : String) {symbols : List CodeSymbol} (any : symbols ≠ [])
    (refs : List RawRef) :
    fileRows (extractCodeSymbols languageOf graph s path (.tree symbols refs)).1 path =
      fileRows ((s.deleteSymbolsForFile path).insertSymbols
        (symbols.map (symbolRecord path))) path := by
  have some_record : (symbols.map (symbolRecord path)).isEmpty = false := by
    simpa using any
  unfold extractCodeSymbols
  dsimp only [Extraction.records]
  rw [some_record]
  obtain ⟨edges, same⟩ := resolveAndStoreRefs_frame languageOf graph
    (s := (s.deleteSymbolsForFile path).insertSymbols (symbols.map (symbolRecord path))) path
    (symbols.map (symbolRecord path)) refs
  simp only [Bool.false_eq_true, if_false]
  rw [same]
  rfl

theorem nodup_symbolPairs (id stubText fullText : String) :
    ((symbolPairs id stubText (some fullText)).map Prod.fst).Nodup := by
  unfold symbolPairs
  by_cases noStub : blank stubText = true <;> by_cases noFull : blank fullText = true <;>
    simp [noStub, noFull]

theorem symbolPairs_apart {id id' stubText stubText' : String} {fullText fullText' : Option String}
    {pair pair' : VectorId × String} (mem : pair ∈ symbolPairs id stubText fullText)
    (mem' : pair' ∈ symbolPairs id' stubText' fullText') (same : pair.1 = pair'.1) : id = id' := by
  rcases mem_symbolPairs mem with is | is <;> rcases mem_symbolPairs mem' with is' | is' <;>
    rw [is, is'] at same
  · exact VectorId.symbolStub.inj same
  · cases same
  · cases same
  · exact VectorId.symbolFull.inj same

/-- Symbols with ids of their own have vectors of their own. -/
theorem nodup_treePairs {path : String} {symbols : List CodeSymbol}
    (apart : (symbols.map (symbolId path)).Nodup) :
    ((symbols.flatMap (treePairs path)).map fun pair => pair.1.asStr).Nodup := by
  have spelled : Function.Injective VectorId.asStr := fun _ _ same => VectorId.asStr_injective same
  show (((symbols.flatMap (treePairs path)).map (VectorId.asStr ∘ Prod.fst))).Nodup
  rw [← List.map_map, List.nodup_map_iff spelled, List.map_flatMap, List.nodup_flatMap]
  constructor
  · exact fun sym _ => nodup_symbolPairs _ _ _
  · refine (List.pairwise_map.mp apart).imp fun {a b} other => ?_
    intro vector inA inB
    obtain ⟨pairA, memA, rfl⟩ := List.mem_map.mp inA
    obtain ⟨pairB, memB, same⟩ := List.mem_map.mp inB
    exact other (symbolPairs_apart memA memB same.symm)

/-! ## No symbol is lost -/

/-- Every symbol of the file has an id, a row and vectors of its own. -/
structure NoSymbolLost (languageOf : LanguageOf) (graph : Option PackageGraph) (path : String)
    (file : RustFile) (refs : List RawRef) : Prop where
  ids : (((file.extraction path refs).records path).map SymbolRecord.id).Nodup
  rows : ∀ s : ContentStore, extractSymbols (modulePathFromFile path) file.nodes ≠ [] →
    (fileRows (extractCodeSymbols languageOf graph s path (file.extraction path refs)).1 path).length =
      (extractSymbols (modulePathFromFile path) file.nodes).length
  vectors : ∀ s : ContentStore,
    ((extractCodeSymbols languageOf graph s path (file.extraction path refs)).2.embeddingPairs.map
      fun pair => pair.1.asStr).Nodup

/-- **No symbol is lost exactly when** no two top-level items other than impl blocks have
one name, no two impl blocks are for one type, and no two members under one trait name or
type have one name. -/
theorem noSymbolLost_iff (languageOf : LanguageOf) (graph : Option PackageGraph) (path : String)
    (file : RustFile) (refs : List RawRef) :
    NoSymbolLost languageOf graph path file refs ↔
      (itemNames file.nodes).Nodup ∧ (implTypes file.nodes).Nodup ∧
        (memberNames file.nodes).Nodup := by
  rw [← symbolKeys_nodup_iff, ← file.ids_nodup_iff_keys path]
  have records : ((file.extraction path refs).records path).map SymbolRecord.id =
      (extractSymbols (modulePathFromFile path) file.nodes).map (symbolId path) := by
    rw [RustFile.extraction, Extraction.records, List.map_map]
    rfl
  refine ⟨fun kept => records ▸ kept.ids, fun apart => ⟨records ▸ apart, fun s any => ?_,
    fun s => ?_⟩⟩
  · have here : ∀ r ∈ (extractSymbols (modulePathFromFile path) file.nodes).map (symbolRecord path),
        r.filePath = path := by
      intro r mem
      obtain ⟨sym, -, rfl⟩ := List.mem_map.mp mem
      rfl
    have rows := fileRows_insertSymbols s here
    rw [List.map_map] at rows
    rw [RustFile.extraction, fileRows_extractCodeSymbols languageOf graph s path any refs,
      rows.length_eq]
    show ((List.map (symbolId path) _).dedup).length = _
    rw [apart.dedup, List.length_map]
  · rw [extractCodeSymbols_pairs]
    exact nodup_treePairs apart

/-! ### Two impl blocks for one type -/

/-- `struct Point;`, `impl Point { fn new() }` and `impl Default for Point { fn default() }`. -/
def pointNodes : SyntaxForest :=
  .cons { nodeKind := "struct_item", name := some "Point" } .nil
    (.cons { nodeKind := "impl_item", type := some "Point" }
      (.cons { nodeKind := "function_item", name := some "new" } .nil .nil)
      (.cons { nodeKind := "impl_item", type := some "Point" }
        (.cons { nodeKind := "function_item", name := some "default" } .nil .nil) .nil))

instance (name : String) : Decidable (IsIdentifier name) :=
  inferInstanceAs (Decidable (_ ∧ _ ∧ _))

instance (text : String) : Decidable (IsTypeText text) :=
  inferInstanceAs (Decidable (_ ∧ ¬ _))

def pointFile : RustFile where
  nodes := pointNodes
  names := by
    have each : ∀ node ∈ pointNodes.labels, ∀ name ∈ node.name, IsIdentifier name := by
      decide
    exact fun node mem name is => each node mem name is
  types := by
    have each : ∀ node ∈ pointNodes.labels, ∀ text ∈ node.type, IsTypeText text := by
      decide
    exact fun node mem text is => each node mem text is
  members := by decide

/-- The second impl block replaces the row of the first. -/
theorem impl_block_lost :
    ¬ ∀ (languageOf : LanguageOf) (graph : Option PackageGraph) (path : String) (file : RustFile)
      (refs : List RawRef), NoSymbolLost languageOf graph path file refs := by
  intro kept
  have apart := (kept (fun _ => none) none "src/point.rs" pointFile []).ids
  revert apart
  decide

end Ministr.Ingestion
