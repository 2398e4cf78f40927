/-
# Bundle.Import — what importing an index bundle leaves in a corpus directory

`import_bundle` unpacks an archive entry by entry into the live corpus directory, reads the
manifest where it comes, and finds out at the end that there was none.  Whatever the archive holds,
nothing outside the directory changes, but that the directory and those that lead to it are made
(`Contained`).  An import that succeeds leaves at every path what the last entry for that path
holds.  One that fails has unpacked the entries in front of the failing one, and of a failing one
that was opened perhaps a part; it takes nothing back (`importBundle_outcome`).
-/
import Ministr.Theory.FileTree
import Ministr.Theory.UnixPath

namespace Ministr.Bundle

open Ministr.Theory.FileTree
open Ministr.Theory.UnixPath

set_option autoImplicit false

/-- The newest format that is understood. -/
def bundleFormatVersion : Nat := 1

structure BundleCorpusRoot where
  id : String
  displayName : Option String
  kind : String
  commitSha : Option String
  branch : Option String
  repoUrl : Option String
  deriving DecidableEq, Repr

/-- What a bundle says about itself. -/
structure BundleManifest where
  formatVersion : Nat
  modelName : String
  dimension : Nat
  vectorCount : Nat
  documentCount : Nat
  symbolCount : Nat
  corpusRoots : List BundleCorpusRoot
  createdAt : Nat
  bundleVersion : Option String
  sourceCommit : Option String
  deriving DecidableEq, Repr

inductive BundleError where
  | io (path : List Name) (reason : String)
  | invalidBundle (reason : String)
  | incompatibleVersion (bundleVersion maxSupported : Nat)
  deriving DecidableEq, Repr

/-- A file of an archive.  Where the archive is cut off inside it, reading past the data that is
left says why. -/
structure Entry where
  name : List Char
  data : List UInt8
  cut : Option String
  deriving DecidableEq, Repr

/-- What comes next out of an archive. -/
inductive Item where
  | entry (entry : Entry)
  | broken (reason : String)
  deriving DecidableEq, Repr

/-- What opening a bundle gives. -/
inductive BundleFile where
  | unopened (reason : String)
  | undecoded (reason : String)
  | archive (items : List Item)
  deriving DecidableEq, Repr

def BundleFile.items : BundleFile → List Item
  | .archive items => items
  | _ => []

/-- What an import runs on: a disk, how it words a fault, and how a manifest is read. -/
structure Host where
  disk : Disk Name UInt8
  say : Fault → String
  fromSlice : List UInt8 → Except String BundleManifest

/-- The files and directories, each under its path from the root. -/
abbrev Files := Tree Name UInt8

def manifestName : List Char := "manifest.json".toList

/-- The names that are refused: with `..` anywhere in them, or absolute. -/
def unsafePath (name : List Char) : Bool := ['.', '.'] <:+: name ∨ name.head? = some '/'

/-- The last piece of such a name says nothing, and what it leads to can only be a directory. -/
def namesDirectory (name : List Char) : Bool :=
  ((name.splitOn '/').getLast?.bind component).isNone

section Importing

variable (host : Host) (bundlePath corpusDir : List Name)

def dest (entry : Entry) : List Name := resolve corpusDir entry.name

def readManifest (entry : Entry) : Except BundleError BundleManifest :=
  match entry.cut with
  | some e => .error (.io (dest corpusDir entry) ("failed to read manifest: " ++ e))
  | none =>
      match host.fromSlice entry.data with
      | .error e => .error (.invalidBundle ("failed to parse manifest: " ++ e))
      | .ok m =>
          if m.formatVersion > bundleFormatVersion then
            .error (.incompatibleVersion m.formatVersion bundleFormatVersion)
          else .ok m

/-- `File::create`. -/
def openEntry (entry : Entry) (files : Files) : Except Fault Files :=
  if namesDirectory entry.name then .error .isADirectory
  else files.createFile host.disk (dest corpusDir entry)

/-- `io::copy`, into the open file. -/
def copyEntry (entry : Entry) (files : Files) : Files × Option BundleError :=
  let path := dest corpusDir entry
  let kept := host.disk.keeps files path entry.data
  let written := files.writeFile path (entry.data.take kept)
  if kept < entry.data.length then
    (written, some (.io path ("failed to write file: " ++ host.say .denied)))
  else
    match entry.cut with
    | some e => (written, some (.io path ("failed to write file: " ++ e)))
    | none => (written, none)

/-- Unpack one entry. -/
def extractEntry (entry : Entry) (files : Files) : Files × Option BundleError :=
  let path := dest corpusDir entry
  match files.createDirAll host.disk path.dropLast with
  | (files, some fault) =>
      (files, some (.io path.dropLast ("failed to create parent dir: " ++ host.say fault)))
  | (files, none) =>
      match openEntry host corpusDir entry files with
      | .error fault => (files, some (.io path ("failed to create file: " ++ host.say fault)))
      | .ok opened => copyEntry host corpusDir entry opened

/-- One round of the loop. -/
def importEntry (entry : Entry) (files : Files) (manifest : Option BundleManifest) :
    Files × Except BundleError (Option BundleManifest) :=
  if unsafePath entry.name then
    (files, .error (.invalidBundle ("unsafe path in archive: " ++ String.ofList entry.name)))
  else if entry.name = manifestName then (files, (readManifest host corpusDir entry).map some)
  else
    match extractEntry host corpusDir entry files with
    | (files, some e) => (files, .error e)
    | (files, none) => (files, .ok manifest)

/-- The loop, and the manifest it should have met. -/
def importItems : List Item → Files → Option BundleManifest → Files × Except BundleError BundleManifest
  | [], files, some m => (files, .ok m)
  | [], files, none => (files, .error (.invalidBundle "bundle does not contain manifest.json"))
  | .broken e :: _, files, _ =>
      (files, .error (.io bundlePath ("failed to read archive entry: " ++ e)))
  | .entry entry :: rest, files, manifest =>
      match importEntry host corpusDir entry files manifest with
      | (files, .error e) => (files, .error e)
      | (files, .ok manifest) => importItems rest files manifest

def importBundle (bundle : BundleFile) (files : Files) : Files × Except BundleError BundleManifest :=
  match bundle with
  | .unopened e => (files, .error (.io bundlePath ("failed to open bundle: " ++ e)))
  | .undecoded e => (files, .error (.io bundlePath ("failed to create zstd decoder: " ++ e)))
  | .archive items =>
      match files.createDirAll host.disk corpusDir with
      | (files, some fault) =>
          (files, .error (.io corpusDir ("failed to create corpus dir: " ++ host.say fault)))
      | (files, none) =>
          let indexDir := corpusDir ++ ["index".toList]
          match files.createDirAll host.disk indexDir with
          | (files, some fault) =>
              (files, .error (.io indexDir ("failed to create index dir: " ++ host.say fault)))
          | (files, none) => importItems host bundlePath corpusDir items files none

end Importing

/-! ## What should be where -/

section Stored

variable (corpusDir : List Name)

/-- What an item of an archive holds for a path.  The manifest is not unpacked. -/
def dataFor (path : List Name) : Item → Option (List UInt8)
  | .entry entry =>
      if entry.name ≠ manifestName ∧ dest corpusDir entry = path then some entry.data else none
  | .broken _ => none

/-- What the last item for a path holds. -/
def lastFor (path : List Name) (items : List Item) : Option (List UInt8) :=
  (items.filterMap (dataFor corpusDir path)).getLast?

/-- The items are unpacked, the later over the earlier, and everything else is as it was. -/
def Unpacked (items : List Item) (before after : Files) : Prop :=
  ∀ path, after.fileAt path = (lastFor corpusDir path items).or (before.fileAt path)

/-- A file of which a part has been unpacked. -/
def PartlyUnpacked (item : Option Item) (after : Files) (path : List Name) : Prop :=
  ∃ entry, item = some (.entry entry) ∧ entry.name ≠ manifestName ∧ dest corpusDir entry = path ∧
    ∃ n, after.fileAt path = some (entry.data.take n)

/-- The items are unpacked, and perhaps a part of the next one. -/
def UnpackedUpTo (items : List Item) (next : Option Item) (before after : Files) : Prop :=
  ∀ path, after.fileAt path = (lastFor corpusDir path items).or (before.fileAt path) ∨
    PartlyUnpacked corpusDir next after path

/-- Nothing changes outside the corpus directory, but that it and those that lead to it are made. -/
def Contained (before after : Files) : Prop :=
  ∀ path, ¬ corpusDir <+: path → after.node path = before.node path ∨
    (path <+: corpusDir ∧ before.node path = none ∧ after.node path = some .dir)

theorem lastFor_cons (path : List Name) (item : Item) (items : List Item) :
    lastFor corpusDir path (item :: items) =
      (lastFor corpusDir path items).or (dataFor corpusDir path item) := by
  unfold lastFor
  cases here : dataFor corpusDir path item with
  | none => rw [List.filterMap_cons_none here, Option.or_none]
  | some data =>
      rw [List.filterMap_cons_some here, List.getLast?_cons]
      cases (items.filterMap (dataFor corpusDir path)).getLast? <;> rfl

end Stored

/-! ## Where an entry leads -/

/-- A name that is not refused leads below the directory. -/
theorem prefix_dest (corpusDir : List Name) {entry : Entry} (safe : unsafePath entry.name = false) :
    corpusDir <+: dest corpusDir entry := by
  simp only [unsafePath, decide_eq_false_iff_not, not_or] at safe
  obtain ⟨noDots, relative⟩ := safe
  refine prefix_resolve (fun mem => relative (head_of_rootDir mem)) fun mem => ?_
  exact noDots (dots_of_parentDir mem)

/-! ## One entry -/

section Entry

variable (host : Host) (corpusDir : List Name) {entry : Entry} {before : Files}

/-- The corpus directory stands, nothing beside it changed, and at most the file of one entry did. -/
structure Extracted (entry : Entry) (before : Files) (out : Files × Option BundleError) : Prop where
  dir : out.1.node corpusDir = some .dir
  outside : ∀ path, ¬ corpusDir <+: path → out.1.node path = before.node path
  others : ∀ path ≠ dest corpusDir entry, out.1.fileAt path = before.fileAt path
  done : out.2 = none → out.1.fileAt (dest corpusDir entry) = some entry.data
  partly : out.1.fileAt (dest corpusDir entry) = before.fileAt (dest corpusDir entry) ∨
    ∃ n, out.1.fileAt (dest corpusDir entry) = some (entry.data.take n)

theorem openEntry_spec {opened : Files} (ok : openEntry host corpusDir entry before = .ok opened) :
    before.node (dest corpusDir entry) ≠ some .dir ∧
      opened.node (dest corpusDir entry) = some (.file []) ∧
      ∀ other ≠ dest corpusDir entry, opened.node other = before.node other := by
  unfold openEntry at ok
  split at ok
  · cases ok
  · exact createFile_spec host.disk ok

theorem copyEntry_spec {old : List UInt8}
    (isFile : before.node (dest corpusDir entry) = some (.file old)) :
    ∃ n, (∀ other, (copyEntry host corpusDir entry before).1.node other =
        if other = dest corpusDir entry then some (.file (entry.data.take n))
        else before.node other) ∧
      ((copyEntry host corpusDir entry before).2 = none → entry.data.take n = entry.data) := by
  refine ⟨host.disk.keeps before (dest corpusDir entry) entry.data, fun other => ?_, fun fine => ?_⟩
  · have written := node_writeFile before
      (entry.data.take (host.disk.keeps before (dest corpusDir entry) entry.data)) isFile other
    simp only [copyEntry]
    split
    · exact written
    · split
      · exact written
      · exact written
  · simp only [copyEntry] at fine
    split at fine
    · cases fine
    · apply List.take_of_length_le
      omega

theorem extractEntry_spec (isDir : before.node corpusDir = some .dir)
    (below : corpusDir <+: dest corpusDir entry) :
    Extracted corpusDir entry before (extractEntry host corpusDir entry before) := by
  have grown := grown_createDirAll host.disk before (dest corpusDir entry).dropLast
  have onTheWay := List.prefix_or_prefix_of_prefix (List.dropLast_prefix _) below
  simp only [extractEntry]
  cases made : before.createDirAll host.disk (dest corpusDir entry).dropLast with
  | mk files fault =>
      rw [made] at grown
      have stands := grown.node_dir isDir
      have outside := fun path (away : ¬ corpusDir <+: path) => grown.below isDir onTheWay away
      cases fault with
      | some fault =>
          exact ⟨stands, outside, fun path _ => grown.fileAt path, (fun none => by cases none),
            .inl (grown.fileAt _)⟩
      | none =>
          simp only
          cases opening : openEntry host corpusDir entry files with
          | error fault =>
              exact ⟨stands, outside, fun path _ => grown.fileAt path, (fun none => by cases none),
                .inl (grown.fileAt _)⟩
          | ok opened =>
              obtain ⟨free, isFile, same⟩ := openEntry_spec host corpusDir opening
              obtain ⟨n, written, whole⟩ := copyEntry_spec host corpusDir isFile
              have there : (copyEntry host corpusDir entry opened).1.fileAt (dest corpusDir entry) =
                  some (entry.data.take n) := by
                rw [fileAt_eq_some, written, if_pos rfl]
              have elsewhere : ∀ other ≠ dest corpusDir entry,
                  (copyEntry host corpusDir entry opened).1.node other = files.node other := by
                intro other apart
                rw [written, if_neg apart, same other apart]
              refine ⟨?_, fun path away => ?_, fun path apart => ?_, fun none => ?_, .inr ⟨n, there⟩⟩
              · rw [elsewhere corpusDir fun here => free (here ▸ stands), stands]
              · rw [elsewhere path fun here => away (here ▸ below), outside path away]
              · rw [fileAt_congr files (elsewhere path apart), grown.fileAt]
              · rw [there, whole none]

/-- What one round of the loop does. -/
structure Imported (entry : Entry) (before after : Files)
    (result : Except BundleError (Option BundleManifest)) : Prop where
  dir : after.node corpusDir = some .dir
  outside : ∀ path, ¬ corpusDir <+: path → after.node path = before.node path
  done : ∀ m, result = .ok m → ∀ path,
    after.fileAt path = (dataFor corpusDir path (.entry entry)).or (before.fileAt path)
  failed : ∀ e, result = .error e → ∀ path, after.fileAt path = before.fileAt path ∨
    PartlyUnpacked corpusDir (some (.entry entry)) after path

theorem importEntry_spec (isDir : before.node corpusDir = some .dir)
    (manifest : Option BundleManifest) :
    Imported corpusDir entry before (importEntry host corpusDir entry before manifest).1
      (importEntry host corpusDir entry before manifest).2 := by
  unfold importEntry
  split
  · exact ⟨isDir, fun _ _ => rfl, (fun m ok => by cases ok), fun _ _ _ => .inl rfl⟩
  · rename_i safe
    split
    · rename_i isManifest
      refine ⟨isDir, fun _ _ => rfl, fun m _ path => ?_, fun _ _ _ => .inl rfl⟩
      simp [dataFor, isManifest]
    · rename_i unpacked
      have extracted := extractEntry_spec host corpusDir isDir
        (prefix_dest corpusDir (Bool.eq_false_iff.mpr safe))
      cases out : extractEntry host corpusDir entry before with
      | mk files error =>
          rw [out] at extracted
          have failed : ∀ path, files.fileAt path = before.fileAt path ∨
              PartlyUnpacked corpusDir (some (.entry entry)) files path := by
            intro path
            by_cases here : dest corpusDir entry = path
            · subst here
              exact extracted.partly.imp id fun part => ⟨entry, rfl, unpacked, rfl, part⟩
            · exact .inl (extracted.others path (Ne.symm here))
          cases error with
          | some e =>
              exact ⟨extracted.dir, extracted.outside, (fun m ok => by cases ok), fun _ _ => failed⟩
          | none =>
              refine ⟨extracted.dir, extracted.outside, fun m _ path => ?_, fun _ _ => failed⟩
              by_cases here : dest corpusDir entry = path
              · subst here
                simp [dataFor, unpacked, extracted.done rfl]
              · simp [dataFor, here, extracted.others path (Ne.symm here)]

/-- A manifest that is taken was read whole, and its format is understood. -/
theorem importEntry_manifest {manifest read : Option BundleManifest} {m : BundleManifest}
    (ok : (importEntry host corpusDir entry before manifest).2 = .ok read) (there : read = some m) :
    manifest = some m ∨ (entry.name = manifestName ∧ entry.cut = none ∧
      host.fromSlice entry.data = .ok m ∧ m.formatVersion ≤ bundleFormatVersion) := by
  subst there
  unfold importEntry at ok
  split at ok
  · cases ok
  · split at ok
    · rename_i isManifest
      right
      simp only [readManifest] at ok
      cases cut : entry.cut with
      | some e => simp [cut, Except.map] at ok
      | none =>
          cases parsed : host.fromSlice entry.data with
          | error e => simp [cut, parsed, Except.map] at ok
          | ok parsedManifest =>
              simp only [cut, parsed] at ok
              split at ok
              · cases ok
              · rename_i understood
                obtain rfl : parsedManifest = m := by simpa [Except.map] using ok
                exact ⟨isManifest, rfl, rfl, Nat.le_of_not_lt understood⟩
    · cases out : extractEntry host corpusDir entry before with
      | mk files error =>
          cases error with
          | some e => simp [out] at ok
          | none => exact .inl (by simpa [out] using ok)

end Entry

/-! ## The whole archive -/

section Archive

variable (host : Host) (bundlePath corpusDir : List Name)

theorem importItems_spec (items : List Item) (before : Files) (manifest : Option BundleManifest)
    (isDir : before.node corpusDir = some .dir) :
    let out := importItems host bundlePath corpusDir items before manifest
    (∀ path, ¬ corpusDir <+: path → out.1.node path = before.node path) ∧
      (∀ m, out.2 = .ok m → Unpacked corpusDir items before out.1) ∧
      (∀ e, out.2 = .error e → ∃ done rest, items = done ++ rest ∧
        UnpackedUpTo corpusDir done rest.head? before out.1) := by
  induction items generalizing before manifest with
  | nil =>
      cases manifest with
      | none => exact ⟨fun _ _ => rfl, (fun m ok => by cases ok),
          fun _ _ => ⟨[], [], rfl, fun path => .inl rfl⟩⟩
      | some m => exact ⟨fun _ _ => rfl, fun _ _ path => rfl, fun e error => by cases error⟩
  | cons item rest ih =>
      cases item with
      | broken e => exact ⟨fun _ _ => rfl, (fun m ok => by cases ok),
          fun _ _ => ⟨[], .broken e :: rest, rfl, fun path => .inl rfl⟩⟩
      | entry entry =>
          have round := @importEntry_spec host corpusDir entry before isDir manifest
          simp only [importItems]
          cases out : importEntry host corpusDir entry before manifest with
          | mk files result =>
              rw [out] at round
              cases result with
              | error e =>
                  refine ⟨round.outside, (fun m ok => by cases ok), fun _ _ => ?_⟩
                  exact ⟨[], .entry entry :: rest, rfl, round.failed e rfl⟩
              | ok read =>
                  obtain ⟨outside, done, failed⟩ := ih files read round.dir
                  have through : ∀ (items : List Item) (path : List Name),
                      (lastFor corpusDir path items).or (files.fileAt path) =
                        (lastFor corpusDir path (.entry entry :: items)).or (before.fileAt path) := by
                    intro items path
                    rw [round.done read rfl path, lastFor_cons, Option.or_assoc]
                  refine ⟨fun path away => ?_, fun m ok path => ?_, fun e error => ?_⟩
                  · exact (outside path away).trans (round.outside path away)
                  · exact (done m ok path).trans (through rest path)
                  · obtain ⟨front, back, rfl, upTo⟩ := failed e error
                    refine ⟨.entry entry :: front, back, rfl, fun path => ?_⟩
                    rw [← through front path]
                    exact upTo path

/-- **What an import leaves.**  Nothing outside the corpus directory changes.  If it succeeds, every
path holds what the last entry for it holds.  If it fails, the entries in front of the failing one
have been unpacked over what was there, perhaps with a part of that one, and nothing else changed. -/
theorem importBundle_outcome (bundle : BundleFile) (before : Files) :
    let out := importBundle host bundlePath corpusDir bundle before
    Contained corpusDir before out.1 ∧
      (∀ m, out.2 = .ok m → Unpacked corpusDir bundle.items before out.1) ∧
      (∀ e, out.2 = .error e → ∃ done rest, bundle.items = done ++ rest ∧
        UnpackedUpTo corpusDir done rest.head? before out.1) := by
  cases bundle with
  | unopened e => exact ⟨fun _ _ => .inl rfl, (fun m ok => by cases ok),
      fun _ _ => ⟨[], [], rfl, fun _ => .inl rfl⟩⟩
  | undecoded e => exact ⟨fun _ _ => .inl rfl, (fun m ok => by cases ok),
      fun _ _ => ⟨[], [], rfl, fun _ => .inl rfl⟩⟩
  | archive items =>
      simp only [importBundle, BundleFile.items]
      have grown := grown_createDirAll host.disk before corpusDir
      have made := createDirAll_stands host.disk before corpusDir
      have contained : Contained corpusDir before (before.createDirAll host.disk corpusDir).1 :=
        fun path _ => grown path
      cases first : before.createDirAll host.disk corpusDir with
      | mk files fault =>
          rw [first] at grown made contained
          cases fault with
          | some fault => exact ⟨contained, (fun m ok => by cases ok),
              fun _ _ => ⟨[], items, rfl, fun path => .inl (grown.fileAt path)⟩⟩
          | none =>
              have isDir := made rfl
              have grownOn := grown_createDirAll host.disk files (corpusDir ++ ["index".toList])
              have kept := fun path (away : ¬ corpusDir <+: path) =>
                grownOn.below isDir (.inr (List.prefix_append _ _)) away
              simp only
              cases second : files.createDirAll host.disk (corpusDir ++ ["index".toList]) with
              | mk ready fault =>
                  rw [second] at grownOn kept
                  have same : ∀ path, ready.fileAt path = before.fileAt path := fun path =>
                    (grownOn.fileAt path).trans (grown.fileAt path)
                  cases fault with
                  | some fault =>
                      refine ⟨fun path away => ?_, (fun m ok => by cases ok),
                        fun _ _ => ⟨[], items, rfl, fun path => .inl (same path)⟩⟩
                      rw [kept path away]
                      exact contained path away
                  | none =>
                      obtain ⟨outside, done, failed⟩ := importItems_spec host bundlePath corpusDir
                        items ready none (grownOn.node_dir isDir)
                      refine ⟨fun path away => ?_, fun m ok path => ?_, fun e error => ?_⟩
                      · simp only
                        rw [outside path away, kept path away]
                        exact contained path away
                      · exact (done m ok path).trans (by rw [same])
                      · obtain ⟨front, back, split, upTo⟩ := failed e error
                        refine ⟨front, back, split, fun path => ?_⟩
                        rw [← same]
                        exact upTo path

theorem importItems_manifest {items : List Item} {files : Files} {manifest : Option BundleManifest}
    {m : BundleManifest}
    (ok : (importItems host bundlePath corpusDir items files manifest).2 = .ok m) :
    manifest = some m ∨ ∃ entry, .entry entry ∈ items ∧ entry.name = manifestName ∧
      entry.cut = none ∧ host.fromSlice entry.data = .ok m ∧
      m.formatVersion ≤ bundleFormatVersion := by
  induction items generalizing files manifest with
  | nil =>
      cases manifest with
      | none => cases ok
      | some given => exact .inl (congrArg some (Except.ok.inj ok))
  | cons item rest ih =>
      cases item with
      | broken e => cases ok
      | entry entry =>
          simp only [importItems] at ok
          cases out : importEntry host corpusDir entry files manifest with
          | mk unpacked result =>
              simp only [out] at ok
              cases result with
              | error e => cases ok
              | ok read =>
                  rcases ih ok with there | ⟨entry', listed, facts⟩
                  · rcases importEntry_manifest host corpusDir (congrArg Prod.snd out) there with
                      before | facts
                    · exact .inl before
                    · exact .inr ⟨entry, List.mem_cons_self, facts⟩
                  · exact .inr ⟨entry', List.mem_cons_of_mem _ listed, facts⟩

/-- An import that succeeds has read a manifest in the archive, of a format that is understood. -/
theorem importBundle_manifest {bundle : BundleFile} {files : Files} {m : BundleManifest}
    (ok : (importBundle host bundlePath corpusDir bundle files).2 = .ok m) :
    ∃ entry, .entry entry ∈ bundle.items ∧ entry.name = manifestName ∧ entry.cut = none ∧
      host.fromSlice entry.data = .ok m ∧ m.formatVersion ≤ bundleFormatVersion := by
  cases bundle with
  | unopened e => cases ok
  | undecoded e => cases ok
  | archive items =>
      simp only [importBundle] at ok
      split at ok
      · cases ok
      · split at ok
        · cases ok
        · exact (importItems_manifest host bundlePath corpusDir ok).resolve_left (by simp)

end Archive

/-! ## An archive with no manifest, and one with two entries of one name -/

/-- A disk that takes everything, and manifests that say nothing. -/
def plainHost : Host where
  disk := ⟨fun _ _ => true, fun _ _ => true, fun _ _ data => data.length⟩
  say _ := ""
  fromSlice _ := .ok
    { formatVersion := 1, modelName := "", dimension := 0, vectorCount := 0, documentCount := 0,
      symbolCount := 0, corpusRoots := [], createdAt := 0, bundleVersion := none,
      sourceCommit := none }

def database (data : List UInt8) : Entry := ⟨"content.db".toList, data, none⟩

def corpusPath : List Name := ["corpus".toList]

def importInto (files : Files) (entries : List Entry) : Files × Except BundleError BundleManifest :=
  importBundle plainHost [] corpusPath (.archive (entries.map .entry)) files

/-- A corpus directory with a database in it. -/
def withDatabase : Files := (importInto Tree.bare [⟨manifestName, [], none⟩, database [1]]).1

/-- The database of a failed import stands in place of the old one; of two entries of one name
only the later is there. -/
theorem database_replaced :
    (importInto withDatabase [database [2]]).2 =
        .error (.invalidBundle "bundle does not contain manifest.json") ∧
      withDatabase.fileAt (dest corpusPath (database [1])) = some [1] ∧
      (importInto withDatabase [database [2]]).1.fileAt (dest corpusPath (database [1])) =
        some [2] ∧
      (importInto withDatabase [⟨manifestName, [], none⟩, database [2], database [3]]).2.isOk ∧
      (importInto withDatabase [⟨manifestName, [], none⟩, database [2], database [3]]).1.fileAt
        (dest corpusPath (database [2])) = some [3] := by
  decide +kernel

end Ministr.Bundle
