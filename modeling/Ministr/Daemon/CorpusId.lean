/-
# Daemon.CorpusId — the identity of a set of corpus paths

`corpus_id_from_paths` turns the paths that a corpus is made of into the name of its
directory.  The paths are canonicalised as text, with no look at the file system, then
sorted and deduplicated; the id is the start of a hash over them.  This is the
non-Windows build, which keeps the case of a path.
-/
import Ministr.Content.Document
import Ministr.Theory.Bytes
import Ministr.Theory.Hexadecimal
import Ministr.Theory.Run

namespace Ministr.Daemon

open Ministr.Theory
open Ministr.Content (blank startsWith)

set_option autoImplicit false

/-- Where a corpus path points. -/
inductive CorpusSource where
  | localPath (path : String)
  | web (url : String)
  | git (url : String)
  deriving DecidableEq, Repr

/-- `s.trim_end_matches('/')`. -/
def trimEndSlashes (s : List Char) : List Char :=
  (s.reverse.dropWhile (· == '/')).reverse

def classifyCorpusPath (raw : String) : CorpusSource :=
  match raw.toList.dropPrefix? "github://".toList with
  | some rest =>
      .git ("https://github.com/" ++ String.ofList (trimEndSlashes rest) ++ ".git")
  | none =>
      if startsWith raw "git@" then .git raw
      else if startsWith raw "https://" || startsWith raw "http://" then
        if ".git".toList.isSuffixOf (raw.toList.map Char.toLower) then .git raw else .web raw
      else .localPath raw

/-- A verbatim prefix is dropped; a verbatim UNC path becomes a plain one. -/
def stripWindowsVerbatim (raw : List Char) : List Char :=
  match raw.dropPrefix? "\\\\?\\UNC\\".toList with
  | some rest => '\\' :: '\\' :: rest
  | none =>
      match raw.dropPrefix? "\\\\?\\".toList with
      | some rest => rest
      | none => raw

/-- One part of a path, over the segments before it, the last of them first.  `rooted`
paths are never climbed out of. -/
def cleanSegment (rooted : Bool) (segs : List (List Char)) (part : List Char) :
    List (List Char) :=
  if part = [] ∨ part = ['.'] then segs
  else if part = ['.', '.'] then
    match segs with
    | last :: before => if last = ['.', '.'] then (if rooted then segs else part :: segs) else before
    | [] => if rooted then [] else [part]
  else part :: segs

def lexicalClean (s : List Char) : List Char :=
  let unc := "//".toList.isPrefixOf s
  let absolute := !unc && "/".toList.isPrefixOf s
  let segs := (s.splitOn '/').foldl (cleanSegment (absolute || unc)) []
  let joined := List.intercalate ['/'] segs.reverse
  if unc then '/' :: '/' :: joined
  else if absolute then '/' :: joined
  else if joined.isEmpty then ['.']
  else joined

/-- `while s.len() > 1 && s.ends_with('/') { s.pop(); }`, over the text reversed. -/
def popSlashes : List Char → List Char
  | '/' :: c :: rest => popSlashes (c :: rest)
  | s => s

def canonicalCorpusPath (raw : String) : String :=
  match classifyCorpusPath raw with
  | .localPath _ =>
      let slashed := (stripWindowsVerbatim raw.toList).map fun c => if c = '\\' then '/' else c
      String.ofList (popSlashes (lexicalClean slashed).reverse).reverse
  | _ => raw

inductive CorpusIdError where
  | emptyPath
  deriving DecidableEq, Repr

/-- The canonical paths, sorted and with no path twice.  An empty set and an empty path
have no identity. -/
def canonicalCorpusPaths (paths : List String) : Except CorpusIdError (List String) :=
  if paths.isEmpty || paths.any blank then .error .emptyPath
  else .ok ((paths.map canonicalCorpusPath).mergeSort (· ≤ ·)).eraseReps

section Hashed

variable (sha256 : List UInt8 → List UInt8)

def hexByte (b : UInt8) : List Char := [hexDigit (b.toNat / 16), hexDigit b.toNat]

/-- `multi-` and the first eight hex digits of the hash of the canonical paths. -/
def corpusIdFromPaths (paths : List String) : Except CorpusIdError String := do
  let canonical ← canonicalCorpusPaths paths
  let hash := sha256 (List.intercalate [10] (canonical.map utf8))
  return "multi-" ++ String.ofList ((hash.flatMap hexByte).take 8)

/-- What `register` makes of its paths before anything else: the id and the paths that
the corpus is kept under.  The id is computed from the canonical paths, which are
canonicalised again on the way. -/
def registerTarget (paths : List String) : Except CorpusIdError (String × List String) := do
  let canonical ← canonicalCorpusPaths paths
  let corpusId ← corpusIdFromPaths sha256 canonical
  return (corpusId, canonical)

variable {sha256}

end Hashed

example : canonicalCorpusPath "/srv//docs/./old/../" = "/srv/docs" := by decide

example : canonicalCorpusPath "\\\\?\\UNC\\host\\share\\.." = "//host" := by decide

example : canonicalCorpusPath "a/../../b" = "../b" := by decide

end Ministr.Daemon
