/-
# Session.Identity — the durable identity of a delivery, and its storage key

A delivery is identified by three strings: the corpus, the content within it and
the representation that was delivered.  Sessions, stores and caches are keyed by
the identity's JSON text.  `fromStorageKey_storageKey` is the round trip and
`storageKey_injective` what every keyed map relies on.
-/
import Ministr.Theory.JsonText

namespace Ministr

open Ministr.Theory

set_option autoImplicit false

/-- `PRIMARY_CORPUS_ID`. -/
def primaryCorpusId : String := "primary"

structure DeliveryIdentity where
  corpusId : String
  contentId : String
  resolution : String
  deriving DecidableEq, Repr

namespace DeliveryIdentity

/-- `DeliveryIdentity::primary`: an identity in the namespace of local sessions. -/
def primary (contentId resolution : String) : DeliveryIdentity where
  corpusId := primaryCorpusId
  contentId := contentId
  resolution := resolution

def corpusLabel : List Char := "\x7b\"corpus_id\":\"".toList

def contentLabel : List Char := ",\"content_id\":\"".toList

def resolutionLabel : List Char := ",\"resolution\":\"".toList

/-- `storage_key`: the compact JSON object with the three fields in declaration
order. -/
def storageKey (i : DeliveryIdentity) : String :=
  String.ofList <|
    corpusLabel ++ (quoted i.corpusId.toList ++
      (contentLabel ++ (quoted i.contentId.toList ++
        (resolutionLabel ++ (quoted i.resolution.toList ++ ['\x7d'])))))

/-- Reads the text of a storage key. -/
def parseKey (key : String) : Option DeliveryIdentity :=
  match readField corpusLabel key.toList with
  | none => none
  | some (corpusId, rest) =>
      match readField contentLabel rest with
      | none => none
      | some (contentId, rest) =>
          match readField resolutionLabel rest with
          | some (resolution, ['\x7d']) =>
              some ⟨.ofList corpusId, .ofList contentId, .ofList resolution⟩
          | _ => none

/-- `from_storage_key`: a key that is no JSON identity is a bare content id of the
primary corpus. -/
def fromStorageKey (key legacyResolution : String) : DeliveryIdentity :=
  (parseKey key).getD (primary key legacyResolution)

theorem parseKey_storageKey (i : DeliveryIdentity) : parseKey i.storageKey = some i := by
  unfold parseKey storageKey
  rw [String.toList_ofList]
  simp only [readField_quoted, String.ofList_toList]

theorem fromStorageKey_storageKey (i : DeliveryIdentity) (legacyResolution : String) :
    fromStorageKey i.storageKey legacyResolution = i := by
  rw [fromStorageKey, parseKey_storageKey, Option.getD_some]

theorem storageKey_injective {i j : DeliveryIdentity} (same : i.storageKey = j.storageKey) :
    i = j := by
  have left := parseKey_storageKey i
  rw [same, parseKey_storageKey] at left
  exact (Option.some.inj left).symm

end DeliveryIdentity

end Ministr
