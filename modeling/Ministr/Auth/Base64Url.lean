/-
# Auth.Base64Url — the loop that writes challenges and identifiers

`base64_url_encode` takes three bytes a round, with zeros for those that the data does not have, and
shifts and masks a word of 32 bits.  What it writes is the unpadded base64url of RFC 4648, section 5
(`base64UrlLoop_eq`), so that the standard decoder reads it back and two texts with the same digest
are all that a challenge can confuse (`base64UrlLoop_decodes`, `s256_eq_iff`).
-/
import Ministr.Auth.Endpoints
import Ministr.Theory.Base64

namespace Ministr.Auth

open Ministr.Theory

set_option autoImplicit false

/-- `ALPHABET[(n & 0x3F) as usize]`. -/
def masked (n : UInt32) : Char := alphabet.getD (n &&& 0x3F).toNat 'A'

/-- The loop of `base64_url_encode`, from `i` on. -/
def base64UrlLoop : List UInt8 → List Char
  | [] => []
  | b0 :: rest =>
      let b1 := rest.getD 0 0
      let b2 := rest.getD 1 0
      let triple := b0.toUInt32 <<< 16 ||| b1.toUInt32 <<< 8 ||| b2.toUInt32
      masked (triple >>> 18) :: masked (triple >>> 12) ::
        ((if 0 < rest.length then [masked (triple >>> 6)] else []) ++
          ((if 1 < rest.length then [masked triple] else []) ++ base64UrlLoop (rest.drop 2)))
termination_by data => data.length
decreasing_by
  simp only [List.length_drop, List.length_cons]
  omega

/-! ## The word of a round -/

theorem masked_eq (n : UInt32) : masked n = digit n.toNat := by
  rw [masked, digit, UInt32.toNat_and]
  exact congrArg (alphabet.getD · 'A') (Nat.and_two_pow_sub_one_eq_mod n.toNat 6)

/-- The three bytes do not overlap in the word. -/
theorem toNat_triple (b0 b1 b2 : UInt8) :
    (b0.toUInt32 <<< 16 ||| b1.toUInt32 <<< 8 ||| b2.toUInt32).toNat =
      b0.toNat * 65536 + b1.toNat * 256 + b2.toNat := by
  have small := b0.toNat_lt
  have small' := b1.toNat_lt
  have small'' := b2.toNat_lt
  have high : (b0.toUInt32 <<< 16).toNat = b0.toNat <<< 16 := by
    rw [UInt32.toNat_shiftLeft, UInt8.toNat_toUInt32]
    show b0.toNat <<< 16 % 2 ^ 32 = _
    exact Nat.mod_eq_of_lt (by rw [Nat.shiftLeft_eq]; omega)
  have middle : (b1.toUInt32 <<< 8).toNat = b1.toNat <<< 8 := by
    rw [UInt32.toNat_shiftLeft, UInt8.toNat_toUInt32]
    show b1.toNat <<< 8 % 2 ^ 32 = _
    exact Nat.mod_eq_of_lt (by rw [Nat.shiftLeft_eq]; omega)
  have both : b0.toNat <<< 16 ||| b1.toNat <<< 8 = (b0.toNat * 256 + b1.toNat) <<< 8 := by
    rw [← Nat.shiftLeft_add_eq_or_of_lt (by rw [Nat.shiftLeft_eq]; omega)]
    simp only [Nat.shiftLeft_eq]
    omega
  rw [UInt32.toNat_or, UInt32.toNat_or, high, middle, UInt8.toNat_toUInt32, both,
    ← Nat.shiftLeft_add_eq_or_of_lt small'', Nat.shiftLeft_eq]
  omega

theorem masked_shiftRight (n k : UInt32) :
    masked (n >>> k) = digit (n.toNat / 2 ^ (k.toNat % 32)) := by
  rw [masked_eq, UInt32.toNat_shiftRight, Nat.shiftRight_eq_div_pow]

/-- The four characters of a round. -/
theorem masked_triple (b0 b1 b2 : UInt8) :
    let triple := b0.toUInt32 <<< 16 ||| b1.toUInt32 <<< 8 ||| b2.toUInt32
    let word := b0.toNat * 65536 + b1.toNat * 256 + b2.toNat
    masked (triple >>> 18) = digit (word / 262144) ∧ masked (triple >>> 12) = digit (word / 4096) ∧
      masked (triple >>> 6) = digit (word / 64) ∧ masked triple = digit word := by
  intro triple word
  have same : triple.toNat = word := toNat_triple b0 b1 b2
  rw [masked_shiftRight, masked_shiftRight, masked_shiftRight, masked_eq, same]
  exact ⟨rfl, rfl, rfl, rfl⟩

/-- A round, in numbers. -/
theorem base64UrlLoop_cons (b0 : UInt8) (rest : List UInt8) :
    let word := b0.toNat * 65536 + (rest.getD 0 0).toNat * 256 + (rest.getD 1 0).toNat
    base64UrlLoop (b0 :: rest) = digit (word / 262144) :: digit (word / 4096) ::
      ((if 0 < rest.length then [digit (word / 64)] else []) ++
        ((if 1 < rest.length then [digit word] else []) ++ base64UrlLoop (rest.drop 2))) := by
  intro word
  obtain ⟨first, second, third, fourth⟩ := masked_triple b0 (rest.getD 0 0) (rest.getD 1 0)
  rw [base64UrlLoop, first, second, third, fourth]

theorem base64UrlLoop_eq (data : List UInt8) : base64UrlLoop data = base64UrlEncode data := by
  induction data using base64UrlEncode.induct with
  | case1 => rw [base64UrlLoop, base64UrlEncode]
  | case2 b0 => simp [base64UrlLoop_cons, base64UrlEncode, base64UrlLoop]
  | case3 b0 b1 => simp [base64UrlLoop_cons, base64UrlEncode, base64UrlLoop]
  | case4 b0 b1 b2 rest ih => simp [base64UrlLoop_cons, base64UrlEncode, ih]

/-! ## The encoding of the standard -/

def urlAlphabet : Base64Alphabet where
  letters := alphabet
  length_eq := by decide
  nodup := by decide

theorem digit_congr {n m : Nat} (same : n % 64 = m % 64) : digit n = urlAlphabet.letter m :=
  congrArg (alphabet.getD · 'A') same

theorem base64UrlEncode_eq (data : List UInt8) : base64UrlEncode data = urlAlphabet.encode data := by
  induction data using base64UrlEncode.induct with
  | case1 => rfl
  | case2 b0 =>
      have small := b0.toNat_lt
      simp only [base64UrlEncode, Base64Alphabet.encode, List.cons.injEq, and_true]
      exact ⟨digit_congr (by omega), digit_congr (by omega)⟩
  | case3 b0 b1 =>
      have small := b0.toNat_lt
      have small' := b1.toNat_lt
      simp only [base64UrlEncode, Base64Alphabet.encode, List.cons.injEq, and_true]
      exact ⟨digit_congr (by omega), digit_congr (by omega), digit_congr (by omega)⟩
  | case4 b0 b1 b2 rest ih =>
      have small := b0.toNat_lt
      have small' := b1.toNat_lt
      have small'' := b2.toNat_lt
      simp only [base64UrlEncode, Base64Alphabet.encode, List.cons.injEq]
      exact ⟨digit_congr (by omega), digit_congr (by omega), digit_congr (by omega),
        digit_congr (by omega), ih⟩

/-- **The loop writes ⌈4n/3⌉ characters of the URL-safe alphabet, and the unpadded decoder accepts
exactly what it writes and gives the data back**; so different data are written differently. -/
theorem base64UrlLoop_decodes :
    (∀ data, (base64UrlLoop data).length = (4 * data.length + 2) / 3 ∧
      (∀ c ∈ base64UrlLoop data, c ∈ alphabet) ∧
      ∀ text, urlAlphabet.decode text = some data ↔ text = base64UrlLoop data) ∧
    Function.Injective base64UrlLoop := by
  have same : ∀ data, base64UrlLoop data = urlAlphabet.encode data := fun data =>
    (base64UrlLoop_eq data).trans (base64UrlEncode_eq data)
  refine ⟨fun data => ?_, fun data other written => ?_⟩
  · rw [same]
    refine ⟨Base64Alphabet.length_encode data, Base64Alphabet.encode_mem, fun text => ?_⟩
    rw [Base64Alphabet.decode_eq_some, eq_comm]
  · rw [same, same] at written
    exact Base64Alphabet.encode_injective written

/-- Two verifiers have the same challenge exactly when they have the same digest. -/
theorem s256_eq_iff (sha256 : List UInt8 → List UInt8) (verifier other : String) :
    s256 sha256 verifier = s256 sha256 other ↔
      sha256 (utf8 verifier) = sha256 (utf8 other) := by
  rw [s256, s256, String.ofList_inj, base64UrlEncode_eq, base64UrlEncode_eq]
  exact Base64Alphabet.encode_injective.eq_iff

end Ministr.Auth
