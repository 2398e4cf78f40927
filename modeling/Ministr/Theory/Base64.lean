/-
# Theory.Base64 — bytes in letters, three for four

Three bytes are the digits of a number of 24 bits, and so are four letters of an alphabet of 64.  A
rest of one byte is written in two letters and a rest of two in three, with zeros for the bits that
no byte fills.  A decoder that insists on these zeros accepts exactly what the encoder writes
(`decode_eq_some`).
-/
import Mathlib.Data.List.Nodup
import Mathlib.Logic.Function.Basic
import Mathlib.Tactic.Common

namespace Ministr.Theory

set_option autoImplicit false

/-- 64 different letters. -/
structure Base64Alphabet where
  letters : List Char
  length_eq : letters.length = 64
  nodup : letters.Nodup

namespace Base64Alphabet

variable (a : Base64Alphabet)

/-- The letter of the low six bits. -/
def letter (n : Nat) : Char := a.letters.getD (n % 64) 'A'

def value (c : Char) : Option Nat := a.letters.idxOf? c

def encode : List UInt8 → List Char
  | [] => []
  | [b] => [a.letter (b.toNat / 4), a.letter (b.toNat % 4 * 16)]
  | [b, c] =>
      [a.letter (b.toNat / 4), a.letter (b.toNat % 4 * 16 + c.toNat / 16),
        a.letter (c.toNat % 16 * 4)]
  | b :: c :: d :: rest =>
      a.letter (b.toNat / 4) :: a.letter (b.toNat % 4 * 16 + c.toNat / 16) ::
        a.letter (c.toNat % 16 * 4 + d.toNat / 64) :: a.letter d.toNat :: encode rest

/-- The decoder for texts without padding. -/
def decode : List Char → Option (List UInt8)
  | [] => some []
  | [_] => none
  | [w, x] => do
      let v ← a.value w
      let u ← a.value x
      if u % 16 = 0 then some [UInt8.ofNat (v * 4 + u / 16)] else none
  | [w, x, y] => do
      let v ← a.value w
      let u ← a.value x
      let t ← a.value y
      if t % 4 = 0 then some [UInt8.ofNat (v * 4 + u / 16), UInt8.ofNat (u % 16 * 16 + t / 4)]
      else none
  | w :: x :: y :: z :: text => do
      let v ← a.value w
      let u ← a.value x
      let t ← a.value y
      let s ← a.value z
      let rest ← decode text
      some (UInt8.ofNat (v * 4 + u / 16) :: UInt8.ofNat (u % 16 * 16 + t / 4) ::
        UInt8.ofNat (t % 4 * 64 + s) :: rest)

variable {a}

/-! ## One letter -/

theorem getElem_letters {n : Nat} (less : n < 64) : a.letters[n]? = some (a.letter n) := by
  have inside : n < a.letters.length := a.length_eq.symm ▸ less
  rw [letter, Nat.mod_eq_of_lt less, List.getD_eq_getElem?_getD, List.getElem?_eq_getElem inside,
    Option.getD_some]

theorem letter_mod (n : Nat) : a.letter (n % 64) = a.letter n := by
  rw [letter, letter, Nat.mod_mod]

theorem letter_mem (n : Nat) : a.letter n ∈ a.letters := by
  rw [← letter_mod]
  exact List.mem_of_getElem? (getElem_letters (Nat.mod_lt n (by decide)))

theorem value_eq_some {c : Char} {n : Nat} : a.value c = some n ↔ n < 64 ∧ a.letter n = c := by
  rw [value, List.idxOf?_eq_some_iff]
  constructor
  · rintro ⟨less, same, -⟩
    have small : n < 64 := a.length_eq ▸ less
    have here : a.letters[n]? = some (a.letter n) := getElem_letters small
    rw [List.getElem?_eq_getElem less, same] at here
    exact ⟨small, (Option.some.inj here).symm⟩
  · rintro ⟨less, rfl⟩
    have inside : n < a.letters.length := a.length_eq.symm ▸ less
    have here : a.letters[n]? = some (a.letter n) := getElem_letters less
    rw [List.getElem?_eq_getElem inside] at here
    refine ⟨inside, Option.some.inj here, fun j before same => ?_⟩
    rw [← Option.some.inj here] at same
    exact absurd ((List.Nodup.getElem_inj_iff a.nodup).mp same) (Nat.ne_of_lt before)

@[simp] theorem value_letter (n : Nat) : a.value (a.letter n) = some (n % 64) :=
  value_eq_some.mpr ⟨Nat.mod_lt n (by decide), letter_mod n⟩

/-! ## What is written -/

theorem encode_mem {bytes : List UInt8} : ∀ c ∈ a.encode bytes, c ∈ a.letters := by
  induction bytes using encode.induct with
  | case1 => simp [encode]
  | case2 b => simp [encode, letter_mem]
  | case3 b c => simp [encode, letter_mem]
  | case4 b c d rest ih => simpa [encode, letter_mem] using ih

theorem length_encode (bytes : List UInt8) :
    (a.encode bytes).length = (4 * bytes.length + 2) / 3 := by
  induction bytes using encode.induct with
  | case1 => simp [encode]
  | case2 b => simp [encode]
  | case3 b c => simp [encode]
  | case4 b c d rest ih =>
      simp only [encode, List.length_cons, ih]
      omega

theorem ofNat_eq {b : UInt8} {n : Nat} (same : n = b.toNat) : UInt8.ofNat n = b := by
  rw [same, UInt8.ofNat_toNat]

theorem decode_encode (bytes : List UInt8) : a.decode (a.encode bytes) = some bytes := by
  induction bytes using encode.induct with
  | case1 => rfl
  | case2 b =>
      have small := b.toNat_lt
      simp only [encode, decode, value_letter, Option.bind_eq_bind, Option.bind_some]
      rw [if_pos (by omega), ofNat_eq (b := b) (by omega)]
  | case3 b c =>
      have small := b.toNat_lt
      have small' := c.toNat_lt
      simp only [encode, decode, value_letter, Option.bind_eq_bind, Option.bind_some]
      rw [if_pos (by omega), ofNat_eq (b := b) (by omega), ofNat_eq (b := c) (by omega)]
  | case4 b c d rest ih =>
      have small := b.toNat_lt
      have small' := c.toNat_lt
      have small'' := d.toNat_lt
      simp only [encode, decode, value_letter, ih, Option.bind_eq_bind, Option.bind_some]
      rw [ofNat_eq (b := b) (by omega), ofNat_eq (b := c) (by omega), ofNat_eq (b := d) (by omega)]

theorem toNat_of_lt {n : Nat} (small : n < 256) : (UInt8.ofNat n).toNat = n :=
  UInt8.toNat_ofNat_of_lt' small

theorem encode_of_decode {text : List Char} {bytes : List UInt8}
    (read : a.decode text = some bytes) : a.encode bytes = text := by
  induction text using decode.induct generalizing bytes with
  | case1 =>
      obtain rfl := Option.some.inj read
      rfl
  | case2 w => cases read
  | case3 w x =>
      simp only [decode, Option.bind_eq_bind, Option.bind_eq_some_iff] at read
      obtain ⟨v, isV, u, isU, read⟩ := read
      obtain ⟨v_lt, rfl⟩ := value_eq_some.mp isV
      obtain ⟨u_lt, rfl⟩ := value_eq_some.mp isU
      split at read
      · obtain rfl := Option.some.inj read
        have first : (v * 4 + u / 16) / 4 = v := by omega
        have second : (v * 4 + u / 16) % 4 * 16 = u := by omega
        rw [encode, toNat_of_lt (by omega), first, second]
      · cases read
  | case4 w x y =>
      simp only [decode, Option.bind_eq_bind, Option.bind_eq_some_iff] at read
      obtain ⟨v, isV, u, isU, t, isT, read⟩ := read
      obtain ⟨v_lt, rfl⟩ := value_eq_some.mp isV
      obtain ⟨u_lt, rfl⟩ := value_eq_some.mp isU
      obtain ⟨t_lt, rfl⟩ := value_eq_some.mp isT
      split at read
      · obtain rfl := Option.some.inj read
        have first : (v * 4 + u / 16) / 4 = v := by omega
        have second : (v * 4 + u / 16) % 4 * 16 + (u % 16 * 16 + t / 4) / 16 = u := by omega
        have third : (u % 16 * 16 + t / 4) % 16 * 4 = t := by omega
        rw [encode, toNat_of_lt (by omega), toNat_of_lt (by omega), first, second, third]
      · cases read
  | case5 w x y z text ih =>
      simp only [decode, Option.bind_eq_bind, Option.bind_eq_some_iff] at read
      obtain ⟨v, isV, u, isU, t, isT, s, isS, rest, later, read⟩ := read
      obtain ⟨v_lt, rfl⟩ := value_eq_some.mp isV
      obtain ⟨u_lt, rfl⟩ := value_eq_some.mp isU
      obtain ⟨t_lt, rfl⟩ := value_eq_some.mp isT
      obtain ⟨s_lt, rfl⟩ := value_eq_some.mp isS
      obtain rfl := Option.some.inj read
      have first : (v * 4 + u / 16) / 4 = v := by omega
      have second : (v * 4 + u / 16) % 4 * 16 + (u % 16 * 16 + t / 4) / 16 = u := by omega
      have third : (u % 16 * 16 + t / 4) % 16 * 4 + (t % 4 * 64 + s) / 64 = t := by omega
      have fourth : (t % 4 * 64 + s) % 64 = s := by omega
      rw [encode, toNat_of_lt (by omega), toNat_of_lt (by omega), toNat_of_lt (by omega), first,
        second, third, ← letter_mod (t % 4 * 64 + s), fourth, ih later]

/-- **The decoder accepts exactly what the encoder writes.** -/
theorem decode_eq_some {text : List Char} {bytes : List UInt8} :
    a.decode text = some bytes ↔ a.encode bytes = text :=
  ⟨encode_of_decode, fun written => written ▸ decode_encode bytes⟩

theorem encode_injective : Function.Injective a.encode := by
  intro bytes other same
  have read := decode_eq_some.mpr same
  rw [decode_encode] at read
  exact (Option.some.inj read).symm

end Base64Alphabet

end Ministr.Theory
