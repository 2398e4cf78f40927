/-
# Theory.Bytes — byte strings that can be read back

A record is often hashed as a name, a separator and fields of fixed width, one record
after the other.  `flatMap_separated_injective` says when the records can be read back
from the bytes: no name holds the separator, and a record is known by its name and its
fields.  Numbers are little-endian (`leBytes`), text is UTF-8 (`utf8`).
-/
import Mathlib.Data.List.Basic
import Mathlib.Algebra.Ring.Nat
import Mathlib.Tactic.Common

namespace Ministr.Theory

set_option autoImplicit false

universe u v

/-! ## Numbers -/

/-- The low `width` bytes of `n`, the lowest first. -/
def leBytes : Nat → Nat → List UInt8
  | 0, _ => []
  | width + 1, n => UInt8.ofNat (n % 256) :: leBytes width (n / 256)

@[simp] theorem length_leBytes (width n : Nat) : (leBytes width n).length = width := by
  induction width generalizing n with
  | zero => rfl
  | succ width ih => simp [leBytes, ih]

/-- The number with these bytes, the lowest first. -/
def ofLeBytes : List UInt8 → Nat
  | [] => 0
  | b :: bs => b.toNat + 256 * ofLeBytes bs

/-- A number that fits is read back. -/
theorem ofLeBytes_leBytes {width n : Nat} (fits : n < 256 ^ width) :
    ofLeBytes (leBytes width n) = n := by
  induction width generalizing n with
  | zero =>
      simp only [Nat.pow_zero] at fits
      show 0 = n
      omega
  | succ width ih =>
      rw [Nat.pow_succ] at fits
      rw [leBytes, ofLeBytes, ih (by omega)]
      simp only [UInt8.toNat_ofNat', Nat.reducePow, Nat.mod_mod]
      omega

theorem leBytes_injective {width n m : Nat} (fitsN : n < 256 ^ width) (fitsM : m < 256 ^ width)
    (same : leBytes width n = leBytes width m) : n = m := by
  rw [← ofLeBytes_leBytes fitsN, same, ofLeBytes_leBytes fitsM]

/-! ## Text -/

/-- `str::as_bytes`. -/
def utf8 (s : String) : List UInt8 := s.toList.flatMap String.utf8EncodeChar

theorem utf8_injective {s t : String} (same : utf8 s = utf8 t) : s = t := by
  have encoded : s.toList.utf8Encode = t.toList.utf8Encode := by
    simp only [List.utf8Encode]
    exact congrArg _ same
  rw [String.utf8Encode_toList, String.utf8Encode_toList] at encoded
  exact String.toByteArray_inj.mp encoded

/-- Bytes written one character each. -/
theorem byteText_injective :
    Function.Injective fun bytes : List UInt8 =>
      String.ofList (bytes.map fun b => Char.ofNat b.toNat) := by
  have valid : ∀ b : UInt8, (Char.ofNat b.toNat).toNat = b.toNat := by
    intro b
    have valid : b.toNat.isValidChar := .inl (by have := b.toNat_lt; omega)
    unfold Char.ofNat
    rw [dif_pos valid]
    rfl
  have bytes : Function.Injective fun b : UInt8 => Char.ofNat b.toNat := by
    intro b b' same
    exact UInt8.toNat_inj.mp (by rw [← valid b, ← valid b', show Char.ofNat b.toNat = _ from same])
  intro a b same
  exact List.map_injective_iff.mpr bytes (String.ofList_injective same)

theorem ofNat_ne_zero {n : Nat} (low : n % 256 ≠ 0) : (0 : UInt8) ≠ UInt8.ofNat n := by
  intro zero
  have value := congrArg UInt8.toNat zero
  simp only [UInt8.toNat_ofNat', UInt8.toNat_zero, Nat.reducePow] at value
  omega

theorem zero_notMem_utf8EncodeChar {c : Char} (nonzero : c ≠ '\x00') :
    (0 : UInt8) ∉ String.utf8EncodeChar c := by
  have positive : c.val.toNat ≠ 0 := by
    intro zero
    exact nonzero (Char.ext (UInt32.toNat_inj.mp zero))
  simp only [String.utf8EncodeChar]
  split
  · rw [List.mem_singleton]
    exact ofNat_ne_zero (by omega)
  · split
    · simp only [List.mem_cons, List.not_mem_nil, or_false, not_or]
      exact ⟨ofNat_ne_zero (by omega), ofNat_ne_zero (by omega)⟩
    · split
      · simp only [List.mem_cons, List.not_mem_nil, or_false, not_or]
        exact ⟨ofNat_ne_zero (by omega), ofNat_ne_zero (by omega), ofNat_ne_zero (by omega)⟩
      · simp only [List.mem_cons, List.not_mem_nil, or_false, not_or]
        exact ⟨ofNat_ne_zero (by omega), ofNat_ne_zero (by omega), ofNat_ne_zero (by omega),
          ofNat_ne_zero (by omega)⟩

/-- Text without a NUL has no zero byte. -/
theorem zero_notMem_utf8 {s : String} (plain : '\x00' ∉ s.toList) : (0 : UInt8) ∉ utf8 s := by
  intro mem
  obtain ⟨c, listed, mem⟩ := List.mem_flatMap.mp mem
  exact zero_notMem_utf8EncodeChar (fun nul => plain (nul ▸ listed)) mem

/-! ## Records -/

section Records

variable {α : Type u} {β : Type v}

/-- The first separator ends the name. -/
theorem append_cons_inj {sep : β} {l l' r r' : List β} (free : sep ∉ l) (free' : sep ∉ l')
    (same : l ++ sep :: r = l' ++ sep :: r') : l = l' ∧ r = r' := by
  induction l generalizing l' with
  | nil =>
      cases l' with
      | nil => exact ⟨rfl, (List.cons.inj same).2⟩
      | cons b l' => exact absurd (List.mem_cons.mpr (.inl (List.cons.inj same).1)) free'
  | cons a l ih =>
      cases l' with
      | nil => exact absurd (List.mem_cons.mpr (.inl (List.cons.inj same).1.symm)) free
      | cons b l' =>
          obtain ⟨rfl, rest⟩ := List.cons.inj same
          obtain ⟨rfl, tails⟩ := ih (fun mem => free (List.mem_cons_of_mem _ mem))
            (fun mem => free' (List.mem_cons_of_mem _ mem)) rest
          exact ⟨rfl, tails⟩

/-- Records of a name, a separator and fields of one width can be read back. -/
theorem flatMap_separated_injective {sep : β} {width : Nat} {name fields : α → List β}
    (length : ∀ a, (fields a).length = width) {as bs : List α}
    (known : ∀ a ∈ as, ∀ b ∈ bs, name a = name b → fields a = fields b → a = b)
    (freeA : ∀ a ∈ as, sep ∉ name a) (freeB : ∀ b ∈ bs, sep ∉ name b)
    (same : as.flatMap (fun a => name a ++ sep :: fields a) =
      bs.flatMap fun b => name b ++ sep :: fields b) : as = bs := by
  induction as generalizing bs with
  | nil =>
      cases bs with
      | nil => rfl
      | cons b bs => simp at same
  | cons a as ih =>
      cases bs with
      | nil => simp at same
      | cons b bs =>
          simp only [List.flatMap_cons, List.append_assoc, List.cons_append] at same
          obtain ⟨names, rest⟩ := append_cons_inj (freeA a List.mem_cons_self)
            (freeB b List.mem_cons_self) same
          obtain ⟨fieldsEq, tails⟩ := List.append_inj rest ((length a).trans (length b).symm)
          have rest := ih
            (fun a memA b memB => known a (List.mem_cons_of_mem _ memA) b (List.mem_cons_of_mem _ memB))
            (fun a mem => freeA a (List.mem_cons_of_mem _ mem))
            (fun b mem => freeB b (List.mem_cons_of_mem _ mem)) tails
          rw [known a List.mem_cons_self b List.mem_cons_self names fieldsEq, rest]

end Records

end Ministr.Theory
