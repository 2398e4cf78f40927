/-
# Theory.Lowercase — Unicode lower case

The lower case of a text, character by character, from the table of simple mappings (Unicode 16).
Two characters need more: `İ` becomes two, and `Σ` has a form for the ends of words, which no
length and no place of an ASCII letter depends on.

A lower-cased text need not be as long as the text, so an offset in one is not the same offset in
the other.  `cutFirst_toLowercase` says which offset a search in the lower-cased text gives.
-/
import Ministr.Theory.ByteOffsets
import Ministr.Theory.FirstCut

namespace Ministr.Theory

set_option autoImplicit false

/-- Every `stride`-th code point from `first` to `last`; the first becomes `image`. -/
structure CaseRange where
  first : Nat
  last : Nat
  stride : Nat
  image : Nat

namespace CaseRange

variable (r : CaseRange) (n : Nat)

def covers : Bool := decide (r.first ≤ n) && decide (n ≤ r.last) && (n - r.first) % r.stride == 0

def lower : Nat := r.image + (n - r.first)

end CaseRange

def caseRanges : List CaseRange :=
  [⟨0x41, 0x5A, 1, 0x61⟩, ⟨0xC0, 0xD6, 1, 0xE0⟩, ⟨0xD8, 0xDE, 1, 0xF8⟩, ⟨0x100, 0x12E, 2, 0x101⟩,
    ⟨0x132, 0x136, 2, 0x133⟩, ⟨0x139, 0x147, 2, 0x13A⟩, ⟨0x14A, 0x176, 2, 0x14B⟩,
    ⟨0x178, 0x178, 1, 0xFF⟩, ⟨0x179, 0x17D, 2, 0x17A⟩, ⟨0x181, 0x181, 1, 0x253⟩,
    ⟨0x182, 0x184, 2, 0x183⟩, ⟨0x186, 0x186, 1, 0x254⟩, ⟨0x187, 0x187, 1, 0x188⟩,
    ⟨0x189, 0x18A, 1, 0x256⟩, ⟨0x18B, 0x18B, 1, 0x18C⟩, ⟨0x18E, 0x18E, 1, 0x1DD⟩,
    ⟨0x18F, 0x18F, 1, 0x259⟩, ⟨0x190, 0x190, 1, 0x25B⟩, ⟨0x191, 0x191, 1, 0x192⟩,
    ⟨0x193, 0x193, 1, 0x260⟩, ⟨0x194, 0x194, 1, 0x263⟩, ⟨0x196, 0x196, 1, 0x269⟩,
    ⟨0x197, 0x197, 1, 0x268⟩, ⟨0x198, 0x198, 1, 0x199⟩, ⟨0x19C, 0x19C, 1, 0x26F⟩,
    ⟨0x19D, 0x19D, 1, 0x272⟩, ⟨0x19F, 0x19F, 1, 0x275⟩, ⟨0x1A0, 0x1A4, 2, 0x1A1⟩,
    ⟨0x1A6, 0x1A6, 1, 0x280⟩, ⟨0x1A7, 0x1A7, 1, 0x1A8⟩, ⟨0x1A9, 0x1A9, 1, 0x283⟩,
    ⟨0x1AC, 0x1AC, 1, 0x1AD⟩, ⟨0x1AE, 0x1AE, 1, 0x288⟩, ⟨0x1AF, 0x1AF, 1, 0x1B0⟩,
    ⟨0x1B1, 0x1B2, 1, 0x28A⟩, ⟨0x1B3, 0x1B5, 2, 0x1B4⟩, ⟨0x1B7, 0x1B7, 1, 0x292⟩,
    ⟨0x1B8, 0x1B8, 1, 0x1B9⟩, ⟨0x1BC, 0x1BC, 1, 0x1BD⟩, ⟨0x1C4, 0x1C4, 1, 0x1C6⟩,
    ⟨0x1C5, 0x1C5, 1, 0x1C6⟩, ⟨0x1C7, 0x1C7, 1, 0x1C9⟩, ⟨0x1C8, 0x1C8, 1, 0x1C9⟩,
    ⟨0x1CA, 0x1CA, 1, 0x1CC⟩, ⟨0x1CB, 0x1DB, 2, 0x1CC⟩, ⟨0x1DE, 0x1EE, 2, 0x1DF⟩,
    ⟨0x1F1, 0x1F1, 1, 0x1F3⟩, ⟨0x1F2, 0x1F4, 2, 0x1F3⟩, ⟨0x1F6, 0x1F6, 1, 0x195⟩,
    ⟨0x1F7, 0x1F7, 1, 0x1BF⟩, ⟨0x1F8, 0x21E, 2, 0x1F9⟩, ⟨0x220, 0x220, 1, 0x19E⟩,
    ⟨0x222, 0x232, 2, 0x223⟩, ⟨0x23A, 0x23A, 1, 0x2C65⟩, ⟨0x23B, 0x23B, 1, 0x23C⟩,
    ⟨0x23D, 0x23D, 1, 0x19A⟩, ⟨0x23E, 0x23E, 1, 0x2C66⟩, ⟨0x241, 0x241, 1, 0x242⟩,
    ⟨0x243, 0x243, 1, 0x180⟩, ⟨0x244, 0x244, 1, 0x289⟩, ⟨0x245, 0x245, 1, 0x28C⟩,
    ⟨0x246, 0x24E, 2, 0x247⟩, ⟨0x370, 0x372, 2, 0x371⟩, ⟨0x376, 0x376, 1, 0x377⟩,
    ⟨0x37F, 0x37F, 1, 0x3F3⟩, ⟨0x386, 0x386, 1, 0x3AC⟩, ⟨0x388, 0x38A, 1, 0x3AD⟩,
    ⟨0x38C, 0x38C, 1, 0x3CC⟩, ⟨0x38E, 0x38F, 1, 0x3CD⟩, ⟨0x391, 0x3A1, 1, 0x3B1⟩,
    ⟨0x3A3, 0x3AB, 1, 0x3C3⟩, ⟨0x3CF, 0x3CF, 1, 0x3D7⟩, ⟨0x3D8, 0x3EE, 2, 0x3D9⟩,
    ⟨0x3F4, 0x3F4, 1, 0x3B8⟩, ⟨0x3F7, 0x3F7, 1, 0x3F8⟩, ⟨0x3F9, 0x3F9, 1, 0x3F2⟩,
    ⟨0x3FA, 0x3FA, 1, 0x3FB⟩, ⟨0x3FD, 0x3FF, 1, 0x37B⟩, ⟨0x400, 0x40F, 1, 0x450⟩,
    ⟨0x410, 0x42F, 1, 0x430⟩, ⟨0x460, 0x480, 2, 0x461⟩, ⟨0x48A, 0x4BE, 2, 0x48B⟩,
    ⟨0x4C0, 0x4C0, 1, 0x4CF⟩, ⟨0x4C1, 0x4CD, 2, 0x4C2⟩, ⟨0x4D0, 0x52E, 2, 0x4D1⟩,
    ⟨0x531, 0x556, 1, 0x561⟩, ⟨0x10A0, 0x10C5, 1, 0x2D00⟩, ⟨0x10C7, 0x10C7, 1, 0x2D27⟩,
    ⟨0x10CD, 0x10CD, 1, 0x2D2D⟩, ⟨0x13A0, 0x13EF, 1, 0xAB70⟩, ⟨0x13F0, 0x13F5, 1, 0x13F8⟩,
    ⟨0x1C89, 0x1C89, 1, 0x1C8A⟩, ⟨0x1C90, 0x1CBA, 1, 0x10D0⟩, ⟨0x1CBD, 0x1CBF, 1, 0x10FD⟩,
    ⟨0x1E00, 0x1E94, 2, 0x1E01⟩, ⟨0x1E9E, 0x1E9E, 1, 0xDF⟩, ⟨0x1EA0, 0x1EFE, 2, 0x1EA1⟩,
    ⟨0x1F08, 0x1F0F, 1, 0x1F00⟩, ⟨0x1F18, 0x1F1D, 1, 0x1F10⟩, ⟨0x1F28, 0x1F2F, 1, 0x1F20⟩,
    ⟨0x1F38, 0x1F3F, 1, 0x1F30⟩, ⟨0x1F48, 0x1F4D, 1, 0x1F40⟩, ⟨0x1F59, 0x1F5F, 2, 0x1F51⟩,
    ⟨0x1F68, 0x1F6F, 1, 0x1F60⟩, ⟨0x1F88, 0x1F8F, 1, 0x1F80⟩, ⟨0x1F98, 0x1F9F, 1, 0x1F90⟩,
    ⟨0x1FA8, 0x1FAF, 1, 0x1FA0⟩, ⟨0x1FB8, 0x1FB9, 1, 0x1FB0⟩, ⟨0x1FBA, 0x1FBB, 1, 0x1F70⟩,
    ⟨0x1FBC, 0x1FBC, 1, 0x1FB3⟩, ⟨0x1FC8, 0x1FCB, 1, 0x1F72⟩, ⟨0x1FCC, 0x1FCC, 1, 0x1FC3⟩,
    ⟨0x1FD8, 0x1FD9, 1, 0x1FD0⟩, ⟨0x1FDA, 0x1FDB, 1, 0x1F76⟩, ⟨0x1FE8, 0x1FE9, 1, 0x1FE0⟩,
    ⟨0x1FEA, 0x1FEB, 1, 0x1F7A⟩, ⟨0x1FEC, 0x1FEC, 1, 0x1FE5⟩, ⟨0x1FF8, 0x1FF9, 1, 0x1F78⟩,
    ⟨0x1FFA, 0x1FFB, 1, 0x1F7C⟩, ⟨0x1FFC, 0x1FFC, 1, 0x1FF3⟩, ⟨0x2126, 0x2126, 1, 0x3C9⟩,
    ⟨0x212A, 0x212A, 1, 0x6B⟩, ⟨0x212B, 0x212B, 1, 0xE5⟩, ⟨0x2132, 0x2132, 1, 0x214E⟩,
    ⟨0x2160, 0x216F, 1, 0x2170⟩, ⟨0x2183, 0x2183, 1, 0x2184⟩, ⟨0x24B6, 0x24CF, 1, 0x24D0⟩,
    ⟨0x2C00, 0x2C2F, 1, 0x2C30⟩, ⟨0x2C60, 0x2C60, 1, 0x2C61⟩, ⟨0x2C62, 0x2C62, 1, 0x26B⟩,
    ⟨0x2C63, 0x2C63, 1, 0x1D7D⟩, ⟨0x2C64, 0x2C64, 1, 0x27D⟩, ⟨0x2C67, 0x2C6B, 2, 0x2C68⟩,
    ⟨0x2C6D, 0x2C6D, 1, 0x251⟩, ⟨0x2C6E, 0x2C6E, 1, 0x271⟩, ⟨0x2C6F, 0x2C6F, 1, 0x250⟩,
    ⟨0x2C70, 0x2C70, 1, 0x252⟩, ⟨0x2C72, 0x2C72, 1, 0x2C73⟩, ⟨0x2C75, 0x2C75, 1, 0x2C76⟩,
    ⟨0x2C7E, 0x2C7F, 1, 0x23F⟩, ⟨0x2C80, 0x2CE2, 2, 0x2C81⟩, ⟨0x2CEB, 0x2CED, 2, 0x2CEC⟩,
    ⟨0x2CF2, 0x2CF2, 1, 0x2CF3⟩, ⟨0xA640, 0xA66C, 2, 0xA641⟩, ⟨0xA680, 0xA69A, 2, 0xA681⟩,
    ⟨0xA722, 0xA72E, 2, 0xA723⟩, ⟨0xA732, 0xA76E, 2, 0xA733⟩, ⟨0xA779, 0xA77B, 2, 0xA77A⟩,
    ⟨0xA77D, 0xA77D, 1, 0x1D79⟩, ⟨0xA77E, 0xA786, 2, 0xA77F⟩, ⟨0xA78B, 0xA78B, 1, 0xA78C⟩,
    ⟨0xA78D, 0xA78D, 1, 0x265⟩, ⟨0xA790, 0xA792, 2, 0xA791⟩, ⟨0xA796, 0xA7A8, 2, 0xA797⟩,
    ⟨0xA7AA, 0xA7AA, 1, 0x266⟩, ⟨0xA7AB, 0xA7AB, 1, 0x25C⟩, ⟨0xA7AC, 0xA7AC, 1, 0x261⟩,
    ⟨0xA7AD, 0xA7AD, 1, 0x26C⟩, ⟨0xA7AE, 0xA7AE, 1, 0x26A⟩, ⟨0xA7B0, 0xA7B0, 1, 0x29E⟩,
    ⟨0xA7B1, 0xA7B1, 1, 0x287⟩, ⟨0xA7B2, 0xA7B2, 1, 0x29D⟩, ⟨0xA7B3, 0xA7B3, 1, 0xAB53⟩,
    ⟨0xA7B4, 0xA7C2, 2, 0xA7B5⟩, ⟨0xA7C4, 0xA7C4, 1, 0xA794⟩, ⟨0xA7C5, 0xA7C5, 1, 0x282⟩,
    ⟨0xA7C6, 0xA7C6, 1, 0x1D8E⟩, ⟨0xA7C7, 0xA7C9, 2, 0xA7C8⟩, ⟨0xA7CB, 0xA7CB, 1, 0x264⟩,
    ⟨0xA7CC, 0xA7CC, 1, 0xA7CD⟩, ⟨0xA7D0, 0xA7D0, 1, 0xA7D1⟩, ⟨0xA7D6, 0xA7DA, 2, 0xA7D7⟩,
    ⟨0xA7DC, 0xA7DC, 1, 0x19B⟩, ⟨0xA7F5, 0xA7F5, 1, 0xA7F6⟩, ⟨0xFF21, 0xFF3A, 1, 0xFF41⟩,
    ⟨0x10400, 0x10427, 1, 0x10428⟩, ⟨0x104B0, 0x104D3, 1, 0x104D8⟩,
    ⟨0x10570, 0x1057A, 1, 0x10597⟩, ⟨0x1057C, 0x1058A, 1, 0x105A3⟩,
    ⟨0x1058C, 0x10592, 1, 0x105B3⟩, ⟨0x10594, 0x10595, 1, 0x105BB⟩,
    ⟨0x10C80, 0x10CB2, 1, 0x10CC0⟩, ⟨0x10D50, 0x10D65, 1, 0x10D70⟩,
    ⟨0x118A0, 0x118BF, 1, 0x118C0⟩, ⟨0x16E40, 0x16E5F, 1, 0x16E60⟩,
    ⟨0x1E900, 0x1E921, 1, 0x1E922⟩]

def lowerCode (n : Nat) : Nat :=
  match caseRanges.find? fun r => r.covers n with
  | some r => r.lower n
  | none => n

/-- `char::to_lowercase`. -/
def lowerChar (c : Char) : List Char :=
  if c = '\u0130' then ['i', '\u0307'] else [Char.ofNat (lowerCode c.toNat)]

section Text

variable (final : List Char → List Char → Bool)

/-- The text behind `before`, in lower case; `final` says where a sigma ends a word. -/
def lowercaseFrom : List Char → List Char → List Char
  | _, [] => []
  | before, c :: text =>
      (if c = 'Σ' then [if final before text then 'ς' else 'σ'] else lowerChar c) ++
        lowercaseFrom (before ++ [c]) text

/-- `str::to_lowercase`. -/
def toLowercase (text : List Char) : List Char := lowercaseFrom final [] text

end Text

/-- How many bytes a text takes in lower case. -/
def loweredLength (text : List Char) : Nat := byteLength (text.flatMap lowerChar)

@[simp] theorem loweredLength_nil : loweredLength [] = 0 := rfl

theorem loweredLength_cons (c : Char) (text : List Char) :
    loweredLength (c :: text) = byteLength (lowerChar c) + loweredLength text := by
  rw [loweredLength, List.flatMap_cons, byteLength_append, ← loweredLength]

/-! ## The table -/

/-- Images are scalar values, and only the Kelvin sign has an ASCII one from beyond ASCII. -/
theorem caseRanges_sound :
    ∀ r ∈ caseRanges,
      (r.lower r.last < 0xD800 ∨ 0xDFFF < r.image ∧ r.lower r.last < 0x110000) ∧
        (r.last < 128 ∨ 128 ≤ r.image ∨ r.first = r.last ∧ r.image = 'k'.toNat) := by
  decide +kernel

theorem lowerCode_ascii : ∀ n < 128, lowerCode n = if 65 ≤ n ∧ n ≤ 90 then n + 32 else n := by
  intro n small
  have first : caseRanges = ⟨0x41, 0x5A, 1, 0x61⟩ :: caseRanges.tail := rfl
  have beyond : ∀ r ∈ caseRanges.tail, 128 ≤ r.first := by decide +kernel
  have rest : caseRanges.tail.find? (fun r => r.covers n) = none := by
    refine List.find?_eq_none.mpr fun r mem covered => ?_
    have far := beyond r mem
    simp only [CaseRange.covers, Bool.and_eq_true, decide_eq_true_eq] at covered
    omega
  rw [lowerCode, first, List.find?_cons, rest]
  by_cases capital : 65 ≤ n ∧ n ≤ 90
  · have covered : CaseRange.covers ⟨0x41, 0x5A, 1, 0x61⟩ n = true := by
      simp [CaseRange.covers, capital, Nat.mod_one]
    rw [covered, if_pos capital]
    simp only [CaseRange.lower]
    omega
  · have uncovered : CaseRange.covers ⟨0x41, 0x5A, 1, 0x61⟩ n = false := by
      simp only [CaseRange.covers, Nat.mod_one, beq_self_eq_true, Bool.and_true]
      rw [← Bool.decide_and, decide_eq_false_iff_not]
      exact capital
    rw [uncovered, if_neg capital]

theorem lowerCode_cases (n : Nat) :
    lowerCode n = n ∨
      ∃ r ∈ caseRanges, r.first ≤ n ∧ n ≤ r.last ∧ lowerCode n = r.lower n := by
  rw [lowerCode]
  cases found : caseRanges.find? fun r => r.covers n with
  | none => exact .inl rfl
  | some r =>
      have covered := List.find?_some found
      simp only [CaseRange.covers, Bool.and_eq_true, decide_eq_true_eq] at covered
      exact .inr ⟨r, List.mem_of_find?_eq_some found, covered.1.1, covered.1.2, rfl⟩

theorem lowerCode_isValidChar {n : Nat} (valid : n.isValidChar) : (lowerCode n).isValidChar := by
  rcases lowerCode_cases n with same | ⟨r, mem, first, last, image⟩
  · rw [same]
    exact valid
  · have sound := (caseRanges_sound r mem).1
    rw [image]
    simp only [CaseRange.lower, Nat.isValidChar] at sound ⊢
    omega

/-- A code point from beyond ASCII stays there, unless it is the Kelvin sign. -/
theorem lowerCode_large {n : Nat} (large : 128 ≤ n) : 128 ≤ lowerCode n ∨ lowerCode n = 'k'.toNat := by
  rcases lowerCode_cases n with same | ⟨r, mem, first, last, image⟩
  · exact .inl (same.symm ▸ large)
  · rw [image, CaseRange.lower]
    rcases (caseRanges_sound r mem).2 with ascii | far | ⟨one, kelvin⟩
    · omega
    · exact .inl (by omega)
    · right
      omega

/-! ## Characters -/

/-- An ASCII letter, or another ASCII character, that nothing but itself and its capital becomes. -/
def Plain (x : Char) : Prop := x.toNat < 128 ∧ x ≠ 'i' ∧ x ≠ 'k'

instance (x : Char) : Decidable (Plain x) := inferInstanceAs (Decidable (_ ∧ _))

theorem toNat_toLower (c : Char) :
    c.toLower.toNat = if 65 ≤ c.toNat ∧ c.toNat ≤ 90 then c.toNat + 32 else c.toNat := by
  have bounds : (c.val ≥ 'A'.val ∧ c.val ≤ 'Z'.val) ↔ 65 ≤ c.toNat ∧ c.toNat ≤ 90 := by
    rw [ge_iff_le, UInt32.le_iff_toNat_le, UInt32.le_iff_toNat_le]
    rfl
  by_cases capital : c.val ≥ 'A'.val ∧ c.val ≤ 'Z'.val
  · have lowered : c.toLower.val = c.val + ('a'.val - 'A'.val) := congrArg Char.val (dif_pos capital)
    have small := (bounds.mp capital).2
    rw [if_pos (bounds.mp capital)]
    show c.toLower.val.toNat = c.val.toNat + 32
    rw [lowered, UInt32.toNat_add]
    have step : ('a'.val - 'A'.val).toNat = 32 := rfl
    have same : c.val.toNat = c.toNat := rfl
    omega
  · have same : c.toLower = c := dif_neg capital
    rw [if_neg (mt bounds.mpr capital), same]

theorem toNat_ofNat_lowerCode (c : Char) : (Char.ofNat (lowerCode c.toNat)).toNat = lowerCode c.toNat := by
  have valid : (lowerCode c.toNat).isValidChar := lowerCode_isValidChar c.valid
  have built : Char.ofNat (lowerCode c.toNat) = Char.ofNatAux (lowerCode c.toNat) valid :=
    dif_pos valid
  rw [built]
  rfl

theorem lowerChar_ascii {c : Char} (ascii : c.toNat < 128) : lowerChar c = [c.toLower] := by
  have other : c ≠ '\u0130' := by
    rintro rfl
    exact absurd ascii (by decide)
  rw [lowerChar, if_neg other, List.cons.injEq]
  refine ⟨Char.toNat_inj.mp ?_, rfl⟩
  rw [toNat_ofNat_lowerCode, toNat_toLower, lowerCode_ascii _ ascii]

theorem ascii_of_toLower {c x : Char} (plain : Plain x) (same : c.toLower = x) : c.toNat < 128 := by
  have code := toNat_toLower c
  rw [same] at code
  have small := plain.1
  split at code <;> omega

theorem lowerChar_of_toLower {c x : Char} (plain : Plain x) (same : c.toLower = x) :
    lowerChar c = [x] := by
  rw [lowerChar_ascii (ascii_of_toLower plain same), same]

theorem toLower_of_mem {c x : Char} (plain : Plain x) (mem : x ∈ lowerChar c) : c.toLower = x := by
  by_cases ascii : c.toNat < 128
  · rw [lowerChar_ascii ascii, List.mem_singleton] at mem
    exact mem.symm
  · obtain ⟨small, notI, notK⟩ := plain
    rw [lowerChar] at mem
    split at mem
    · rcases List.mem_cons.mp mem with rfl | mem
      · exact absurd rfl notI
      · rw [List.mem_singleton] at mem
        subst mem
        exact absurd small (by decide)
    · rw [List.mem_singleton] at mem
      have code : x.toNat = lowerCode c.toNat := by rw [mem, toNat_ofNat_lowerCode]
      rcases lowerCode_large (Nat.le_of_not_lt ascii) with far | kelvin
      · omega
      · exact absurd (Char.toNat_inj.mp (code.trans kelvin)) notK

theorem lowerChar_ne_nil (c : Char) : lowerChar c ≠ [] := by
  rw [lowerChar]
  split <;> exact List.cons_ne_nil _ _

theorem loweredLength_append (front back : List Char) :
    loweredLength (front ++ back) = loweredLength front + loweredLength back := by
  rw [loweredLength, List.flatMap_append, byteLength_append, ← loweredLength, ← loweredLength]

theorem loweredLength_ascii {text : List Char} (ascii : ∀ c ∈ text, c.toNat < 128) :
    loweredLength text = text.length := by
  induction text with
  | nil => rfl
  | cons c text ih =>
      have own := ascii c List.mem_cons_self
      have one : byteLength (lowerChar c) = 1 := by
        rw [lowerChar_ascii own]
        refine byteLength_ascii fun d mem => ?_
        rw [List.mem_singleton.mp mem, toNat_toLower]
        split <;> omega
      rw [loweredLength_cons, one, ih fun d mem => ascii d (List.mem_cons_of_mem _ mem),
        List.length_cons, Nat.add_comm]

/-! ## Texts -/

section Text

variable (final : List Char → List Char → Bool)

/-- What one character becomes, with its text around it. -/
def lowerAt (before text : List Char) (c : Char) : List Char :=
  if c = 'Σ' then [if final before text then 'ς' else 'σ'] else lowerChar c

theorem lowercaseFrom_cons (before text : List Char) (c : Char) :
    lowercaseFrom final before (c :: text) =
      lowerAt final before text c ++ lowercaseFrom final (before ++ [c]) text := rfl

theorem byteLength_lowerAt (before text : List Char) (c : Char) :
    byteLength (lowerAt final before text c) = byteLength (lowerChar c) := by
  rw [lowerAt]
  split
  · rename_i sigma
    subst sigma
    cases final before text <;> decide
  · rfl

theorem lowerAt_of_toLower {c x : Char} (plain : Plain x) (same : c.toLower = x)
    (before text : List Char) : lowerAt final before text c = [x] := by
  rw [lowerAt, if_neg, lowerChar_of_toLower plain same]
  rintro rfl
  exact absurd (ascii_of_toLower plain same) (by decide)

theorem toLower_of_mem_lowerAt {c x : Char} (plain : Plain x) {before text : List Char}
    (mem : x ∈ lowerAt final before text c) : c.toLower = x := by
  rw [lowerAt] at mem
  split at mem
  · have small := plain.1
    rw [List.mem_singleton] at mem
    subst mem
    cases ends : final before text <;> rw [ends] at small <;> exact absurd small (by decide)
  · exact toLower_of_mem plain mem

theorem lowercaseFrom_ascii {text : List Char} (ascii : ∀ c ∈ text, c.toNat < 128)
    (before : List Char) : lowercaseFrom final before text = text.map Char.toLower := by
  induction text generalizing before with
  | nil => rfl
  | cons c text ih =>
      have small := ascii c List.mem_cons_self
      have other : c ≠ 'Σ' := by
        rintro rfl
        exact absurd small (by decide)
      rw [lowercaseFrom_cons, ih fun d mem => ascii d (List.mem_cons_of_mem _ mem), lowerAt,
        if_neg other, lowerChar_ascii small]
      rfl

/-- A plain word starts the lower-cased text where it starts the text, but for capitals. -/
theorem prefix_lowercaseFrom_iff {word : List Char} (plain : ∀ x ∈ word, Plain x)
    (before text : List Char) :
    word <+: lowercaseFrom final before text ↔ word <+: text.map Char.toLower := by
  induction word generalizing before text with
  | nil => simp
  | cons x word ih =>
      have plainX := plain x List.mem_cons_self
      cases text with
      | nil => rfl
      | cons c text =>
          rw [lowercaseFrom_cons, List.map_cons, List.cons_prefix_cons]
          by_cases same : c.toLower = x
          · rw [lowerAt_of_toLower final plainX same, List.singleton_append, List.cons_prefix_cons,
              ih fun y mem => plain y (List.mem_cons_of_mem _ mem)]
            simp [same]
          · refine iff_of_false (fun start => ?_) fun start => same start.1.symm
            cases chunk : lowerAt final before text c with
            | nil =>
                have empty := byteLength_lowerAt final before text c
                rw [chunk] at empty
                exact absurd empty (Nat.ne_of_lt (byteLength_pos (lowerChar_ne_nil c)))
            | cons y chunk' =>
                rw [chunk, List.cons_append, List.cons_prefix_cons] at start
                have mem : x ∈ lowerAt final before text c := by
                  rw [chunk, start.1]
                  exact List.mem_cons_self
                exact same (toLower_of_mem_lowerAt final plainX mem)

/-- **A search for a plain word in the lower-cased text gives the length, in lower case, of the
text before the first place where the word stands in any mix of cases.** -/
theorem cutFirst_toLowercase {word : List Char} (plain : ∀ x ∈ word, Plain x) (held : word ≠ [])
    (text : List Char) :
    (cutFirst word (toLowercase final text)).map (fun cut => byteLength cut.1) =
      (cutFirst word (text.map Char.toLower)).map fun cut =>
        loweredLength (text.take cut.1.length) := by
  obtain ⟨x, rest, rfl⟩ := List.exists_cons_of_ne_nil held
  have plainX := plain x List.mem_cons_self
  rw [toLowercase]
  generalize [] = before
  induction text generalizing before with
  | nil => simp [lowercaseFrom, cutFirst]
  | cons c text ih =>
      have later : ∀ chunk : List Char, byteLength chunk = byteLength (lowerChar c) →
          ((cutFirst (x :: rest) (lowercaseFrom final (before ++ [c]) text)).map fun cut =>
              (chunk ++ cut.1, cut.2)).map (fun cut => byteLength cut.1) =
            ((cutFirst (x :: rest) (text.map Char.toLower)).map fun cut =>
              (c.toLower :: cut.1, cut.2)).map fun cut =>
                loweredLength ((c :: text).take cut.1.length) := by
        intro chunk size
        have lengths := congrArg (Option.map fun n => byteLength (lowerChar c) + n) (ih (before ++ [c]))
        simp only [Option.map_map, Function.comp_def] at lengths ⊢
        simpa only [byteLength_append, size, List.length_cons, List.take_succ_cons,
          loweredLength_cons] using lengths
      by_cases same : c.toLower = x
      · have start := prefix_lowercaseFrom_iff final plain before (c :: text)
        rw [lowercaseFrom_cons, lowerAt_of_toLower final plainX same, List.singleton_append,
          List.map_cons] at start ⊢
        rw [cutFirst, cutFirst]
        by_cases here : x :: rest <+: c.toLower :: text.map Char.toLower
        · rw [if_pos (start.mpr here), if_pos here]
          simp
        · rw [if_neg (mt start.mp here), if_neg here]
          exact later [x] (by rw [lowerChar_of_toLower plainX same])
      · have free : x ∉ lowerAt final before text c := fun mem =>
          same (toLower_of_mem_lowerAt final plainX mem)
        have other : ¬ x :: rest <+: c.toLower :: text.map Char.toLower := fun start =>
          same (List.cons_prefix_cons.mp start).1.symm
        rw [lowercaseFrom_cons, cutFirst_append_of_free free, List.map_cons, cutFirst, if_neg other]
        exact later _ (byteLength_lowerAt final before text c)

end Text

end Ministr.Theory
