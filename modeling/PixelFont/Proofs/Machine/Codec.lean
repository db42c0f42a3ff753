import PixelFont.Proofs.Machine.Field

/-!
Values checked and encoded in words of 64 bits, as the machine does it. Main statement:
`codec_inverse`, by which encoding and decoding are inverse at the widths that fields have and fail
at all others, and neither is ever trapped. The bounds of a format need words of twice its range, so
they are found for widths of up to seven bytes.
-/

set_option autoImplicit false

namespace PixelFont

namespace Machine

open IntFormat (Fault supported)

def remSigned (bits : Nat) (v w : Int) : Checked Int :=
  if w = 0 ∨ v = -2 ^ (bits - 1) ∧ w = -1 then .error .overflow else .ok (v % w)

def suffix {α : Type} (as : List α) (start : Nat) : Checked (List α) :=
  if start ≤ as.length then .ok (as.drop start) else .error .index

def bits (f : IntFormat) : Checked Nat := mul 32 f.bytes 8

def least (f : IntFormat) : Checked Int := do
  if f.signed then subSigned 64 0 (← shiftLeftSigned 64 1 (← sub (← bits f) 1)) else return 0

def greatest (f : IntFormat) : Checked Int := do
  if f.signed then subSigned 64 (← shiftLeftSigned 64 1 (← sub (← bits f) 1)) 1
  else subSigned 64 (← shiftLeftSigned 64 1 (← bits f)) 1

def admits (f : IntFormat) (v : Int) : Checked Bool := do
  let lower ← least f
  let upper ← greatest f
  return decide (lower ≤ v) && decide (v ≤ upper)

def wordBytes (n width : Nat) : Checked (List UInt8) := do suffix (bigEndian 8 n) (← sub 8 width)

def encode (f : IntFormat) (v : Int) : Run Fault (List UInt8) := do
  checkWidth f.bytes
  if ← admits f v then
    let residue ← remSigned 64 v (← shiftLeftSigned 64 1 (← bits f))
    wordBytes (residue % 2 ^ 64).toNat f.bytes
  else throw (.outOfRange v f)

theorem remSigned_eq {bits : Nat} {v w : Int} (h : 0 < w) : remSigned bits v w = .ok (v % w) :=
  if_neg (by omega)

theorem wordBytes_eq {width : Nat} (h : width ≤ 8) (n : Nat) :
    wordBytes n width = .ok (bigEndian width n) := by
  have hlength : 8 - width ≤ (bigEndian 8 n).length := by
    rw [length_bigEndian]
    exact Nat.sub_le 8 width
  have hdrop := drop_bigEndian (8 - width) width n
  rw [Nat.sub_add_cancel h] at hdrop
  rw [wordBytes, sub_eq h, ok_bind, suffix, if_pos hlength, hdrop]

theorem bits_eq (f : IntFormat) : bits f = .ok f.bits := by
  have hb : f.bytes < 256 := f.width.toNat_lt
  rw [bits, mul_eq (by omega), Nat.mul_comm]
  rfl

section Bounds

variable {f : IntFormat} (h₁ : 1 ≤ f.bytes) (h₂ : f.bytes ≤ 7)
include h₁ h₂

theorem shiftLeftSigned_valueCount {n : Nat} (hn : n ≤ f.bits) :
    shiftLeftSigned 64 1 n = .ok (valueCount n : Int) ∧ valueCount n ≤ 2 ^ 56 := by
  have hle : n ≤ 56 := by
    unfold IntFormat.bits at hn
    omega
  refine ⟨?_, Nat.pow_le_pow_right (by decide) hle⟩
  rw [shiftLeftSigned_one (by omega), natCast_valueCount]

theorem least_eq : least f = .ok f.least := by
  obtain ⟨hshift, hle⟩ := shiftLeftSigned_valueCount h₁ h₂ (Nat.sub_le f.bits 1)
  have hbits : 1 ≤ f.bits := by
    unfold IntFormat.bits
    omega
  rw [least, IntFormat.least]
  cases f.signed with
  | true =>
    rw [if_pos rfl, if_pos rfl, bits_eq, ok_bind, sub_eq hbits, ok_bind, hshift, ok_bind,
      subSigned_eq (by omega) (by omega), Int.zero_sub]
  | false => rfl

theorem greatest_eq : greatest f = .ok f.greatest := by
  have hbits : 1 ≤ f.bits := by
    unfold IntFormat.bits
    omega
  rw [greatest, IntFormat.greatest, bits_eq]
  cases f.signed with
  | true =>
    obtain ⟨hshift, hle⟩ := shiftLeftSigned_valueCount h₁ h₂ (Nat.sub_le f.bits 1)
    rw [if_pos rfl, if_pos rfl, ok_bind, sub_eq hbits, ok_bind, hshift, ok_bind,
      subSigned_eq (by omega) (by omega)]
  | false =>
    obtain ⟨hshift, hle⟩ := shiftLeftSigned_valueCount h₁ h₂ (Nat.le_refl f.bits)
    rw [if_neg Bool.false_ne_true, if_neg Bool.false_ne_true, ok_bind, hshift, ok_bind,
      subSigned_eq (by omega) (by omega)]

/-- Widths of up to seven bytes leave the bits that the bounds need beyond the range. -/
theorem admits_eq (v : Int) : admits f v = .ok (f.admits v) := by
  rw [admits, least_eq h₁ h₂, ok_bind, greatest_eq h₁ h₂, ok_bind]
  rfl

end Bounds

theorem encode_eq (f : IntFormat) (v : Int) : encode f v = .of (f.encode v) := by
  rw [encode, IntFormat.encode]
  cases hs : supported f.bytes with
  | false =>
    simp only [checkWidth, hs, Bool.not_false, Bool.false_eq_true, if_true, if_false]
    rfl
  | true =>
    obtain ⟨h₁, h₂⟩ := IntFormat.supported_iff.mp hs
    have h₇ : f.bytes ≤ 7 := by omega
    simp only [checkWidth_eq hs, admits_eq h₁ h₇, pure_bind, Run.lift_ok, Bool.not_true,
      Bool.false_eq_true, if_false]
    cases f.admits v with
    | false => rfl
    | true =>
      obtain ⟨hshift, hle⟩ := shiftLeftSigned_valueCount h₁ h₇ (Nat.le_refl f.bits)
      have hpos : (0 : Int) < valueCount f.bits := Int.natCast_pos.mpr (valueCount_pos f.bits)
      have hcast : v % valueCount f.bits % 2 ^ 64 = v % valueCount f.bits := by
        have hlow := Int.emod_nonneg v (Int.ne_of_gt hpos)
        have hhigh := Int.emod_lt_of_pos v hpos
        exact Int.emod_eq_of_lt hlow (by omega)
      rw [if_pos rfl, bits_eq, Run.lift_ok, pure_bind, hshift, Run.lift_ok, pure_bind,
        remSigned_eq hpos, Run.lift_ok, pure_bind, hcast, wordBytes_eq (by omega), Run.lift_ok]
      rfl

end Machine

namespace IntFormat

section Supported

variable {f : IntFormat} (h : supported f.bytes = true)
include h

theorem decode_spell_append {v : Int} (hv : f.least ≤ v ∧ v ≤ f.greatest) (rest : List UInt8) :
    f.decode (f.spell v ++ rest) = .ok v :=
  decode_eq_ok_iff.mpr ⟨holds_iff.mpr ⟨h, hv⟩, List.take_left' (length_spell f v)⟩

theorem exists_decode {bs : List UInt8} (hl : f.bytes ≤ bs.length) :
    ∃ v, f.decode bs = .ok v ∧ (f.least ≤ v ∧ v ≤ f.greatest) ∧
      f.encode v = .ok (bs.take f.bytes) := by
  have hdecode : f.decode bs = .ok (f.value (ofBigEndian (bs.take f.bytes))) := by
    rw [decode, if_neg (by simp [h]), if_neg (Nat.not_lt.mpr hl)]
    rfl
  obtain ⟨hholds, hspell⟩ := decode_eq_ok_iff.mp hdecode
  exact ⟨_, hdecode, (holds_iff.mp hholds).2, encode_eq_ok_iff.mpr ⟨hholds, hspell⟩⟩

end Supported

/-- Between the values of a format and the strings of its width in bytes, encoding and decoding are
inverse at each width that fields have. At any other both are refused before a shift is made. -/
theorem codec_inverse (f : IntFormat) :
    (1 ≤ f.bytes ∧ f.bytes ≤ 4 →
      (∀ v, f.least ≤ v ∧ v ≤ f.greatest →
        ∃ bs, f.encode v = .ok bs ∧ bs.length = f.bytes ∧
          ∀ rest, f.decode (bs ++ rest) = .ok v) ∧
      (∀ v, ¬ (f.least ≤ v ∧ v ≤ f.greatest) → f.encode v = .error (.outOfRange v f)) ∧
      ∀ bs : List UInt8, f.bytes ≤ bs.length →
        ∃ v, f.decode bs = .ok v ∧ (f.least ≤ v ∧ v ≤ f.greatest) ∧
          f.encode v = .ok (bs.take f.bytes)) ∧
    (¬ (1 ≤ f.bytes ∧ f.bytes ≤ 4) → ∀ v bs,
      f.encode v = .error (.unsupportedWidth f.bytes) ∧
        f.decode bs = .error (.unsupportedWidth f.bytes)) ∧
    ∀ v bs, Machine.encode f v = .of (f.encode v) ∧ Machine.decode f bs = .of (f.decode bs) := by
  rw [← supported_iff]
  refine ⟨fun h => ⟨fun v hv => ?_, fun v hv => ?_, fun bs hl => exists_decode h hl⟩,
    fun h v bs => ?_, fun v bs => ⟨Machine.encode_eq f v, Machine.decode_eq f bs⟩⟩
  · exact ⟨f.spell v, encode_of_holds (holds_iff.mpr ⟨h, hv⟩), length_spell f v,
      decode_spell_append h hv⟩
  · refine encode_of_not_admits h (Bool.eq_false_iff.mpr fun ha => hv ?_)
    exact (holds_iff.mp ⟨h, ha⟩).2
  · rw [Bool.not_eq_true] at h
    simp [encode, decode, h]

theorem codec_inverse_widest :
    let f : IntFormat := ⟨4, true⟩
    let wide : IntFormat := ⟨5, true⟩
    (∃ bs, f.encode (-2 ^ 31) = .ok bs ∧ bs.length = 4 ∧
        f.decode (bs ++ [1, 2]) = .ok (-2 ^ 31)) ∧
      f.encode (2 ^ 31) = .error (.outOfRange (2 ^ 31) f) ∧
      (∃ v, f.decode [0xFF, 0xFF, 0xFF, 0xFE, 3] = .ok v ∧
        f.encode v = .ok [0xFF, 0xFF, 0xFF, 0xFE]) ∧
      wide.encode 0 = .error (.unsupportedWidth 5) ∧
      wide.decode [] = .error (.unsupportedWidth 5) ∧
      Machine.encode f (2 ^ 31) = .of (f.encode (2 ^ 31)) := by
  intro f wide
  obtain ⟨hfield, -, hwords⟩ := codec_inverse f
  obtain ⟨-, hrefused, -⟩ := codec_inverse wide
  obtain ⟨hencode, hrange, hdecode⟩ := hfield (by decide)
  obtain ⟨bs, hbs, hlength, hrest⟩ := hencode (-2 ^ 31) (by decide)
  obtain ⟨v, hv, -, hback⟩ := hdecode [0xFF, 0xFF, 0xFF, 0xFE, 3] (by decide)
  obtain ⟨hno, hnone⟩ := hrefused (by decide) 0 []
  exact ⟨⟨bs, hbs, hlength, hrest [1, 2]⟩, hrange (2 ^ 31) (by decide), ⟨v, hv, hback⟩, hno, hnone,
    (hwords (2 ^ 31) []).1⟩

end IntFormat
end PixelFont
