import Mathlib.Algebra.Ring.Int.Defs
import PixelFont.IntFormat

/-!
The codec of integers. A format's bytes for a value it admits are `spell`; decoding gives the value
back whatever follows, and a value that decodes is spelled by the bytes it was decoded from.
-/

set_option autoImplicit false

namespace PixelFont

theorem valueCount_pos (bits : Nat) : 0 < valueCount bits := Nat.two_pow_pos bits

theorem valueCount_succ (bits : Nat) : valueCount (bits + 1) = 2 * valueCount bits := by
  simp only [valueCount, Nat.pow_eq, Nat.pow_succ]
  omega

theorem valueCount_eq_double {bits : Nat} (h : 1 ≤ bits) :
    valueCount bits = 2 * valueCount (bits - 1) := by
  rw [← valueCount_succ, Nat.sub_add_cancel h]

theorem natCast_valueCount (bits : Nat) : (valueCount bits : Int) = 2 ^ bits := by
  simp [valueCount]

theorem ofBigEndian_lt (bs : List UInt8) : ofBigEndian bs < valueCount (8 * bs.length) := by
  rcases bs.eq_nil_or_concat with rfl | ⟨l, b, rfl⟩
  · exact valueCount_pos 0
  · have ih := ofBigEndian_lt l
    have hb := b.toNat_lt
    rw [List.concat_eq_append, ofBigEndian_concat, List.length_append, List.length_singleton,
      valueCount_byte]
    omega
  termination_by bs.length

theorem bigEndian_ofBigEndian (bs : List UInt8) : bigEndian bs.length (ofBigEndian bs) = bs := by
  rcases bs.eq_nil_or_concat with rfl | ⟨l, b, rfl⟩
  · rfl
  · have ih := bigEndian_ofBigEndian l
    have hb := b.toNat_lt
    have hdiv : (256 * ofBigEndian l + b.toNat) / 256 = ofBigEndian l := by omega
    have hlast : UInt8.ofNat (256 * ofBigEndian l + b.toNat) = b := by
      apply UInt8.toNat_inj.mp
      rw [UInt8.toNat_ofNat']
      omega
    rw [List.concat_eq_append, ofBigEndian_concat, List.length_append, List.length_singleton,
      bigEndian, hdiv, ih, hlast]
  termination_by bs.length

/-- The digits of low value do not depend on how many are written before them. -/
theorem drop_bigEndian (m n v : Nat) : (bigEndian (m + n) v).drop m = bigEndian n v := by
  induction n generalizing v with
  | zero => exact List.drop_eq_nil_of_le (Nat.le_of_eq (length_bigEndian m v))
  | succ n ih =>
    have hm : m ≤ (bigEndian (m + n) (v / 256)).length := by
      rw [length_bigEndian]
      exact Nat.le_add_right m n
    rw [← Nat.add_assoc, bigEndian, List.drop_append_of_le_length hm, ih, bigEndian]

theorem residue_lt (bits : Nat) (v : Int) : (v % valueCount bits).toNat < valueCount bits := by
  have hpos := valueCount_pos bits
  have hlt := Int.emod_lt_of_pos v (Int.natCast_pos.mpr hpos)
  omega

theorem ofBigEndian_residue (width : Nat) (v : Int) :
    (ofBigEndian (bigEndian width (v % valueCount (8 * width)).toNat) : Int) =
      v % valueCount (8 * width) := by
  have hpos := valueCount_pos (8 * width)
  rw [ofBigEndian_bigEndian, Nat.mod_eq_of_lt (residue_lt (8 * width) v),
    Int.toNat_of_nonneg (Int.emod_nonneg v (by omega))]

/-- Numbers of so many bits, and as many negative ones as a signed format has. The upper half shares
its residues with the negative ones. -/
theorem ofTwosComplement_residue {bits : Nat} (hb : 1 ≤ bits) {v : Int}
    (hl : -(valueCount (bits - 1) : Int) ≤ v) (hg : v < valueCount bits) :
    ofTwosComplement bits (v % valueCount bits).toNat =
      if v < valueCount (bits - 1) then v else v - valueCount bits := by
  have hdouble := valueCount_eq_double hb
  by_cases hv : 0 ≤ v
  · rw [Int.emod_eq_of_lt hv hg, ofTwosComplement]
    split <;> split <;> omega
  · have hm : v % valueCount bits = v + valueCount bits := by
      rw [← Int.add_emod_right]
      exact Int.emod_eq_of_lt (by omega) (by omega)
    rw [hm, ofTwosComplement, if_pos (by omega), if_pos (by omega)]
    omega

section Narrow

variable {α : Type} {n : Int} {w : α}

/-- Words of a type stand for the numbers from `lo` up to `hi`, each for one of them. -/
theorem narrow_eq_some_iff (value : α → Int) (make : Int → α) {lo hi : Int}
    (hmake : ∀ m, lo ≤ m → m < hi → value (make m) = m) (hw : lo ≤ value w ∧ value w < hi)
    (hback : make (value w) = w) :
    (if lo ≤ n ∧ n < hi then some (make n) else none) = some w ↔ n = value w := by
  constructor
  · intro h
    split at h
    · next hn =>
      obtain rfl := Option.some.inj h
      exact (hmake n hn.1 hn.2).symm
    · cases h
  · rintro rfl
    rw [if_pos hw, hback]

theorem narrow_natCast_eq_some_iff {toNat : α → Nat} {ofNat : Nat → α} {size : Nat}
    (hmod : ∀ m, toNat (ofNat m) = m % size) (hw : toNat w < size) (hback : ofNat (toNat w) = w) :
    (if 0 ≤ n ∧ n < size then some (ofNat n.toNat) else none) = some w ↔ n = toNat w := by
  refine narrow_eq_some_iff (fun w => toNat w) (fun m => ofNat m.toNat) (fun m hl hg => ?_)
    ⟨Int.natCast_nonneg _, Int.ofNat_lt.mpr hw⟩ hback
  have hm : m.toNat < size := by omega
  rw [hmod, Nat.mod_eq_of_lt hm, Int.toNat_of_nonneg hl]

end Narrow

theorem toUInt8?_eq_some_iff {n : Int} {w : UInt8} : toUInt8? n = some w ↔ n = w.toNat :=
  narrow_natCast_eq_some_iff (fun _ => UInt8.toNat_ofNat') w.toNat_lt UInt8.ofNat_toNat

theorem toUInt16?_eq_some_iff {n : Int} {w : UInt16} : toUInt16? n = some w ↔ n = w.toNat :=
  narrow_natCast_eq_some_iff (fun _ => UInt16.toNat_ofNat') w.toNat_lt UInt16.ofNat_toNat

theorem toUInt32?_eq_some_iff {n : Int} {w : UInt32} : toUInt32? n = some w ↔ n = w.toNat :=
  narrow_natCast_eq_some_iff (fun _ => UInt32.toNat_ofNat') w.toNat_lt UInt32.ofNat_toNat

theorem toInt32?_eq_some_iff {n : Int} {w : Int32} : toInt32? n = some w ↔ n = w.toInt :=
  narrow_eq_some_iff Int32.toInt Int32.ofInt
    (fun _ hl hg => Int32.toInt_ofInt_of_le (by omega) (by omega))
    ⟨w.le_toInt, w.toInt_lt⟩ w.ofInt_toInt

namespace IntFormat

theorem supported_iff {n : Nat} : supported n = true ↔ 1 ≤ n ∧ n ≤ 4 := by
  simp [supported]

def spell (f : IntFormat) (v : Int) : List UInt8 :=
  bigEndian f.bytes (v % valueCount f.bits).toNat

@[simp] theorem length_spell (f : IntFormat) (v : Int) : (f.spell v).length = f.bytes :=
  length_bigEndian _ _

/-- A format can hold a value: its width is one that fields have, and the value is in range. -/
def Holds (f : IntFormat) (v : Int) : Prop := supported f.bytes = true ∧ f.admits v = true

theorem holds_iff {f : IntFormat} {v : Int} :
    f.Holds v ↔ supported f.bytes = true ∧ f.least ≤ v ∧ v ≤ f.greatest := by
  simp [Holds, admits]

theorem holds_range (f : IntFormat) (hs : supported f.bytes = true) (v : Int) :
    f.Holds v ↔ f.least ≤ v ∧ v ≤ f.greatest :=
  holds_iff.trans (and_iff_right hs)

/-- A format without a sign bounds a natural number from above only. -/
theorem holds_natCast (f : IntFormat) (hs : supported f.bytes = true) (hf : f.signed = false)
    (n : Nat) : f.Holds n ↔ n ≤ valueCount f.bits - 1 := by
  have hpos := valueCount_pos f.bits
  simp only [holds_range f hs, least, greatest, hf, Bool.false_eq_true, if_false]
  omega

theorem encode_eq_ok_iff {f : IntFormat} {v : Int} {bs : List UInt8} :
    f.encode v = .ok bs ↔ f.Holds v ∧ bs = f.spell v := by
  unfold encode Holds
  by_cases hs : supported f.bytes = true
  · by_cases ha : f.admits v = true
    · simp [hs, ha, spell, eq_comm]
    · simp [hs, ha]
  · simp [hs]

theorem encode_of_holds {f : IntFormat} {v : Int} (h : f.Holds v) : f.encode v = .ok (f.spell v) :=
  encode_eq_ok_iff.mpr ⟨h, rfl⟩

theorem encode_of_not_admits {f : IntFormat} {v : Int} (hs : supported f.bytes = true)
    (ha : f.admits v = false) : f.encode v = .error (.outOfRange v f) := by
  simp [encode, hs, ha]

theorem valueCount_bits {f : IntFormat} (h : supported f.bytes = true) :
    valueCount f.bits = 2 * valueCount (f.bits - 1) := by
  have hpos := (supported_iff.mp h).1
  refine valueCount_eq_double ?_
  rw [bits]
  omega

def value (f : IntFormat) (n : Nat) : Int := if f.signed then ofTwosComplement f.bits n else n

theorem holds_value {f : IntFormat} {n : Nat} (hs : supported f.bytes = true)
    (hn : n < valueCount f.bits) : f.Holds (f.value n) := by
  have hc := valueCount_bits hs
  rw [holds_iff]
  refine ⟨hs, ?_⟩
  cases hf : f.signed with
  | true =>
    simp only [least, greatest, value, ofTwosComplement, hf, if_true]
    split <;> omega
  | false =>
    simp only [least, greatest, value, hf, Bool.false_eq_true, if_false]
    omega

theorem value_emod {f : IntFormat} {n : Nat} (hn : n < valueCount f.bits) :
    (f.value n % valueCount f.bits).toNat = n := by
  have h : (n : Int) % valueCount f.bits = n := Int.emod_eq_of_lt (by omega) (by omega)
  unfold value ofTwosComplement
  split
  · split
    · rw [Int.sub_emod_right, h, Int.toNat_natCast]
    · rw [h, Int.toNat_natCast]
  · rw [h, Int.toNat_natCast]

theorem value_residue {f : IntFormat} {v : Int} (h : f.Holds v) :
    f.value (v % valueCount f.bits).toNat = v := by
  obtain ⟨hs, hl, hg⟩ := holds_iff.mp h
  have hc := valueCount_bits hs
  cases hf : f.signed with
  | true =>
    simp only [least, greatest, hf, if_true] at hl hg
    have hbits : 1 ≤ f.bits := by
      have hpos := (supported_iff.mp hs).1
      rw [bits]
      omega
    simp only [value, hf, if_true]
    rw [ofTwosComplement_residue hbits hl (by omega), if_pos (by omega)]
  | false =>
    simp only [least, greatest, hf, Bool.false_eq_true, if_false] at hl hg
    simp only [value, hf, Bool.false_eq_true, if_false]
    rw [Int.emod_eq_of_lt hl (by omega), Int.toNat_of_nonneg hl]

/-- Decoding looks at the format's width of bytes and at nothing after them. -/
theorem decode_eq_ok_iff {f : IntFormat} {bs : List UInt8} {v : Int} :
    f.decode bs = .ok v ↔ f.Holds v ∧ bs.take f.bytes = f.spell v := by
  constructor
  · intro h
    unfold decode at h
    split at h
    · cases h
    next hs =>
    split at h
    · cases h
    next hlen =>
    simp only [Bool.not_eq_true', Bool.not_eq_false] at hs
    have hn : (bs.take f.bytes).length = f.bytes := List.length_take_of_le (by omega)
    have hlt := ofBigEndian_lt (bs.take f.bytes)
    rw [hn] at hlt
    have hv : f.value (ofBigEndian (bs.take f.bytes)) = v := Except.ok.inj h
    subst hv
    refine ⟨holds_value hs hlt, ?_⟩
    have hb := bigEndian_ofBigEndian (bs.take f.bytes)
    rw [hn] at hb
    rw [spell, value_emod hlt, hb]
  · rintro ⟨h, ht⟩
    have hl : f.bytes ≤ bs.length := by
      have := congrArg List.length ht
      rw [length_spell, List.length_take] at this
      omega
    have hm : (v % valueCount f.bits).toNat % valueCount (8 * f.bytes) =
        (v % valueCount f.bits).toNat := Nat.mod_eq_of_lt (residue_lt f.bits v)
    have hv : f.value (ofBigEndian (bs.take f.bytes)) = v := by
      rw [ht, spell, ofBigEndian_bigEndian, hm, value_residue h]
    unfold decode
    rw [if_neg (by simp [h.1]), if_neg (by omega)]
    exact congrArg Except.ok hv

end IntFormat
end PixelFont
