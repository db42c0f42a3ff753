import PixelFont.Proofs.Hex
import PixelFont.Proofs.Machine.Field

set_option autoImplicit false

namespace PixelFont

namespace IntFormat

def ofWidth (width : Nat) (signed : Bool) : IntFormat := ⟨UInt8.ofNat width, signed⟩

section Supported

variable {width : Nat} (h : supported width = true)
include h

theorem bytes_ofWidth (signed : Bool) : (ofWidth width signed).bytes = width := by
  have hw := (supported_iff.mp h).2
  show (UInt8.ofNat width).toNat = width
  rw [UInt8.toNat_ofNat', Nat.mod_eq_of_lt (by omega)]

theorem bits_ofWidth (signed : Bool) : (ofWidth width signed).bits = 8 * width := by
  rw [bits, bytes_ofWidth h]

theorem greatest_ofWidth : (ofWidth width false).greatest = valueCount (8 * width) - 1 := by
  rw [greatest, bits_ofWidth h]
  rfl

theorem least_ofWidth : (ofWidth width true).least = -(valueCount (8 * width - 1) : Int) := by
  rw [least, bits_ofWidth h]
  rfl

theorem spell_ofWidth (signed : Bool) (v : Int) :
    (ofWidth width signed).spell v = bigEndian width (v % valueCount (8 * width)).toNat := by
  rw [spell, bytes_ofWidth h, bits_ofWidth h]

theorem holds_ofWidth_iff (signed : Bool) (v : Int) :
    (ofWidth width signed).Holds v ↔
      (ofWidth width signed).least ≤ v ∧ v ≤ (ofWidth width signed).greatest := by
  rw [holds_iff, bytes_ofWidth h]
  exact and_iff_right h

end Supported
end IntFormat

namespace BigEndian

open IntFormat (Fault supported supported_iff ofWidth)

section Supported

variable {width : Nat} (h : supported width = true)
include h

theorem ofUnsigned_of_lt {v : UInt32} (hv : v.toNat < valueCount (8 * width)) :
    ofUnsigned v width = .ok (bigEndian width v.toNat) := by
  have hg := IntFormat.greatest_ofWidth h
  have hle : ¬ (ofWidth width false).greatest < v.toNat := by omega
  rw [ofUnsigned, h]
  exact if_neg hle

theorem ofUnsigned_of_not_lt {v : UInt32} (hv : ¬ v.toNat < valueCount (8 * width)) :
    ofUnsigned v width = .error (.outOfRange v.toNat (ofWidth width false)) := by
  have hg := IntFormat.greatest_ofWidth h
  have hlt : (ofWidth width false).greatest < v.toNat := by omega
  rw [ofUnsigned, h]
  exact if_pos hlt

theorem ofUnsigned_eq_ok_iff {v : UInt32} {bs : List UInt8} :
    ofUnsigned v width = .ok bs ↔
      v.toNat < valueCount (8 * width) ∧ bs = bigEndian width v.toNat := by
  by_cases hv : v.toNat < valueCount (8 * width)
  · simp [ofUnsigned_of_lt h hv, hv, eq_comm]
  · simp [ofUnsigned_of_not_lt h hv, hv]

theorem ofUnsigned_eq_encode (v : UInt32) :
    ofUnsigned v width = (ofWidth width false).encode v.toNat := by
  have hg := IntFormat.greatest_ofWidth h
  have hholds := IntFormat.holds_ofWidth_iff h false v.toNat
  have hl : (ofWidth width false).least = 0 := rfl
  by_cases hv : v.toNat < valueCount (8 * width)
  · have hresidue : ((v.toNat : Int) % valueCount (8 * width)).toNat = v.toNat := by
      rw [Int.emod_eq_of_lt (by omega) (by omega), Int.toNat_natCast]
    rw [ofUnsigned_of_lt h hv, IntFormat.encode_of_holds (hholds.mpr (by omega)),
      IntFormat.spell_ofWidth h, hresidue]
  · have hs : supported (ofWidth width false).bytes = true := by rw [IntFormat.bytes_ofWidth h, h]
    have ha : (ofWidth width false).admits v.toNat = false := by
      refine Bool.eq_false_iff.mpr fun ha => hv ?_
      have := hholds.mp ⟨hs, ha⟩
      omega
    rw [ofUnsigned_of_not_lt h hv, IntFormat.encode_of_not_admits hs ha]

theorem toUnsigned_bigEndian {n : Nat} (hn : n < valueCount (8 * width)) :
    ∃ word, toUnsigned (bigEndian width n) = .ok word ∧ word.toNat = n := by
  have hword : n < 2 ^ 32 := by
    have hw := (supported_iff.mp h).2
    exact Nat.lt_of_lt_of_le hn (Nat.pow_le_pow_right (by decide) (by omega))
  refine ⟨UInt32.ofNat n, ?_, ?_⟩
  · rw [toUnsigned, length_bigEndian, h, if_pos rfl, ofBigEndian_bigEndian, Nat.mod_eq_of_lt hn]
  · rw [UInt32.toNat_ofNat', Nat.mod_eq_of_lt hword]

theorem exists_ofUnsigned_of_nonneg {v : Int32} (hv : 0 ≤ v.toInt) :
    ∃ word : UInt32, ofSigned v width = ofUnsigned word width ∧ word.toNat = v.toInt := by
  have hlt := v.toInt_lt
  refine ⟨UInt32.ofNat v.toInt.toNat, ?_, ?_⟩
  · rw [ofSigned, h]
    exact if_pos hv
  · rw [UInt32.toNat_ofNat', Nat.mod_eq_of_lt (by omega), Int.toNat_of_nonneg hv]

theorem ofSigned_of_within {v : Int32} (hl : -(valueCount (8 * width - 1) : Int) ≤ v.toInt)
    (hg : v.toInt < valueCount (8 * width)) :
    ofSigned v width = .ok (bigEndian width (v.toInt % valueCount (8 * width)).toNat) := by
  by_cases hv : 0 ≤ v.toInt
  · obtain ⟨word, hof, hword⟩ := exists_ofUnsigned_of_nonneg h hv
    rw [hof, ofUnsigned_of_lt h (by omega), Int.emod_eq_of_lt hv hg, ← hword, Int.toNat_natCast]
  · have hleast := IntFormat.least_ofWidth h
    have hle : ¬ v.toInt < (ofWidth width true).least := by omega
    have hpos := (supported_iff.mp h).1
    have hdouble : valueCount (8 * width) = 2 * valueCount (8 * width - 1) :=
      valueCount_eq_double (by omega)
    have hresidue : v.toInt % valueCount (8 * width) = valueCount (8 * width) + v.toInt := by
      rw [← Int.add_emod_left]
      exact Int.emod_eq_of_lt (by omega) (by omega)
    rw [ofSigned, h, hresidue]
    exact (if_neg hv).trans (if_neg hle)

theorem ofSigned_of_not_within {v : Int32}
    (hv : ¬ (-(valueCount (8 * width - 1) : Int) ≤ v.toInt ∧ v.toInt < valueCount (8 * width))) :
    ofSigned v width = .error (.outOfRange v.toInt (ofWidth width (decide (v.toInt < 0)))) := by
  by_cases hneg : v.toInt < 0
  · have hleast := IntFormat.least_ofWidth h
    have hlt : v.toInt < (ofWidth width true).least := by omega
    rw [ofSigned, h, decide_eq_true hneg]
    exact (if_neg (Int.not_le.mpr hneg)).trans (if_pos hlt)
  · obtain ⟨word, hof, hword⟩ := exists_ofUnsigned_of_nonneg h (Int.not_lt.mp hneg)
    rw [hof, ofUnsigned_of_not_lt h (by omega), hword, decide_eq_false hneg]

theorem ofSigned_eq_ok_iff {v : Int32} {bs : List UInt8} :
    ofSigned v width = .ok bs ↔
      (-(valueCount (8 * width - 1) : Int) ≤ v.toInt ∧ v.toInt < valueCount (8 * width)) ∧
        bs = bigEndian width (v.toInt % valueCount (8 * width)).toNat := by
  by_cases hv : -(valueCount (8 * width - 1) : Int) ≤ v.toInt ∧ v.toInt < valueCount (8 * width)
  · simp [ofSigned_of_within h hv.1 hv.2, hv, eq_comm]
  · simp [ofSigned_of_not_within h hv, hv]

theorem toSigned_bigEndian {n : Nat} (hn : n < valueCount (8 * width)) :
    ∃ word, toSigned (bigEndian width n) = .ok word ∧
      word.toInt = ofTwosComplement (8 * width) n := by
  obtain ⟨hpos, hle⟩ := supported_iff.mp h
  obtain ⟨word, hword, rfl⟩ := toUnsigned_bigEndian h hn
  refine ⟨Int32.ofInt (ofTwosComplement (8 * width) word.toNat), ?_,
    Machine.toInt_ofTwosComplement (by omega) (by omega) hn⟩
  rw [toSigned, hword, length_bigEndian]
  rfl

theorem toUnsigned_of_ofUnsigned {v : UInt32} {bs : List UInt8}
    (hbs : ofUnsigned v width = .ok bs) : toUnsigned bs = .ok v := by
  obtain ⟨hv, rfl⟩ := (ofUnsigned_eq_ok_iff h).mp hbs
  obtain ⟨word, hword, hn⟩ := toUnsigned_bigEndian h hv
  rw [hword, UInt32.toNat_inj.mp hn]

theorem exists_toSigned {v : Int} (hl : -(valueCount (8 * width - 1) : Int) ≤ v)
    (hg : v < valueCount (8 * width)) :
    ∃ word, toSigned (bigEndian width (v % valueCount (8 * width)).toNat) = .ok word ∧
      word.toInt = if v < valueCount (8 * width - 1) then v else v - valueCount (8 * width) := by
  have hpos := (supported_iff.mp h).1
  obtain ⟨word, hword, hvalue⟩ := toSigned_bigEndian h (residue_lt (8 * width) v)
  exact ⟨word, hword, hvalue.trans (ofTwosComplement_residue (by omega) hl hg)⟩

theorem ofSigned_of_encode {v : Int32} {bs : List UInt8}
    (hbs : (ofWidth width true).encode v.toInt = .ok bs) : ofSigned v width = .ok bs := by
  obtain ⟨hholds, rfl⟩ := IntFormat.encode_eq_ok_iff.mp hbs
  obtain ⟨hl, hg⟩ := (IntFormat.holds_ofWidth_iff h true v.toInt).mp hholds
  rw [IntFormat.least_ofWidth h] at hl
  have hgreatest : (ofWidth width true).greatest < valueCount (8 * width) := by
    have hbits := IntFormat.bits_ofWidth h true
    have hle : valueCount (8 * width - 1) ≤ valueCount (8 * width) :=
      Nat.pow_le_pow_right (by decide) (Nat.sub_le _ _)
    rw [IntFormat.greatest, hbits]
    show (valueCount (8 * width - 1) : Int) - 1 < _
    omega
  rw [IntFormat.spell_ofWidth h, ofSigned_of_within h hl (by omega)]

theorem exists_unsignedText {v : UInt32} {bs : List UInt8} (hbs : ofUnsigned v width = .ok bs) :
    ∃ text, unsignedText v width = .ok text ∧ text.length = 2 * width ∧
      (∀ c ∈ text.toList, c ∈ "0123456789abcdef".toList) ∧
      Text.natural? 16 text.toList = some v.toNat := by
  obtain ⟨hv, rfl⟩ := (ofUnsigned_eq_ok_iff h).mp hbs
  have hne : bigEndian width v.toNat ≠ [] := by
    have hw := (supported_iff.mp h).1
    rw [← List.length_pos_iff, length_bigEndian]
    exact hw
  refine ⟨Hex.text (bigEndian width v.toNat), ?_, ?_, ?_, ?_⟩
  · rw [unsignedText, hbs]
    rfl
  · rw [Hex.text, String.length_ofList, Hex.length_digits, length_bigEndian]
  · rw [Hex.text, String.toList_ofList]
    exact fun c => Hex.mem_lowercase
  · rw [Hex.text, String.toList_ofList, Hex.natural?_digits hne, ofBigEndian_bigEndian,
      Nat.mod_eq_of_lt hv]

end Supported

theorem refused_of_not_supported {width : Nat} (h : supported width = false) :
    (∀ v, ofUnsigned v width = .error (.unsupportedWidth width) ∧
      unsignedText v width = .error (.unsupportedWidth width)) ∧
    (∀ v, ofSigned v width = .error (.unsupportedWidth width) ∧
      signedText v width = .error (.unsupportedWidth width)) ∧
    ∀ bs : List UInt8, bs.length = width →
      toUnsigned bs = .error (.unsupportedWidth width) ∧
        toSigned bs = .error (.unsupportedWidth width) := by
  refine ⟨fun v => ?_, fun v => ?_, ?_⟩
  · simp [unsignedText, ofUnsigned, h, Except.map]
  · simp [signedText, ofSigned, h, Except.map]
  · rintro bs rfl
    simp [toSigned, toUnsigned, h, Except.map]

/-- At the widths that fields have, a word and its format have the same bytes or the same fault, and
the text has two digits for each byte. A signed word has them up to the bounds of both formats of
its width, and reads back as itself up to the bound of the signed one. -/
theorem agrees_with_format (width : Nat) :
    (1 ≤ width ∧ width ≤ 4 →
      (∀ v : UInt32,
        ofUnsigned v width = (ofWidth width false).encode v.toNat ∧
        (∀ bs, ofUnsigned v width = .ok bs → toUnsigned bs = .ok v ∧
          ∃ text, unsignedText v width = .ok text ∧ text.length = 2 * width ∧
            (∀ c ∈ text.toList, c ∈ "0123456789abcdef".toList) ∧
            Text.natural? 16 text.toList = some v.toNat) ∧
        ∀ e, ofUnsigned v width = .error e → unsignedText v width = .error e) ∧
      ∀ v : Int32,
        ((∃ bs, ofSigned v width = .ok bs) ↔
          -2 ^ (8 * width - 1) ≤ v.toInt ∧ v.toInt < 2 ^ (8 * width)) ∧
        (∀ bs, ofSigned v width = .ok bs → bs.length = width ∧
          ofBigEndian bs = v.toInt % 2 ^ (8 * width) ∧
          ∃ word, toSigned bs = .ok word ∧ word.toInt =
            if v.toInt < 2 ^ (8 * width - 1) then v.toInt else v.toInt - 2 ^ (8 * width)) ∧
        ∀ bs, (ofWidth width true).encode v.toInt = .ok bs → ofSigned v width = .ok bs) ∧
    (¬ (1 ≤ width ∧ width ≤ 4) →
      (∀ v, ofUnsigned v width = .error (.unsupportedWidth width) ∧
        unsignedText v width = .error (.unsupportedWidth width)) ∧
      (∀ v, ofSigned v width = .error (.unsupportedWidth width) ∧
        signedText v width = .error (.unsupportedWidth width)) ∧
      ∀ bs : List UInt8, bs.length = width →
        toUnsigned bs = .error (.unsupportedWidth width) ∧
          toSigned bs = .error (.unsupportedWidth width)) := by
  rw [← supported_iff, Bool.not_eq_true]
  refine ⟨fun h => ⟨fun v => ⟨ofUnsigned_eq_encode h v, fun bs hbs => ?_, fun e he => ?_⟩,
    fun v => ?_⟩, refused_of_not_supported⟩
  · exact ⟨toUnsigned_of_ofUnsigned h hbs, exists_unsignedText h hbs⟩
  · rw [unsignedText, he]
    rfl
  · simp only [← natCast_valueCount]
    refine ⟨?_, fun bs hbs => ?_, fun bs hbs => ?_⟩
    · simp only [ofSigned_eq_ok_iff h, exists_and_left, exists_eq, and_true]
    · obtain ⟨hwithin, rfl⟩ := (ofSigned_eq_ok_iff h).mp hbs
      exact ⟨length_bigEndian _ _, ofBigEndian_residue width v.toInt,
        exists_toSigned h hwithin.1 hwithin.2⟩
    · exact ofSigned_of_encode h hbs

theorem agrees_with_format_upper :
    ofUnsigned 1788 2 = (ofWidth 2 false).encode 1788 ∧
      (∃ bs, ofSigned 200 1 = .ok bs ∧ bs.length = 1 ∧ ofBigEndian bs = (200 : Int) ∧
        ∃ word, toSigned bs = .ok word ∧ word.toInt = -56) ∧
      ofSigned (-128) 1 = .ok [0x80] ∧ (¬ ∃ bs, ofSigned 256 1 = .ok bs) ∧
      ofSigned 0 5 = .error (.unsupportedWidth 5) ∧ toSigned [] = .error (.unsupportedWidth 0) := by
  obtain ⟨htwo, -⟩ := (agrees_with_format 2).1 (by decide)
  obtain ⟨-, hone⟩ := (agrees_with_format 1).1 (by decide)
  obtain ⟨-, hfive, -⟩ := (agrees_with_format 5).2 (by decide)
  obtain ⟨-, -, hnone⟩ := (agrees_with_format 0).2 (by decide)
  obtain ⟨hiff, hback, -⟩ := hone 200
  obtain ⟨bs, hbs⟩ := hiff.mpr (by decide)
  obtain ⟨hlength, hvalue, hword⟩ := hback bs hbs
  have hlast : (ofWidth 1 true).encode (-128 : Int32).toInt = .ok [0x80] := by decide
  refine ⟨(htwo 1788).1, ⟨bs, hbs, hlength, hvalue, hword⟩, (hone (-128)).2.2 _ hlast, ?_,
    (hfive 0).1, (hnone [] rfl).2⟩
  rw [(hone 256).1]
  decide

end BigEndian
end PixelFont
