import Mathlib.Data.List.Induction
import PixelFont.Proofs.Machine.Word
import PixelFont.Proofs.View

set_option autoImplicit false

namespace PixelFont.Machine

open IntFormat (Fault supported)

def checkWidth (n : Nat) : Run Fault Unit :=
  if supported n then pure () else throw (.unsupportedWidth n)

def appendByte (n : Nat) (b : UInt8) : Checked Nat := do
  return (← shiftLeft 32 n 8) ||| b.toNat

def decodeUnsigned (bs : List UInt8) : Run Fault Nat := do
  checkWidth bs.length
  (bs.foldlM appendByte 0 : Checked Nat)

def twosComplement (bits n : Nat) : Checked Int := do
  if (← shiftLeftSigned 64 1 (← sub bits 1)) ≤ n then
    subSigned 64 n (← shiftLeftSigned 64 1 bits)
  else return n

/-- The value is found in a word of 64 bits and then cut to one of 32. -/
def decodeSigned (bs : List UInt8) : Run Fault Int := do
  let n ← decodeUnsigned bs
  let bits ← mul 32 8 (bs.length % 2 ^ 32)
  return (Int32.ofInt (← twosComplement bits n)).toInt

def decode (f : IntFormat) (bs : List UInt8) : Run Fault Int := do
  checkWidth f.bytes
  if bs.length < f.bytes then throw (.unsupportedWidth bs.length)
  else if f.signed then decodeSigned (bs.take f.bytes)
  else return (← decodeUnsigned (bs.take f.bytes))

/-- The part of a view. Its position is counted in a word, which may be too short for it. -/
def part? (v : View) (start stop : Nat) : Option View :=
  if start ≤ stop ∧ stop ≤ v.length then
    some ⟨saturatingAdd 64 v.position start, (v.bytes.drop start).take (stop - start)⟩
  else none

def after? (v : View) (start : Nat) : Option View := part? v start v.length

def before? (v : View) (stop : Nat) : Option View := part? v 0 stop

def read (v : View) (offset : Nat) (f : IntFormat) : Run ReadFault Int :=
  match part? v offset (saturatingAdd 64 offset f.bytes) with
  | none => throw .outOfBounds
  | some field => (decode f field.bytes).adapt .scalar

def field (v : View) (t : OffsetTable) (name : String) : Run ReadFault Int :=
  match t.get? name with
  | none => throw (.missingField name)
  | some ⟨_, none⟩ => throw (.untypedField name)
  | some ⟨offset, some f⟩ => read v offset f

def unsigned (v : View) (t : OffsetTable) (name : String) : Run ReadFault UInt32 := do
  let n ← field v t name
  match toUInt32? n with
  | some word => return word
  | none => throw (.badValue name n)

def signed (v : View) (t : OffsetTable) (name : String) : Run ReadFault Int32 := do
  let n ← field v t name
  match toInt32? n with
  | some word => return word
  | none => throw (.badValue name n)

def box (v : View) (t : OffsetTable) (width height xOffset yOffset : String) :
    Run ReadFault Box := do
  return { width := ← unsigned v t width, height := ← unsigned v t height,
           xOffset := ← signed v t xOffset, yOffset := ← signed v t yOffset }

section Decode

theorem appendByte_eq {n : Nat} (h : n < 2 ^ 24) (b : UInt8) :
    appendByte n b = .ok (256 * n + b.toNat) := by
  have hor := Nat.shiftLeft_add_eq_or_of_lt b.toNat_lt n
  rw [appendByte, shiftLeft_eq (by decide) (by omega), ← Nat.shiftLeft_eq]
  show Except.ok (n <<< 8 ||| b.toNat) = _
  rw [← hor, Nat.shiftLeft_eq]
  congr 1
  omega

/-- Four bytes never shift a set bit out. -/
theorem foldlM_appendByte {bs : List UInt8} (h : bs.length ≤ 4) :
    bs.foldlM appendByte 0 = .ok (ofBigEndian bs) := by
  induction bs using List.reverseRecOn with
  | nil => rfl
  | append_singleton bs b ih =>
    rw [List.length_append, List.length_singleton] at h
    have hlt : ofBigEndian bs < 2 ^ 24 :=
      Nat.lt_of_lt_of_le (ofBigEndian_lt bs) (Nat.pow_le_pow_right (by decide) (by omega))
    rw [List.foldlM_append, ih (by omega), ofBigEndian_concat]
    show List.foldlM appendByte (ofBigEndian bs) [b] = _
    rw [List.foldlM_cons, appendByte_eq hlt]
    rfl

theorem checkWidth_eq {n : Nat} (h : supported n = true) : checkWidth n = pure () := if_pos h

theorem decodeUnsigned_eq {bs : List UInt8} (h : supported bs.length = true) :
    decodeUnsigned bs = pure (ofBigEndian bs) := by
  rw [decodeUnsigned, checkWidth_eq h, foldlM_appendByte (IntFormat.supported_iff.mp h).2]
  rfl

section TwosComplement

variable {bits n : Nat} (h₁ : 1 ≤ bits) (h₂ : bits ≤ 32)
include h₁ h₂

theorem valueCount_pred : valueCount bits = 2 * valueCount (bits - 1) ∧
    valueCount (bits - 1) ≤ 2 ^ 31 := by
  exact ⟨valueCount_eq_double h₁, Nat.pow_le_pow_right (by decide) (by omega)⟩

variable (hn : n < valueCount bits)
include hn

theorem toInt_ofTwosComplement :
    (Int32.ofInt (ofTwosComplement bits n)).toInt = ofTwosComplement bits n := by
  obtain ⟨hdouble, hhalf⟩ := valueCount_pred h₁ h₂
  apply Int32.toInt_ofInt_of_le <;> unfold ofTwosComplement <;> split <;> omega

theorem twosComplement_eq : twosComplement bits n = .ok (ofTwosComplement bits n) := by
  obtain ⟨hdouble, hhalf⟩ := valueCount_pred h₁ h₂
  rw [twosComplement, sub_eq h₁, ok_bind, shiftLeftSigned_one (by omega), ok_bind,
    shiftLeftSigned_one (by omega), ok_bind, ofTwosComplement, ← natCast_valueCount,
    ← natCast_valueCount]
  by_cases h : valueCount (bits - 1) ≤ n
  · rw [if_pos (Int.ofNat_le.mpr h), if_pos h, subSigned_eq (by omega) (by omega)]
  · rw [if_neg (fun hle => h (Int.ofNat_le.mp hle)), if_neg h]
    rfl

end TwosComplement

theorem decodeSigned_eq {bs : List UInt8} (h : supported bs.length = true) :
    decodeSigned bs = pure (ofTwosComplement (8 * bs.length) (ofBigEndian bs)) := by
  obtain ⟨hpos, hle⟩ := IntFormat.supported_iff.mp h
  have h₁ : 1 ≤ 8 * bs.length := by omega
  have h₂ : 8 * bs.length ≤ 32 := by omega
  have hlt := ofBigEndian_lt bs
  rw [decodeSigned, decodeUnsigned_eq h, Nat.mod_eq_of_lt (by omega), mul_eq (by omega), pure_bind,
    Run.lift_ok, pure_bind, twosComplement_eq h₁ h₂ hlt, Run.lift_ok, pure_bind,
    toInt_ofTwosComplement h₁ h₂ hlt]

/-- Reading a field of any format, a width of 0 or of 255 included, shifts by no more than 32. -/
theorem decode_eq (f : IntFormat) (bs : List UInt8) : decode f bs = .of (f.decode bs) := by
  rw [decode, IntFormat.decode]
  cases hs : supported f.bytes with
  | false =>
    simp only [checkWidth, hs, Bool.not_false, Bool.false_eq_true, if_true, if_false]
    rfl
  | true =>
    simp only [checkWidth_eq hs, pure_bind, Bool.not_true, Bool.false_eq_true, if_false]
    by_cases hl : bs.length < f.bytes
    · rw [if_pos hl, if_pos hl, Run.of_error]
    · have htake : (bs.take f.bytes).length = f.bytes := by
        rw [List.length_take, Nat.min_eq_left (Nat.le_of_not_lt hl)]
      have hs' : supported (bs.take f.bytes).length = true := by rw [htake, hs]
      rw [if_neg hl, if_neg hl, decodeSigned_eq hs', decodeUnsigned_eq hs', htake, Run.of_ok]
      cases f.signed <;> rfl

end Decode

/-- Every position in the view fits a word, with bits to spare. -/
def Small (v : View) : Prop := v.position + v.length < 2 ^ 61

theorem small_empty : Small {} := by
  show 0 + 0 < 2 ^ 61
  decide

section View

variable {v w : View} {start stop : Nat} (h : Small v)
include h

theorem Small.part? (hw : v.part? start stop = some w) : Small w := by
  obtain ⟨hle, hstop, rfl⟩ := View.part?_eq_some_iff.mp hw
  have hlength : ((v.bytes.drop start).take (stop - start)).length ≤ stop - start :=
    List.length_take_le _ _
  have h : v.position + v.length < 2 ^ 61 := h
  show v.position + start + _ < 2 ^ 61
  simp only [View.length] at *
  omega

theorem part?_eq (start stop : Nat) : part? v start stop = v.part? start stop := by
  rw [part?, View.part?]
  by_cases hp : start ≤ stop ∧ stop ≤ v.length
  · have h : v.position + v.length < 2 ^ 61 := h
    rw [if_pos hp, if_pos hp, saturatingAdd_eq (by omega)]
  · rw [if_neg hp, if_neg hp]

theorem after?_eq (start : Nat) : after? v start = v.after? start := part?_eq h _ _

theorem before?_eq (stop : Nat) : before? v stop = v.slice? .unbounded (.excluded stop) :=
  part?_eq h _ _

/-- Where the end of a field is beyond all words, so is the field beyond all data. -/
theorem read_eq (offset : Nat) (f : IntFormat) : read v offset f = .of (v.read offset f) := by
  have hpart : part? v offset (saturatingAdd 64 offset f.bytes) =
      v.part? offset (offset + f.bytes) := by
    rw [part?_eq h]
    by_cases ho : offset + f.bytes < 2 ^ 64
    · rw [saturatingAdd_eq ho]
    · have h : v.position + v.length < 2 ^ 61 := h
      rw [View.part?, View.part?, if_neg (by unfold saturatingAdd; omega), if_neg (by omega)]
  have hslice : v.slice? (.included offset) (.excluded (offset + f.bytes)) =
      v.part? offset (offset + f.bytes) := rfl
  rw [read, hpart, View.read, hslice]
  cases v.part? offset (offset + f.bytes) with
  | none => rfl
  | some field =>
    show ExceptT.adapt _ _ = _
    rw [decode_eq, Run.adapt_of]

theorem field_eq (t : OffsetTable) (name : String) : field v t name = .of (v.field t name) := by
  rw [field, View.field]
  cases t.get? name with
  | none => rfl
  | some slot =>
    obtain ⟨offset, format⟩ := slot
    cases format with
    | none => rfl
    | some f => exact read_eq h offset f

theorem unsigned_eq (t : OffsetTable) (name : String) :
    unsigned v t name = .of (v.unsigned t name) := by
  rw [unsigned, field_eq h]
  refine Run.bind_of fun n _ => ?_
  cases toUInt32? n <;> rfl

theorem signed_eq (t : OffsetTable) (name : String) : signed v t name = .of (v.signed t name) := by
  rw [signed, field_eq h]
  refine Run.bind_of fun n _ => ?_
  cases toInt32? n <;> rfl

theorem box_eq (t : OffsetTable) (width height xOffset yOffset : String) :
    box v t width height xOffset yOffset = .of (v.box t width height xOffset yOffset) := by
  rw [box, unsigned_eq h, unsigned_eq h, signed_eq h, signed_eq h]
  exact Run.bind_of fun _ _ => Run.bind_of fun _ _ => Run.bind_of fun _ _ =>
    Run.bind_of fun _ _ => rfl

end View

end PixelFont.Machine
