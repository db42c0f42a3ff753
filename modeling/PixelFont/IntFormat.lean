/-!
Fixed-width big-endian integers. A format is a width in bytes and a signedness; encoding refuses
what does not fit and never truncates. Main statement: `ofBigEndian_bigEndian`, by which `n` digits
spell a number up to multiples of the `n`-th power of 256.
-/

set_option autoImplicit false

namespace PixelFont

/-- How many values `bits` bits can tell apart. -/
def valueCount (bits : Nat) : Nat := Nat.pow 2 bits

/-- How an integer is laid out in compiled data. Only widths of one to four bytes can be encoded. -/
structure IntFormat where
  width : UInt8
  signed : Bool
  deriving DecidableEq, Repr

namespace IntFormat

def u8 : IntFormat := ⟨1, false⟩
def i8 : IntFormat := ⟨1, true⟩
def u16 : IntFormat := ⟨2, false⟩

def bytes (f : IntFormat) : Nat := f.width.toNat

def bits (f : IntFormat) : Nat := 8 * f.bytes

def least (f : IntFormat) : Int := if f.signed then -(valueCount (f.bits - 1) : Int) else 0

def greatest (f : IntFormat) : Int :=
  (valueCount (if f.signed then f.bits - 1 else f.bits) : Int) - 1

def admits (f : IntFormat) (v : Int) : Bool := f.least ≤ v && v ≤ f.greatest

def cName (f : IntFormat) : String := (if f.signed then "int" else "uint") ++ s!"{f.bits}_t"

def describe (f : IntFormat) : String :=
  "FieldType \x7b width: " ++ toString f.bytes ++ ", signed: " ++ toString f.signed ++ " \x7d"

inductive Fault where
  | outOfRange (value : Int) (format : IntFormat)
  | unsupportedWidth (bytes : Nat)
  deriving DecidableEq, Repr

def rangeMessage (f : IntFormat) (v : Int) : String :=
  s!"value {v} out of range for {f.cName} ({f.least}..={f.greatest})"

def Fault.message : Fault → String
  | .outOfRange v f => f.rangeMessage v
  | .unsupportedWidth n => s!"unsupported field width ({n} bytes)"

def supported (n : Nat) : Bool := 1 ≤ n && n ≤ 4

end IntFormat

/-- The last `n` base-256 digits of a number, most significant first. -/
def bigEndian : Nat → Nat → List UInt8
  | 0, _ => []
  | n + 1, v => bigEndian n (v / 256) ++ [UInt8.ofNat v]

def ofBigEndian (bs : List UInt8) : Nat := bs.foldl (fun n b => 256 * n + b.toNat) 0

@[simp] theorem length_bigEndian (n v : Nat) : (bigEndian n v).length = n := by
  induction n generalizing v with
  | zero => rfl
  | succ n ih => simp [bigEndian, ih]

theorem ofBigEndian_concat (bs : List UInt8) (b : UInt8) :
    ofBigEndian (bs ++ [b]) = 256 * ofBigEndian bs + b.toNat := by
  simp [ofBigEndian]

theorem valueCount_byte (n : Nat) : valueCount (8 * (n + 1)) = 256 * valueCount (8 * n) := by
  simp only [valueCount, Nat.pow_eq, Nat.mul_add, Nat.pow_add]
  omega

theorem ofBigEndian_bigEndian (n v : Nat) :
    ofBigEndian (bigEndian n v) = v % valueCount (8 * n) := by
  induction n generalizing v with
  | zero => simp [bigEndian, ofBigEndian, valueCount, Nat.mod_one]
  | succ n ih =>
    rw [bigEndian, ofBigEndian_concat, ih, valueCount_byte, Nat.mod_mul]
    have h : (UInt8.ofNat v).toNat = v % 256 := UInt8.toNat_ofNat'
    omega

/-- A number of so many bits read as a signed one: the upper half stands for the negatives. -/
def ofTwosComplement (bits n : Nat) : Int :=
  if valueCount (bits - 1) ≤ n then (n : Int) - valueCount bits else n

namespace IntFormat

def encode (f : IntFormat) (v : Int) : Except Fault (List UInt8) :=
  if !supported f.bytes then .error (.unsupportedWidth f.bytes)
  else if !f.admits v then .error (.outOfRange v f)
  else .ok (bigEndian f.bytes (v % valueCount f.bits).toNat)

/-- Reads the field at the head of `bs`. Too few bytes are a field of an unsupported width. -/
def decode (f : IntFormat) (bs : List UInt8) : Except Fault Int :=
  if !supported f.bytes then .error (.unsupportedWidth f.bytes)
  else if bs.length < f.bytes then .error (.unsupportedWidth bs.length)
  else
    let n := ofBigEndian (bs.take f.bytes)
    .ok (if f.signed then ofTwosComplement f.bits n else n)

end IntFormat

def toUInt8? (v : Int) : Option UInt8 :=
  if 0 ≤ v ∧ v < 0x100 then some (UInt8.ofNat v.toNat) else none

def toUInt16? (v : Int) : Option UInt16 :=
  if 0 ≤ v ∧ v < 0x10000 then some (UInt16.ofNat v.toNat) else none

def toUInt32? (v : Int) : Option UInt32 :=
  if 0 ≤ v ∧ v < 0x100000000 then some (UInt32.ofNat v.toNat) else none

def toInt32? (v : Int) : Option Int32 :=
  if -0x80000000 ≤ v ∧ v < 0x80000000 then some (Int32.ofInt v) else none

end PixelFont
