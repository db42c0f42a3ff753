import PixelFont.IntFormat
import PixelFont.Text
import PixelFont.Text.Quoted

set_option autoImplicit false

namespace PixelFont

structure CharCode where
  value : UInt16
  deriving DecidableEq, Repr

namespace CharCode

/-- The code of the glyph that stands for characters a font does not have. -/
def missing : CharCode := ⟨0⟩

def text (c : CharCode) : String :=
  let n := c.value.toNat
  String.ofList (Nat.digitChar <$> [n / 4096, n / 256 % 16, n / 16 % 16, n % 16])

def describe (c : CharCode) : String := s!"GlyphCode({c.text})"

def toBytes (c : CharCode) : UInt8 × UInt8 := ((c.value >>> 8).toUInt8, c.value.toUInt8)

def ofBytes (hi lo : UInt8) : CharCode := ⟨hi.toUInt16 <<< 8 ||| lo.toUInt16⟩

inductive Fault where
  | wrongLength (count : Nat)
  | notHex (index : Nat) (found : Char)
  deriving DecidableEq, Repr

def Fault.message : Fault → String
  | .wrongLength n => s!"glyph code must be 4 hex digits, found {n}"
  | .notHex i c => s!"invalid character {Text.quoted c} at index {i} of glyph code"

def digitCount : Nat := 4

/-- Exactly four digits, of either case. They are looked at before the number is read, which might
have a sign or not fit. -/
def parse (cs : List Char) : Except Fault CharCode :=
  if cs.length ≠ digitCount then .error (.wrongLength cs.length)
  else match cs.zipIdx.find? fun (c, _) => (Text.digit? 16 c).isNone with
    | some (c, i) => .error (.notHex i c)
    | none =>
      match (Text.unsigned? cs 16).bind fun n => toUInt16? n with
      | some value => .ok ⟨value⟩
      | none => .error (.wrongLength cs.length)

end CharCode
end PixelFont
