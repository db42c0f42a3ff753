import PixelFont.IntFormat

/-!
Machine words spelled in a chosen number of bytes, as bytes and as text, without a format. A
signed word that is not negative has the bytes of the unsigned one, so the two kinds share the
upper half of the range: reading it back as signed gives a negative number.
-/

set_option autoImplicit false

namespace PixelFont

namespace Hex

def pair (b : UInt8) : List Char := [Nat.digitChar (b.toNat / 16), Nat.digitChar (b.toNat % 16)]

def digits (bs : List UInt8) : List Char := bs.flatMap pair

def text (bs : List UInt8) : String := String.ofList (digits bs)

end Hex

namespace BigEndian

open IntFormat (Fault supported)

def ofUnsigned (v : UInt32) (width : Nat) : Except Fault (List UInt8) :=
  if !supported width then .error (.unsupportedWidth width)
  else
    let f : IntFormat := ⟨UInt8.ofNat width, false⟩
    if f.greatest < v.toNat then .error (.outOfRange v.toNat f)
    else .ok (bigEndian width v.toNat)

def ofSigned (v : Int32) (width : Nat) : Except Fault (List UInt8) :=
  if !supported width then .error (.unsupportedWidth width)
  else if 0 ≤ v.toInt then ofUnsigned (UInt32.ofNat v.toInt.toNat) width
  else
    let f : IntFormat := ⟨UInt8.ofNat width, true⟩
    if v.toInt < f.least then .error (.outOfRange v.toInt f)
    else .ok (bigEndian width (valueCount (8 * width) + v.toInt).toNat)

def unsignedText (v : UInt32) (width : Nat) : Except Fault String :=
  (ofUnsigned v width).map Hex.text

def signedText (v : Int32) (width : Nat) : Except Fault String := (ofSigned v width).map Hex.text

def toUnsigned (bs : List UInt8) : Except Fault UInt32 :=
  if supported bs.length then .ok (UInt32.ofNat (ofBigEndian bs))
  else .error (.unsupportedWidth bs.length)

def toSigned (bs : List UInt8) : Except Fault Int32 :=
  (toUnsigned bs).map fun n => Int32.ofInt (ofTwosComplement (8 * bs.length) n.toNat)

end BigEndian
end PixelFont
