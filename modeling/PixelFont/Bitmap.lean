/-!
Pixels and their packed form: rows follow one another with no alignment, eight pixels to a byte,
the leftmost in the most significant bit, and zeros after the last pixel. Main statement:
`bitsOf_byteOf`, by which a byte is known by its eight bits.
-/

set_option autoImplicit false

namespace PixelFont

/-- Rows of pixels from top to bottom. They may differ in length. -/
abbrev Bitmap := List (List Bool)

/-- The byte whose bits, most significant first, are `bit 0` to `bit 7`. -/
def byteOf (bit : Nat → Bool) : UInt8 :=
  UInt8.ofNat ((List.range 8).foldl (fun n i => 2 * n + (bit i).toNat) 0)

def bitsOf (b : UInt8) : List Bool := (List.range 8).map fun i => b.toNat.testBit (7 - i)

theorem bitsOf_byteOf (bit : Nat → Bool) : bitsOf (byteOf bit) = (List.range 8).map bit := by
  simp only [bitsOf, byteOf, List.range, List.range.loop, List.map_cons, List.map_nil,
    List.foldl_cons, List.foldl_nil]
  generalize bit 0 = a, bit 1 = b, bit 2 = c, bit 3 = d, bit 4 = e, bit 5 = f, bit 6 = g,
    bit 7 = h
  revert a b c d e f g h
  decide

def bytesFor (n : Nat) : Nat := (n + 7) / 8

def packBits (bits : List Bool) : List UInt8 :=
  let pixels := bits.toArray
  (List.range (bytesFor bits.length)).map fun i => byteOf fun j => pixels.getD (8 * i + j) false

@[simp] theorem length_packBits (bits : List Bool) :
    (packBits bits).length = bytesFor bits.length := by
  simp [packBits]

def unpackBits (bs : List UInt8) : List Bool := bs.flatMap bitsOf

@[simp] theorem length_unpackBits (bs : List UInt8) : (unpackBits bs).length = 8 * bs.length := by
  induction bs with
  | nil => rfl
  | cons b bs ih =>
    simp only [unpackBits, List.flatMap_cons, List.length_append, List.length_cons] at *
    rw [ih]
    simp [bitsOf]
    omega

namespace Bitmap

def pack (rows : Bitmap) : List UInt8 := packBits rows.flatten

def ofPixels (width height : Nat) (pixel : Nat → Nat → Bool) : Bitmap :=
  (List.range height).map fun y => (List.range width).map fun x => pixel x y

def unpack (width height : Nat) (bs : List UInt8) : Bitmap :=
  let pixels := (unpackBits bs).toArray
  ofPixels width height fun x y => pixels.getD (y * width + x) false

end Bitmap
end PixelFont
