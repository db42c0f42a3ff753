import PixelFont.Bitmap
import PixelFont.CharCode
import PixelFont.Compilation
import PixelFont.FieldName

set_option autoImplicit false

namespace PixelFont

/-- A bounding box: its size in pixels and where it sits against the origin. -/
structure Box where
  width : UInt32 := 0
  height : UInt32 := 0
  xOffset : Int32 := 0
  yOffset : Int32 := 0
  deriving DecidableEq, Repr

structure Advance where
  x : UInt32 := 0
  y : UInt32 := 0
  deriving DecidableEq, Repr

def Box.pixels (b : Box) : Nat := b.width.toNat * b.height.toNat

/-- A character's metrics and pixels. A glyph that passes its check has as many rows as its box is
high, each as long as the box is wide. -/
structure Glyph where
  code : CharCode := .missing
  advance : Advance := {}
  box : Box := {}
  rows : Bitmap := []
  deriving DecidableEq, Repr

def Box.check (b : Box) : Check :=
  .all [.field "width" (.range .u8 b.width.toNat), .field "height" (.range .u8 b.height.toNat),
    .field "x_offset" (.range .i8 b.xOffset.toInt), .field "y_offset" (.range .i8 b.yOffset.toInt)]

def Advance.check (a : Advance) : Check :=
  .all [.field "x" (.range .u8 a.x.toNat), .field "y" (.range .u8 a.y.toNat)]

namespace Glyph

def headLength : Nat := 10

def recordLength (g : Glyph) : Nat := headLength + bytesFor g.box.pixels

def checkRowCount (g : Glyph) : Check :=
  if g.rows.length = g.box.height.toNat then .pass
  else .report s!"glyph {g.code.text} has {g.rows.length} rows, expected {g.box.height}"

def checkRow (g : Glyph) (i : Nat) (row : List Bool) : Check :=
  if row.length = g.box.width.toNat then .pass
  else .report s!"row {i} of glyph {g.code.text} has {row.length} pixels, expected {g.box.width}"

def check (g : Glyph) : Check :=
  .table "GlyphRecord" [.field "device_width" g.advance.check, .field "bounding_box" g.box.check,
    .field "bitmap" (.both g.checkRowCount
      (.all (g.rows.zipIdx.map fun (row, i) => g.checkRow i row)))]

/-- The length field is filled in last, with the length that the record turned out to have. -/
def plan (g : Glyph) : Plan 0 :=
  .field GlyphField.code .u16 g.code.value.toNat <|
  .reserve GlyphField.bytes .u16 <|
  .field GlyphField.advanceX .u8 g.advance.x.toNat <|
  .field GlyphField.advanceY .u8 g.advance.y.toNat <|
  .field GlyphField.boxWidth .u8 g.box.width.toNat <|
  .field GlyphField.boxHeight .u8 g.box.height.toNat <|
  .field GlyphField.boxXOffset .i8 g.box.xOffset.toInt <|
  .field GlyphField.boxYOffset .i8 g.box.yOffset.toInt <|
  .mark GlyphField.bitmap <|
  .bytes g.rows.pack <|
  .position fun length => .fill 0 length .done

def compile (g : Glyph) (t : OffsetTable) : Compilation := g.plan.compileChecked g.check t

/-- The placeholder of a font: a hollow rectangle as tall as the font and half as wide. It moves
the origin one pixel further than its width, so that two of them do not touch. -/
def placeholder (size : UInt32) : Glyph :=
  let width := size / 2
  let edge (n i : Nat) : Bool := i = 0 || i + 1 = n
  { code := .missing
    advance := ⟨width + 1, size⟩
    box := ⟨width, size, 0, 0⟩
    rows := .ofPixels width.toNat size.toNat fun x y => edge width.toNat x || edge size.toNat y }

end Glyph
end PixelFont
